import JvmClass.Proofs.Image.Confined

/-!
# The reads of attributes

Every attribute that is interpreted is read by a read that data contain or are too short for
(`Scan.Confined`): values of annotations by induction on how deep they nest, stack maps by induction
on the number of frames, and the others one part after another.
-/

namespace JvmClass

namespace ClassImage

open Scan (Confined Short ReadsAt)

variable {image : ClassImage} {depth : Nat}

section Annotations

theorem confined_readUtf8 : Confined (fun _ => image.readUtf8) depth :=
  Scan.confined_u16.bind fun _ => Scan.confined_of _

theorem confined_readInt : Confined (fun _ => image.readInt) depth := by
  refine Scan.confined_u16.bind fun _ => (Scan.confined_of _).bind fun c => ?_
  split
  · exact Scan.confined_pure _
  · exact Scan.confined_throw _

theorem confined_readSimpleValue (tag : UInt8) :
    Confined (fun _ => image.readSimpleValue tag) depth := by
  unfold readSimpleValue
  split
  case h_6 | h_7 | h_8 =>
    refine Scan.confined_u16.bind fun _ => (Scan.confined_of _).bind fun c => ?_
    split
    · exact Scan.confined_pure _
    · exact Scan.confined_throw _
  case h_9 | h_11 => exact confined_readUtf8.map
  case h_10 => exact confined_readUtf8.bind fun _ => confined_readUtf8.map
  case h_12 => exact Scan.confined_throw _
  all_goals exact confined_readInt.map

theorem confined_readElement {f : Nat → Scan ElementValue} (h : Confined f depth) :
    Confined (fun d => image.readElement (f d)) depth :=
  confined_readUtf8.bind fun _ => h.map

/-- What follows the tag of a value. -/
def readTagged (image : ClassImage) (depth : Nat) (tag : UInt8) : Scan ElementValue :=
  match Char.ofNat tag.toNat with
  | '@' => do
    let descriptor ← image.readUtf8
    return .nested descriptor
      (← Scan.counted (image.readElement (image.readValueWithin depth)))
  | '[' => return .array (← Scan.counted (image.readValueWithin depth))
  | _ => image.readSimpleValue tag

theorem confined_readTagged (h : Confined image.readValueWithin depth) (tag : UInt8) :
    Confined (fun d => image.readTagged d tag) depth := by
  unfold readTagged
  split
  · exact confined_readUtf8.bind fun _ => (confined_readElement h).counted.map
  · exact h.counted.map
  · exact confined_readSimpleValue tag

/-- Where no values may nest, a value that was read holds no others. -/
theorem readTagged_of_simple {tag : UInt8} {c c' : Cursor} {v : ElementValue}
    (h : image.readSimpleValue tag c = .ok v c') (depth : Nat) :
    image.readTagged depth tag = image.readSimpleValue tag := by
  unfold readTagged
  unfold readSimpleValue at h
  split
  · rename_i htag
    rw [htag] at h
    exact (Step.throw_ok.1 h).elim
  · rename_i htag
    rw [htag] at h
    exact (Step.throw_ok.1 h).elim
  · rfl

/-- Behind the tag of a value there is one byte less, and values nest one level less deep. -/
theorem takes_tagged {data : Bytes} {start : Nat} {tag : UInt8} {v : ElementValue} {c mid : Cursor}
    (hstart : start ≤ data.size) (htag : Scan.u8 ⟨data, start⟩ = .ok tag mid)
    (h : ∀ next, mid = ⟨data, next⟩ → next ≤ data.size →
      Scan.Takes (image.readTagged · tag) data next v c) :
    Scan.Takes image.readValueWithin data start v c := by
  have hone := Scan.u8_ok htag
  have hconfined : Confined (fun _ => Scan.u8) 0 := Scan.confined_u8
  obtain ⟨front, hmid, hs, hr, hshort⟩ := hconfined data start tag mid hstart htag
  have hfront : front.length = 1 := by
    rw [hone] at hmid
    exact Nat.add_left_cancel (Cursor.mk.inj hmid).2.symm
  obtain ⟨rest, rfl, hs', hr', hshort'⟩ := h _ hmid hs.size_le
  have hlength : (front ++ rest).length = front.length + rest.length := List.length_append
  refine ⟨front ++ rest, by rw [hlength, Nat.add_assoc], hs.append hs', fun d hd => ?_, ?_⟩
  · obtain ⟨d, rfl⟩ := Nat.exists_eq_succ_of_ne_zero (show d ≠ 0 by omega)
    exact (hr 1 (by omega)).bind (hr' d (by omega))
  · intro stop d hstop hlt hd
    by_cases hnext : start + front.length ≤ stop
    · obtain ⟨d, rfl⟩ := Nat.exists_eq_succ_of_ne_zero (show d ≠ 0 by omega)
      have hread := hr 1 (by omega) _ (hs.cut hnext)
      exact .after hread (hshort' stop d hnext (by omega) (by omega))
    · have htag := hshort stop 0 hstop (by omega) (by omega)
      cases d with
      | zero => exact htag.bind _
      | succ d => exact htag.bind _

theorem confined_readValueWithin (depth : Nat) : Confined image.readValueWithin depth := by
  induction depth with
  | zero =>
    intro data start v c hstart h
    obtain ⟨tag, mid, htag, h⟩ := Step.bind_ok.1 h
    refine takes_tagged hstart htag fun next hmid hnext => ?_
    have hconfined : Confined (fun _ => image.readSimpleValue tag) 0 := confined_readSimpleValue tag
    have htakes := hconfined data next v c hnext (hmid ▸ h)
    simpa only [readTagged_of_simple h] using htakes
  | succ depth ih =>
    intro data start v c hstart h
    obtain ⟨tag, mid, htag, h⟩ := Step.bind_ok.1 h
    refine takes_tagged hstart htag fun next hmid hnext => ?_
    exact confined_readTagged ih tag data next v c hnext (hmid ▸ h)

theorem confined_readAnnotations : Confined (fun _ => image.readAnnotations) depth := by
  have hentry : Confined (fun _ => image.readAnnotationEntry) depth :=
    Scan.confined_remaining fun _ => confined_readUtf8.bind fun _ =>
      (confined_readElement (confined_readValueWithin _)).counted.map
  exact hentry.counted

end Annotations

section Bodies

theorem confined_readBootstrapMethod : Confined (fun _ => readBootstrapMethod) depth :=
  Scan.confined_u16.bind fun _ => Scan.confined_u16.counted.map

/-- Reads the index of a class. -/
theorem confined_class : Confined (fun _ => do Step.of (image.cls (← Scan.u16))) depth :=
  Scan.confined_u16.bind fun _ => Scan.confined_of _

theorem confined_readClasses : Confined (fun _ => image.readClasses) depth := confined_class.counted

theorem confined_readEnclosingMethod : Confined (fun _ => image.readEnclosingMethod) depth := by
  refine Scan.confined_u16.bind fun _ => (Scan.confined_of _).bind fun _ =>
    Scan.confined_u16.bind fun _ => ?_
  exact Scan.confined_ite (Scan.confined_pure _) (Scan.confined_of _).map

theorem confined_readNestMember : Confined (fun _ => image.readNestMember) depth :=
  Scan.confined_u16.bind fun _ => (Scan.confined_of _).map

theorem confined_readInnerClass : Confined (fun _ => image.readInnerClass) depth :=
  Scan.confined_u16.bind fun _ => (Scan.confined_of _).bind fun _ =>
    Scan.confined_u16.bind fun _ => (Scan.confined_of _).bind fun _ =>
      Scan.confined_u16.bind fun _ => (Scan.confined_of _).bind fun _ => Scan.confined_u16.map

theorem confined_readAttribute : Confined (fun _ => image.readAttribute) depth := by
  refine Scan.confined_u16.bind fun _ => (Scan.confined_of _).bind fun name =>
    Scan.confined_u32.bind fun size => ?_
  exact Scan.confined_offset (k := fun offset _ => do
    Scan.skip size.toNat
    return AttributeSpan.mk name offset size.toNat) fun _ => (Scan.confined_skip _).map

theorem confined_readAttributes : Confined (fun _ => image.readAttributes) depth :=
  confined_readAttribute.counted

theorem confined_readTableEntry : Confined (fun _ => readTableEntry) depth :=
  Scan.confined_u16.bind fun _ => Scan.confined_u16.bind fun _ =>
    Scan.confined_u16.bind fun _ => Scan.confined_u16.map

theorem confined_readStoredBody : Confined (fun _ => image.readStoredBody) depth :=
  Scan.confined_u16.bind fun _ => Scan.confined_u16.bind fun _ =>
    Scan.confined_u32.bind fun _ => (Scan.confined_bytes _).bind fun _ =>
      (Scan.confined_of _).bind fun _ => confined_readTableEntry.counted.bind fun _ =>
        confined_readAttributes.map

theorem confined_readLine : Confined (fun _ => readLine) depth :=
  Scan.confined_u16.bind fun _ => Scan.confined_u16.map

theorem confined_readVariable : Confined (fun _ => readVariable) depth :=
  Scan.confined_u16.bind fun _ => Scan.confined_u16.bind fun _ =>
    Scan.confined_u16.bind fun _ => Scan.confined_u16.bind fun _ => Scan.confined_u16.map

theorem confined_readType : Confined (fun _ => image.readType) depth := by
  refine Scan.confined_u8.bind fun tag => ?_
  refine Scan.confined_ite (Scan.confined_pure _) ?_
  refine Scan.confined_ite (Scan.confined_pure _) ?_
  refine Scan.confined_ite (Scan.confined_pure _) ?_
  refine Scan.confined_ite (Scan.confined_pure _) ?_
  refine Scan.confined_ite (Scan.confined_pure _) ?_
  refine Scan.confined_ite (Scan.confined_pure _) ?_
  refine Scan.confined_ite (Scan.confined_pure _) ?_
  refine Scan.confined_ite (Scan.confined_u16.bind fun _ => (Scan.confined_of _).map) ?_
  exact Scan.confined_ite Scan.confined_u16.map (Scan.confined_throw _)

theorem confined_readEntry : Confined (fun _ => image.readEntry) depth := by
  refine Scan.confined_u8.bind fun kind => ?_
  refine Scan.confined_ite (Scan.confined_pure _) ?_
  refine Scan.confined_ite confined_readType.map ?_
  refine Scan.confined_ite (Scan.confined_throw _) ?_
  refine Scan.confined_u16.bind fun delta => ?_
  refine Scan.confined_ite confined_readType.map ?_
  refine Scan.confined_ite (Scan.confined_pure _) ?_
  refine Scan.confined_ite (Scan.confined_pure _) ?_
  refine Scan.confined_ite (confined_readType.times _).map ?_
  exact confined_readType.counted.bind fun _ => confined_readType.counted.map

theorem confined_readFrames (n : Nat) (locals : List NamedType) (previous : Option Nat)
    (done : List PlacedFrame) :
    Confined (fun _ => image.readFrames locals previous done n) depth := by
  induction n generalizing locals previous done with
  | zero => exact Scan.confined_pure _
  | succ n ih =>
    refine confined_readEntry.bind fun entry => ?_
    cases Layout.expand? locals entry with
    | none => exact Scan.confined_throw _
    | some layout => exact ih _ _ _

theorem confined_readStackMap (locals : List NamedType) :
    Confined (fun _ => image.readStackMap locals) depth :=
  Scan.confined_u16.bind fun _ => confined_readFrames _ _ _ _

end Bodies

end ClassImage

end JvmClass
