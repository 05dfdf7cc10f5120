import JvmClass.Annotation.Decode
import JvmClass.Annotation.Encode
import JvmClass.Proofs.Constant.Answers

/-!
# Annotations read back

Storing a structure against a pool extends the pool and appends bytes from which every image of the
pool reads the structure; stored again, against a pool that has grown further, it appends the same
bytes (`Store.Spells`). Values nest no deeper than they have bytes, so that the bound on the depth
of reading is never reached.
-/

namespace JvmClass

open ConstantPool (Extended Gives Grows Stable Request)
open Scan (Reads)

namespace Store

/-- What is stored extends the pool and appends bytes that are good for every image of the pool, and
the same bytes are appended when it is stored again. -/
def Spells (store : Store Unit) (good : ClassImage → List UInt8 → Prop) : Prop :=
  ∀ s u s', store s = .ok u s' → Extended s.pool s'.pool ∧
    ∃ bytes, s'.out = s.out.putAll bytes ∧ (∀ image, image.Holds s'.pool → good image bytes) ∧
      ∀ q out, Grows s'.pool q → store ⟨q, out⟩ = .ok u ⟨q, out.putAll bytes⟩

variable {store store' : Store Unit} {good good' : ClassImage → List UInt8 → Prop}

theorem Spells.mono (h : Spells store good)
    (hgood : ∀ image bytes, good image bytes → good' image bytes) : Spells store good' := by
  intro s u s' hs
  obtain ⟨hext, bytes, hout, hg, hagain⟩ := h s u s' hs
  exact ⟨hext, bytes, hout, fun image hi => hgood image bytes (hg image hi), hagain⟩

/-- Structures that are stored one after another. -/
theorem Spells.andThen (h : Spells store good) (h' : Spells store' good') :
    Spells (do store; store') fun image bytes =>
      ∃ a b, bytes = a ++ b ∧ good image a ∧ good' image b := by
  intro s u s' hs
  obtain ⟨_, mid, h1, h2⟩ := Step.bind_ok.1 hs
  obtain ⟨hext, a, hout, hg, hagain⟩ := h s _ mid h1
  obtain ⟨hext', b, hout', hg', hagain'⟩ := h' mid u s' h2
  refine ⟨hext.trans hext', a ++ b, ?_, fun image hi => ?_, fun q out hq => ?_⟩
  · rw [hout', hout, Bytes.putAll_append]
  · exact ⟨a, b, rfl, hg image (hi.of_grows hext'.grows), hg' image hi⟩
  · refine Step.bind_ok.2 ⟨(), _, hagain q out (hext'.grows.trans hq), ?_⟩
    rw [hagain' q _ hq, Bytes.putAll_append]

theorem spells_pure : Spells (pure ()) fun _ bytes => bytes = [] := by
  intro s u s' hs
  obtain ⟨rfl, rfl⟩ := Step.pure_ok.1 hs
  exact ⟨.refl, [], rfl, fun _ _ => rfl, fun q out _ => rfl⟩

theorem spells_u8 (n : UInt8) : Spells (u8 n) fun _ bytes => bytes = [n] := by
  intro s u s' hs
  obtain rfl := Step.modify_ok.1 hs
  exact ⟨.refl, [n], rfl, fun _ _ => rfl, fun q out _ => rfl⟩

theorem spells_count (what : String) (n : Nat) :
    Spells (count what n) fun _ bytes => n < 65536 ∧ bytes = bytes16 (UInt16.ofNat n) := by
  intro s u s' hs
  unfold count count16 at hs ⊢
  split at hs
  · rename_i hlt
    obtain ⟨m, mid, h1, h2⟩ := Step.bind_ok.1 hs
    obtain ⟨hm, rfl⟩ := Step.of_ok.1 h1
    cases hm
    obtain rfl := Step.modify_ok.1 h2
    refine ⟨.refl, _, rfl, fun _ _ => ⟨hlt, rfl⟩, fun q out _ => ?_⟩
    rw [if_pos hlt]
    rfl
  · obtain ⟨m, mid, h1, -⟩ := Step.bind_ok.1 hs
    cases (Step.of_ok.1 h1).1

/-- The index of what is asked for. -/
theorem spells_index {β : Type} {request : Request PoolIndex}
    {look : ClassImage → PoolIndex → Except ClassError β} {b : β} (hr : Stable request)
    (hd : ClassImage.Denotes request look b) :
    Spells (index request) fun image bytes =>
      ∃ i, bytes = bytes16 i ∧ look image i = .ok b := by
  intro s u s' hs
  obtain ⟨i, mid, h1, h2⟩ := Step.bind_ok.1 hs
  obtain ⟨p, hp, rfl⟩ := Step.on_ok.1 h1
  obtain rfl := Step.modify_ok.1 h2
  obtain ⟨hext, hagain⟩ := hr _ _ _ hp
  refine ⟨hext, bytes16 i, rfl, fun image hi => ⟨i, rfl, hd hp hi⟩, fun q out hq => ?_⟩
  refine Step.bind_ok.2 ⟨i, ⟨q, out⟩, Step.on_ok.2 ⟨q, hagain q hq, rfl⟩, rfl⟩

/-- A request whose answer is what is stored from an empty output on. -/
theorem Spells.gives {request : Request Bytes} (h : Spells store good)
    (hr : ∀ p encoded p', request p = .ok encoded p' ↔ store ⟨p, #[]⟩ = .ok () ⟨p', encoded⟩) :
    Gives request fun image encoded => good image encoded.toList := by
  refine ⟨fun p encoded p' hp => ?_, fun {p encoded p' image} hp hi => ?_⟩
  · obtain ⟨hext, bytes, hout, -, hagain⟩ := h _ _ _ ((hr p encoded p').1 hp)
    refine ⟨hext, fun q hq => (hr q encoded q).2 ?_⟩
    rw [hagain q #[] hq, ← hout]
  · obtain ⟨-, bytes, hout, hg, -⟩ := h _ _ _ ((hr p encoded p').1 hp)
    simp only at hout
    rw [hout, Bytes.toList_putAll, List.nil_append]
    exact hg image hi

end Store

namespace ClassImage

variable {image : ClassImage} {bytes : List UInt8} {i : PoolIndex}

theorem reads_readUtf8 {text : String} (h : image.utf8 i = .ok text) :
    Reads image.readUtf8 (bytes16 i) text := by
  refine ((Scan.reads_u16 i).bind ?_).cast (List.append_nil _)
  rw [h]
  exact Scan.reads_of text

/-- The index of a constant, from which something is made. -/
theorem reads_constant {α : Type} {c : Constant} {k : PoolIndex → Constant → Scan α} {a : α}
    (h : image.constant i = .ok c) (hk : k i c = pure a) :
    Reads (do let index ← Scan.u16; k index (← Step.of (image.constant index))) (bytes16 i) a := by
  refine ((Scan.reads_u16 i).bind ?_).cast (List.append_nil _)
  rw [h]
  refine (Scan.reads_of c).after ?_
  rw [hk]
  exact Scan.reads_pure a

theorem reads_readInt {value : Int32} (h : image.constant i = .ok (.int value)) :
    Reads image.readInt (bytes16 i) value := by
  unfold ClassImage.readInt
  exact reads_constant h rfl

/-- A value that holds no others is read off after its tag. -/
theorem reads_simple {v : ElementValue} (hplain : v.tag ≠ '@' ∧ v.tag ≠ '[')
    (h : Reads (image.readSimpleValue v.tagByte) bytes v) {depth : Nat} (hdepth : 0 < depth) :
    Reads (image.readValueWithin depth) (v.tagByte :: bytes) v := by
  obtain ⟨depth, rfl⟩ := Nat.exists_eq_succ_of_ne_zero (Nat.ne_of_gt hdepth)
  show Reads _ ([v.tagByte] ++ bytes) v
  refine (Scan.reads_u8 v.tagByte).bind ?_
  have htag : Char.ofNat v.tagByte.toNat = v.tag := by cases v <;> rfl
  rw [htag]
  split
  · exact absurd ‹_› hplain.1
  · exact absurd ‹_› hplain.2
  · exact h

theorem constant_back (c : Constant) : Denotes (ConstantPool.intern c) constant c :=
  fun _ _ _ h _ hi => constant_intern h hi

/-- An array or a nested annotation is read one level deeper than what it holds. -/
theorem reads_deeper {v : ElementValue} {depth : Nat} (hdepth : 0 < depth)
    (h : ∀ d, depth = d + 1 → Reads (match Char.ofNat v.tagByte.toNat with
      | '@' => do
        let descriptor ← image.readUtf8
        return .nested descriptor
          (← Scan.counted (image.readElement (image.readValueWithin d)))
      | '[' => return .array (← Scan.counted (image.readValueWithin d))
      | _ => image.readSimpleValue v.tagByte) bytes v) :
    Reads (image.readValueWithin depth) (v.tagByte :: bytes) v := by
  obtain ⟨depth, rfl⟩ := Nat.exists_eq_succ_of_ne_zero (Nat.ne_of_gt hdepth)
  show Reads _ ([v.tagByte] ++ bytes) v
  exact (Scan.reads_u8 v.tagByte).bind (h depth rfl)

end ClassImage

open ClassImage (utf8_back constant_back)

/-- A value that holds no others: its tag and what its constants say. -/
theorem spells_plain {v : ElementValue} {store : Store Unit}
    (hplain : v.tag ≠ '@' ∧ v.tag ≠ '[')
    (h : Store.Spells store fun image bytes => Reads (image.readSimpleValue v.tagByte) bytes v) :
    Store.Spells (do Store.u8 v.tagByte; store) fun image bytes =>
      ∀ depth, bytes.length ≤ depth → Reads (image.readValueWithin depth) bytes v := by
  refine ((Store.spells_u8 _).andThen h).mono ?_
  rintro image _ ⟨_, rest, rfl, rfl, hr⟩ depth hdepth
  simp only [List.length_append, List.length_singleton] at hdepth
  exact ClassImage.reads_simple hplain hr (by omega)

/-- A value that is stored as one constant. -/
theorem spells_constant {v : ElementValue} {c : Constant} (hc : c.Fits)
    (hplain : v.tag ≠ '@' ∧ v.tag ≠ '[')
    (h : ∀ (image : ClassImage) i, image.constant i = .ok c →
      Reads (image.readSimpleValue v.tagByte) (bytes16 i) v) :
    Store.Spells (do Store.u8 v.tagByte; Store.index (ConstantPool.intern c)) fun image bytes =>
      ∀ depth, bytes.length ≤ depth → Reads (image.readValueWithin depth) bytes v := by
  refine spells_plain hplain ?_
  refine (Store.spells_index (ConstantPool.stable_intern hc) (constant_back c)).mono ?_
  rintro image _ ⟨i, rfl, hi⟩
  exact h image i hi

theorem toUInt16_ofNat (unit : UInt16) : (Int32.ofNat unit.toNat).toUInt32.toUInt16 = unit := by
  apply UInt16.toNat_inj.1
  have hlt := unit.toNat_lt
  have hwide : (Int32.ofNat unit.toNat).toUInt32 = UInt32.ofNat unit.toNat := rfl
  rw [hwide]
  simp

mutual

/-- What a value is stored as reads back as the value. -/
theorem ElementValue.spells_store : (v : ElementValue) →
    Store.Spells v.store fun image bytes =>
      ∀ depth, bytes.length ≤ depth → Reads (image.readValueWithin depth) bytes v
  | .byte value => by
    refine spells_constant (c := .int _) trivial (by simp [ElementValue.tag]) fun image i hi => ?_
    have h := (ClassImage.reads_readInt hi).map (f := fun n => ElementValue.byte n.toInt8)
    rwa [Int8.toInt8_toInt32] at h
  | .char unit => by
    refine spells_constant (c := .int _) trivial (by simp [ElementValue.tag]) fun image i hi => ?_
    have h := (ClassImage.reads_readInt hi).map
      (f := fun n => ElementValue.char n.toUInt32.toUInt16)
    rwa [toUInt16_ofNat] at h
  | .short value => by
    refine spells_constant (c := .int _) trivial (by simp [ElementValue.tag]) fun image i hi => ?_
    have h := (ClassImage.reads_readInt hi).map (f := fun n => ElementValue.short n.toInt16)
    rwa [Int16.toInt16_toInt32] at h
  | .boolean value => by
    refine spells_constant (c := .int _) trivial (by simp [ElementValue.tag]) fun image i hi => ?_
    have h := (ClassImage.reads_readInt hi).map (f := fun n => ElementValue.boolean (n != 0))
    cases value <;> exact h
  | .int value => by
    refine spells_constant (c := .int _) trivial (by simp [ElementValue.tag]) fun image i hi => ?_
    exact (ClassImage.reads_readInt hi).map (f := fun n => ElementValue.int n)
  | .long value => by
    refine spells_constant (c := .long _) trivial (by simp [ElementValue.tag]) fun image i hi => ?_
    exact ClassImage.reads_constant (k := fun index c => match c with
      | .long value => pure (ElementValue.long value)
      | _ => throw (.unexpectedConstant index .long)) hi rfl
  | .float bits => by
    refine spells_constant (c := .float _) trivial (by simp [ElementValue.tag])
      fun image i hi => ?_
    exact ClassImage.reads_constant (k := fun index c => match c with
      | .float bits => pure (ElementValue.float bits)
      | _ => throw (.unexpectedConstant index .float)) hi rfl
  | .double bits => by
    refine spells_constant (c := .double _) trivial (by simp [ElementValue.tag])
      fun image i hi => ?_
    exact ClassImage.reads_constant (k := fun index c => match c with
      | .double bits => pure (ElementValue.double bits)
      | _ => throw (.unexpectedConstant index .double)) hi rfl
  | .string text => by
    refine spells_plain (by simp [ElementValue.tag]) ?_
    refine (Store.spells_index (ConstantPool.stable_utf8 _) (utf8_back _)).mono ?_
    rintro image _ ⟨i, rfl, hi⟩
    exact (ClassImage.reads_readUtf8 hi).map
  | .enum descriptor name => by
    refine spells_plain (by simp [ElementValue.tag]) ?_
    refine ((Store.spells_index (ConstantPool.stable_utf8 _) (utf8_back _)).andThen
      (Store.spells_index (ConstantPool.stable_utf8 _) (utf8_back _))).mono ?_
    rintro image _ ⟨_, _, rfl, ⟨i, rfl, hi⟩, ⟨j, rfl, hj⟩⟩
    exact (ClassImage.reads_readUtf8 hi).bind (ClassImage.reads_readUtf8 hj).map
  | .cls descriptor => by
    refine spells_plain (by simp [ElementValue.tag]) ?_
    refine (Store.spells_index (ConstantPool.stable_utf8 _) (utf8_back _)).mono ?_
    rintro image _ ⟨i, rfl, hi⟩
    exact (ClassImage.reads_readUtf8 hi).map
  | .nested descriptor elements => by
    refine ((Store.spells_u8 _).andThen
      ((Store.spells_index (ConstantPool.stable_utf8 _) (utf8_back _)).andThen
        ((Store.spells_count _ _).andThen (spells_storeElements elements)))).mono ?_
    rintro image _ ⟨_, _, rfl, rfl, _, _, rfl, ⟨i, rfl, hi⟩, _, _, rfl, ⟨hcount, rfl⟩, hg⟩
      depth hdepth
    simp only [List.length_append, List.length_singleton, length_bytes16] at hdepth
    refine ClassImage.reads_deeper (by omega) fun d hd => ?_
    obtain ⟨chunks, rfl, hall⟩ := hg
    refine (ClassImage.reads_readUtf8 hi).bind ?_
    exact (Scan.reads_counted (hall d (by omega)) hcount).map
  | .array values => by
    refine ((Store.spells_u8 _).andThen
      ((Store.spells_count _ _).andThen (spells_storeValues values))).mono ?_
    rintro image _ ⟨_, _, rfl, rfl, _, _, rfl, ⟨hcount, rfl⟩, hg⟩ depth hdepth
    simp only [List.length_append, List.length_singleton, length_bytes16] at hdepth
    refine ClassImage.reads_deeper (by omega) fun d hd => ?_
    obtain ⟨chunks, rfl, hall⟩ := hg
    exact (Scan.reads_counted (hall d (by omega)) hcount).map

theorem spells_storeElements : (elements : List (String × ElementValue)) →
    Store.Spells (storeElements elements) fun image bytes =>
      ∃ chunks, bytes = chunks.flatten ∧ ∀ depth, bytes.length ≤ depth →
        List.Forall₂ (Reads (image.readElement (image.readValueWithin depth))) chunks elements
  | [] => Store.spells_pure.mono fun image bytes hb => ⟨[], hb, fun _ _ => .nil⟩
  | (name, value) :: rest => by
    refine ((Store.spells_index (ConstantPool.stable_utf8 _) (utf8_back _)).andThen
      ((value.spells_store).andThen (spells_storeElements rest))).mono ?_
    rintro image _ ⟨_, _, rfl, ⟨i, rfl, hi⟩, a, _, rfl, hvalue, ⟨chunks, rfl, hall⟩⟩
    refine ⟨(bytes16 i ++ a) :: chunks, by simp, fun depth hdepth => ?_⟩
    simp only [List.length_append, length_bytes16] at hdepth
    refine .cons ?_ (hall depth (by omega))
    exact (ClassImage.reads_readUtf8 hi).bind (hvalue depth (by omega)).map

theorem spells_storeValues : (values : List ElementValue) →
    Store.Spells (storeValues values) fun image bytes =>
      ∃ chunks, bytes = chunks.flatten ∧ ∀ depth, bytes.length ≤ depth →
        List.Forall₂ (Reads (image.readValueWithin depth)) chunks values
  | [] => Store.spells_pure.mono fun image bytes hb => ⟨[], hb, fun _ _ => .nil⟩
  | value :: rest => by
    refine ((value.spells_store).andThen (spells_storeValues rest)).mono ?_
    rintro image _ ⟨a, _, rfl, hvalue, ⟨chunks, rfl, hall⟩⟩
    refine ⟨a :: chunks, by simp, fun depth hdepth => ?_⟩
    simp only [List.length_append] at hdepth
    exact .cons (hvalue depth (by omega)) (hall depth (by omega))

end

/-- What an annotation is stored as reads back as the annotation. -/
theorem Annotation.spells_store (a : Annotation) :
    Store.Spells a.store fun image bytes => Reads image.readAnnotationEntry bytes a := by
  refine ((Store.spells_index (ConstantPool.stable_utf8 _) (utf8_back _)).andThen
    ((Store.spells_count _ _).andThen (spells_storeElements a.elements))).mono ?_
  rintro image _ ⟨_, _, rfl, ⟨i, rfl, hi⟩, _, _, rfl, ⟨hcount, rfl⟩, ⟨chunks, rfl, hall⟩⟩
  intro start data hs
  -- the depth that is allowed is the number of bytes left, of which the elements are a part
  have hdepth : chunks.flatten.length ≤ (Cursor.mk data start).remaining := by
    have hsize := hs.size_le
    simp only [List.length_append, Cursor.remaining] at hsize ⊢
    omega
  have hrest := (ClassImage.reads_readUtf8 hi).bind (k := fun descriptor => do
    return (⟨descriptor, ← Scan.counted (image.readElement
      (image.readValueWithin (Cursor.mk data start).remaining))⟩ : Annotation))
    (Scan.reads_counted (hall _ hdepth) hcount).map
  exact hrest start data hs

/-- What annotations are stored as reads back as the annotations. -/
theorem spells_storeAnnotations (all : List Annotation) :
    Store.Spells (storeAnnotations all) fun image bytes => ∃ chunks, bytes = chunks.flatten ∧
      List.Forall₂ (Reads image.readAnnotationEntry) chunks all := by
  induction all with
  | nil => exact Store.spells_pure.mono fun image bytes hb => ⟨[], hb, .nil⟩
  | cons a rest ih =>
    refine (a.spells_store.andThen ih).mono ?_
    rintro image _ ⟨first, _, rfl, ha, ⟨chunks, rfl, hall⟩⟩
    exact ⟨first :: chunks, rfl, .cons ha hall⟩

end JvmClass
