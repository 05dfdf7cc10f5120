import JvmClass.Assembly.Body
import JvmClass.StackMap.Decode
import JvmClass.Proofs.Constant.Answers
import JvmClass.Proofs.Cursor

/-!
# Stack maps read back

An entry that is written takes the bytes of its encoding, and those read back as the entry, with its
classes looked up. Expanding the entry that stores a frame after another one gives the frame again,
so that the frames of a stack map are the frames that were stored.
-/

namespace JvmClass

open ConstantPool (Gives)
open Put (Writes)
open Scan (Reads)

namespace PooledType

/-- The bytes of a stored type. -/
def encode (t : PooledType) : List UInt8 :=
  t.tag :: match t with
    | .object cls => bytes16 cls
    | .uninitialized offset => bytes16 offset
    | _ => []

theorem writes_put (t : PooledType) : Writes (PooledType.put t) True (PooledType.encode t) := by
  refine ((Put.writes_u8 t.tag).andThen (?_ : Writes _ True _)).cast (by simp) rfl
  cases t
  case object cls => exact Put.writes_u16 cls
  case uninitialized offset => exact Put.writes_u16 offset
  all_goals exact Put.writes_pure

theorem length_encode (t : PooledType) : (PooledType.encode t).length = PooledType.byteSize t := by
  cases t <;> rfl

theorem length_flatMap_encode (types : List PooledType) :
    (types.flatMap PooledType.encode).length = total PooledType.byteSize types :=
  Put.length_flatMap types fun t _ => length_encode t

end PooledType

/-- The classes of a type are looked up again when it is read. -/
theorem NamedType.gives_resolve (t : NamedType) :
    Gives (NamedType.resolve t) fun image stored =>
      Reads image.readType (PooledType.encode stored) t := by
  cases t
  case object name =>
    refine (ConstantPool.gives_cls name).map.mono ?_
    rintro image _ ⟨i, hi, rfl⟩
    refine (Scan.reads_u8 7).bind ?_
    refine ((Scan.reads_u16 i).bind ?_).cast (List.append_nil _)
    rw [hi]
    exact (Scan.reads_of name).map (f := VerificationType.object)
  case uninitialized offset =>
    have hoffset : Gives (if offset < 65536 then pure (UInt16.ofNat offset)
        else throw (.methodCodeOverflow offset)) fun _ stored => stored.toNat = offset := by
      refine ConstantPool.gives_ite (fun hlt => (ConstantPool.gives_pure _).mono ?_)
        fun _ => ConstantPool.gives_throw _
      rintro image _ rfl
      exact UInt16.toNat_ofNat_of_lt' hlt
    refine hoffset.map.mono ?_
    rintro image _ ⟨stored, rfl, rfl⟩
    refine (Scan.reads_u8 8).bind ?_
    exact (Scan.reads_u16 stored).map (f := fun n => VerificationType.uninitialized n.toNat)
  all_goals
    refine (ConstantPool.gives_pure _).mono ?_
    rintro image _ rfl
    exact (Scan.reads_u8 _).bind (Scan.reads_pure _)

/-- The stored types read back as the given types. -/
def ReadsTypes (image : ClassImage) (types : List NamedType) (stored : List PooledType) : Prop :=
  List.Forall₂ (fun t s => Reads image.readType (PooledType.encode s) t) types stored

theorem gives_resolveAll (types : List NamedType) :
    Gives (resolveAll types) fun image stored => ReadsTypes image types stored :=
  ConstantPool.gives_mapM NamedType.gives_resolve types

theorem ReadsTypes.chunks {image : ClassImage} {types : List NamedType} {stored : List PooledType}
    (h : ReadsTypes image types stored) :
    List.Forall₂ (Reads image.readType) (stored.map PooledType.encode) types := by
  rw [List.forall₂_map_left_iff]
  exact h.flip

theorem ReadsTypes.times {image : ClassImage} {types : List NamedType} {stored : List PooledType}
    (h : ReadsTypes image types stored) :
    Reads (Scan.times stored.length image.readType) (stored.flatMap PooledType.encode) types := by
  have := Scan.reads_times h.chunks
  rwa [List.Forall₂.length_eq h] at this

theorem ReadsTypes.counted {image : ClassImage} {types : List NamedType}
    {stored : List PooledType} (h : ReadsTypes image types stored)
    (hcount : stored.length < 65536) :
    Reads (Scan.counted image.readType) (Put.countedBytes PooledType.encode stored) types := by
  have := Scan.reads_counted h.chunks (by rwa [List.Forall₂.length_eq h])
  rwa [List.Forall₂.length_eq h] at this

namespace StackMapEntry

/-- The bytes of an entry. -/
def encode : StackMapEntry PooledType → List UInt8
  | same delta => if delta ≤ shortDelta then [delta.toUInt8] else 251 :: bytes16 delta
  | sameWithStack delta entry =>
    (if delta ≤ shortDelta then [delta.toUInt8 + 64] else 247 :: bytes16 delta) ++
      PooledType.encode entry
  | chop delta count => (251 - count) :: bytes16 delta
  | append delta locals =>
    (251 + UInt8.ofNat locals.length) :: (bytes16 delta ++ locals.flatMap PooledType.encode)
  | full delta locals stack =>
    255 :: (bytes16 delta ++ (Put.countedBytes PooledType.encode locals ++
      Put.countedBytes PooledType.encode stack))

/-- The entry has a stored form. -/
def Fits : StackMapEntry PooledType → Prop
  | chop _ count => 1 ≤ count ∧ count ≤ 3
  | append _ locals => 1 ≤ locals.length ∧ locals.length ≤ 3
  | full _ locals stack => locals.length < 65536 ∧ stack.length < 65536
  | _ => True

theorem writes_put (e : StackMapEntry PooledType) : Writes e.put e.Fits e.encode := by
  cases e with
  | same delta =>
    simp only [put, encode]
    split
    · exact Put.writes_u8 _
    · exact ((Put.writes_u8 251).andThen (Put.writes_u16 delta)).cast (by simp [Fits]) rfl
  | sameWithStack delta entry =>
    simp only [put, encode]
    split
    · exact ((Put.writes_u8 _).andThen (PooledType.writes_put entry)).cast (by simp [Fits]) rfl
    · exact ((Put.writes_u8 247).andThen ((Put.writes_u16 delta).andThen
        (PooledType.writes_put entry))).cast (by simp [Fits]) rfl
  | chop delta count =>
    simp only [put, encode]
    refine (Put.writes_if ((Put.writes_u8 _).andThen (Put.writes_u16 delta))).cast ?_ rfl
    simp [Fits]
  | append delta locals =>
    simp only [put, encode]
    refine (Put.writes_if ((Put.writes_u8 _).andThen ((Put.writes_u16 delta).andThen
      (Put.writes_each PooledType.writes_put locals)))).cast ?_ rfl
    simp [Fits]
  | full delta locals stack =>
    simp only [put, encode]
    refine ((Put.writes_u8 255).andThen ((Put.writes_u16 delta).andThen
      ((Put.writes_counted PooledType.writes_put locals).andThen
        (Put.writes_counted PooledType.writes_put stack)))).cast ?_ rfl
    simp [Fits]

theorem length_encode (e : StackMapEntry PooledType) : e.encode.length = e.byteSize := by
  cases e with
  | same delta =>
    simp only [encode, byteSize]
    split <;> rfl
  | sameWithStack delta entry =>
    simp only [encode, byteSize]
    rw [List.length_append, PooledType.length_encode]
    split <;> rfl
  | chop delta count => rfl
  | append delta locals =>
    simp only [encode, byteSize, List.length_cons, List.length_append, length_bytes16,
      PooledType.length_flatMap_encode]
    omega
  | full delta locals stack =>
    simp only [encode, byteSize, PooledType.listSize, Put.countedBytes, List.length_cons,
      List.length_append, length_bytes16, PooledType.length_flatMap_encode]
    omega

variable {image : ClassImage}

/-- A short distance is part of the tag. -/
theorem toNat_shortDelta {delta : UInt16} (h : delta ≤ shortDelta) :
    delta.toUInt8.toNat = delta.toNat ∧ delta.toNat ≤ 63 := by
  have hle : delta.toNat ≤ 63 := h
  refine ⟨?_, hle⟩
  rw [UInt16.toNat_toUInt8]
  omega

theorem reads_same (delta : UInt16) :
    Reads image.readEntry (encode (.same delta)) (.same delta) := by
  simp only [encode]
  split
  · rename_i h
    obtain ⟨hbyte, hle⟩ := toNat_shortDelta h
    refine (Scan.reads_u8 _).bind (?_ : Reads _ [] _)
    have hlt : delta.toUInt8 < 64 := by
      show delta.toUInt8.toNat < 64
      omega
    rw [if_pos hlt]
    have hback : delta.toUInt8.toUInt16 = delta := by
      apply UInt16.toNat_inj.1
      rw [UInt8.toNat_toUInt16, hbyte]
    rw [hback]
    exact Scan.reads_pure _
  · exact (Scan.reads_u8 251).bind (Scan.reads_u16 delta).map

theorem reads_sameWithStack {delta : UInt16} {stored : PooledType} {t : NamedType}
    (h : Reads image.readType (PooledType.encode stored) t) :
    Reads image.readEntry (encode (.sameWithStack delta stored)) (.sameWithStack delta t) := by
  simp only [encode]
  split
  · rename_i hshort
    obtain ⟨hbyte, hle⟩ := toNat_shortDelta hshort
    refine (Scan.reads_u8 _).bind ?_
    have hkind : (delta.toUInt8 + 64).toNat = delta.toNat + 64 := by
      rw [UInt8.toNat_add, hbyte]
      show (delta.toNat + 64) % 256 = _
      omega
    have hnot : ¬ delta.toUInt8 + 64 < 64 := by
      show ¬ (delta.toUInt8 + 64).toNat < 64
      omega
    have hlt : delta.toUInt8 + 64 < 128 := by
      show (delta.toUInt8 + 64).toNat < 128
      omega
    rw [if_neg hnot, if_pos hlt]
    have hback : (delta.toUInt8 + 64 - 64).toUInt16 = delta := by
      rw [UInt8.add_sub_cancel]
      apply UInt16.toNat_inj.1
      rw [UInt8.toNat_toUInt16, hbyte]
    rw [hback]
    exact h.map
  · exact (Scan.reads_u8 247).bind ((Scan.reads_u16 delta).bind h.map)

theorem reads_chop {delta : UInt16} {count : UInt8} (h : 1 ≤ count ∧ count ≤ 3) :
    Reads image.readEntry (encode (.chop delta count)) (.chop delta count) := by
  have hcases : count = 1 ∨ count = 2 ∨ count = 3 := by
    have h1 : 1 ≤ count.toNat := h.1
    have h3 : count.toNat ≤ 3 := h.2
    have : count.toNat = 1 ∨ count.toNat = 2 ∨ count.toNat = 3 := by omega
    rcases this with he | he | he
    · exact Or.inl (UInt8.toNat_inj.1 he)
    · exact Or.inr (Or.inl (UInt8.toNat_inj.1 he))
    · exact Or.inr (Or.inr (UInt8.toNat_inj.1 he))
  rcases hcases with rfl | rfl | rfl <;>
    exact (Scan.reads_u8 _).bind (Scan.reads_u16 delta).map

theorem reads_append {delta : UInt16} {stored : List PooledType} {types : List NamedType}
    (hcount : 1 ≤ stored.length ∧ stored.length ≤ 3) (h : ReadsTypes image types stored) :
    Reads image.readEntry (encode (.append delta stored)) (.append delta types) := by
  have htimes := h.times
  simp only [encode]
  have hcases : stored.length = 1 ∨ stored.length = 2 ∨ stored.length = 3 := by omega
  rcases hcases with he | he | he <;>
  · rw [he] at htimes ⊢
    exact (Scan.reads_u8 _).bind ((Scan.reads_u16 delta).bind htimes.map)

theorem reads_full {delta : UInt16} {locals stack : List PooledType}
    {types types' : List NamedType} (hl : locals.length < 65536) (hs : stack.length < 65536)
    (h : ReadsTypes image types locals) (h' : ReadsTypes image types' stack) :
    Reads image.readEntry (encode (.full delta locals stack)) (.full delta types types') :=
  (Scan.reads_u8 255).bind ((Scan.reads_u16 delta).bind ((h.counted hl).bind (h'.counted hs).map))

/-- An entry that is written reads back with its classes looked up. -/
theorem gives_resolve (e : StackMapEntry NamedType) :
    Gives e.resolve fun image stored =>
      stored.Fits → Reads image.readEntry stored.encode e := by
  cases e with
  | same delta =>
    refine (ConstantPool.gives_pure _).mono ?_
    rintro image _ rfl -
    exact reads_same delta
  | sameWithStack delta entry =>
    refine (NamedType.gives_resolve entry).map.mono ?_
    rintro image _ ⟨stored, h, rfl⟩ -
    exact reads_sameWithStack h
  | chop delta count =>
    refine (ConstantPool.gives_pure _).mono ?_
    rintro image _ rfl hfits
    exact reads_chop hfits
  | append delta locals =>
    refine (gives_resolveAll locals).map.mono ?_
    rintro image _ ⟨stored, h, rfl⟩ hfits
    exact reads_append hfits h
  | full delta locals stack =>
    refine ((gives_resolveAll locals).bind fun _ => (gives_resolveAll stack).map).mono ?_
    rintro image _ ⟨_, h, _, h', rfl⟩ hfits
    exact reads_full hfits.1 hfits.2 h h'

end StackMapEntry

namespace Layout

variable {T : Type} [DecidableEq T]

@[simp] theorem delta_entryAfter (l previous : Layout T) (delta : UInt16) :
    (l.entryAfter previous delta).delta = delta := by
  unfold entryAfter fullEntry
  split
  · split
    · simp only
      split
      · split <;> rfl
      · rfl
    · split <;> rfl
  · split <;> rfl
  · rfl

/-- Expanding the entry that stores a frame after another one gives the frame. -/
theorem expand?_entryAfter (l previous : Layout T) (delta : UInt16) :
    expand? previous.locals (l.entryAfter previous delta) = some l := by
  obtain ⟨locals, stack⟩ := l
  unfold entryAfter fullEntry
  simp only
  split
  · split
    · split
      · rename_i hle hgone
        simp only [Bool.and_eq_true, decide_eq_true_eq, List.isPrefixOf_iff_prefix] at hgone
        obtain ⟨rest, hrest⟩ := hgone.2
        have hlength : previous.locals.length = locals.length + rest.length := by
          rw [← hrest, List.length_append]
        split
        · have : rest = [] := List.eq_nil_of_length_eq_zero (by omega)
          rw [this, List.append_nil] at hrest
          simp [expand?, hrest]
        · have hcount : (UInt8.ofNat (previous.locals.length - locals.length)).toNat =
              previous.locals.length - locals.length :=
            UInt8.toNat_ofNat_of_lt' (by simp only [UInt8.size]; omega)
          simp only [expand?, hcount]
          rw [if_pos (by omega)]
          have htake : previous.locals.length - (previous.locals.length - locals.length) =
              locals.length := by omega
          rw [htake, ← hrest, List.take_left]
      · rfl
    · split
      · rename_i hadded
        simp only [Bool.and_eq_true, List.isPrefixOf_iff_prefix] at hadded
        obtain ⟨rest, hrest⟩ := hadded.2
        simp only [expand?]
        rw [← hrest, List.drop_left]
      · rfl
  · split
    · rename_i hlocals
      simp [expand?, hlocals]
    · rfl
  · rfl

end Layout

/-- The stored distance leads from the frame before to the frame. -/
theorem nextOffset_frameDelta {previous : Option Nat} {offset : Nat} {delta : UInt16}
    (h : MethodBuilder.frameDelta previous offset = .ok delta) :
    ClassImage.nextOffset delta previous = offset := by
  unfold MethodBuilder.frameDelta at h
  cases previous with
  | none =>
    simp only at h
    split at h
    · cases h
      exact UInt16.toNat_ofNat_of_lt' ‹_›
    · cases h
  | some previous =>
    simp only at h
    split at h
    · rename_i hlt
      cases h
      simp only [Bool.and_eq_true, decide_eq_true_eq] at hlt
      simp only [ClassImage.nextOffset, UInt16.toNat_ofNat_of_lt' hlt.2]
      omega
    · cases h

/-- A frame of a stack map. -/
def placedFrame (frame : Nat × Layout NamedType) : PlacedFrame := ⟨frame.1, frame.2⟩

/-- The entries that store frames read back as the frames. -/
theorem gives_stackMapEntries (previous : Layout NamedType) (previousOffset : Option Nat)
    (done : List (StackMapEntry PooledType)) (frames : List (Nat × Layout NamedType)) :
    Gives (MethodBuilder.stackMapEntries previous previousOffset done frames)
      fun image entries => ∃ new, entries = done.reverse ++ new ∧ new.length = frames.length ∧
        ((∀ e ∈ new, e.Fits) → ∀ before,
          Reads (image.readFrames previous.locals previousOffset before frames.length)
            (new.flatMap StackMapEntry.encode) (before.reverse ++ frames.map placedFrame)) := by
  induction frames generalizing previous previousOffset done with
  | nil =>
    refine (ConstantPool.gives_pure _).mono ?_
    rintro image _ rfl
    refine ⟨[], by simp, rfl, fun _ before => ?_⟩
    rw [List.map_nil, List.append_nil]
    exact Scan.reads_pure _
  | cons frame rest ih =>
    obtain ⟨offset, layout⟩ := frame
    refine ((ConstantPool.gives_of _).bind fun delta =>
      (StackMapEntry.gives_resolve (layout.entryAfter previous delta)).bind fun entry =>
        ih layout (some offset) (entry :: done)).mono ?_
    rintro image _ ⟨delta, hdelta, entry, hentry, new, rfl, hlength, hall⟩
    refine ⟨entry :: new, by simp, by simp [hlength], fun hfits before => ?_⟩
    have hread := hentry (hfits entry List.mem_cons_self)
    have hrest := hall (fun e he => hfits e (List.mem_cons_of_mem _ he))
      (⟨offset, layout⟩ :: before)
    rw [List.flatMap_cons]
    refine hread.bind ?_
    simp only [Layout.expand?_entryAfter, Layout.delta_entryAfter,
      nextOffset_frameDelta hdelta]
    rw [List.reverse_cons, List.append_assoc] at hrest
    exact hrest

end JvmClass
