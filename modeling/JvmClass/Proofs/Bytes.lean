import JvmClass.Bytes
import JvmClass.Proofs.Steps

/-!
# Numbers as bytes, and outputs

The bytes of a number join to the number again. Appending to an output is appending to its list of
bytes, and writing a structure succeeds exactly if the structure fits its counts, in which case it
appends the bytes of the structure (`Put.Writes`).
-/

namespace JvmClass

/-- What holds of every instruction code is decided by going through all of them. -/
theorem Opcode.forall_of_fin {p : UInt8 → Prop} (h : ∀ n : Fin 256, p (UInt8.ofFin n))
    (op : UInt8) : p op := by
  have := h op.toFin
  rwa [UInt8.ofFin_toFin] at this

theorem toNat_join16 (a b : UInt8) : (join16 a b).toNat = a.toNat * 256 + b.toNat := by
  have ha := a.toNat_lt
  have hb := b.toNat_lt
  have hor := Nat.shiftLeft_add_eq_or_of_lt (show b.toNat < 2 ^ 8 from hb) a.toNat
  simp only [join16, UInt16.toNat_or, UInt16.toNat_shiftLeft, UInt8.toNat_toUInt16,
    Nat.shiftLeft_eq] at hor ⊢
  rw [Nat.mod_eq_of_lt (by simp; omega)]
  simp at hor ⊢
  omega

theorem toNat_join32 (a b c d : UInt8) :
    (join32 a b c d).toNat = (join16 a b).toNat * 65536 + (join16 c d).toNat := by
  have ha := (join16 a b).toNat_lt
  have hb := (join16 c d).toNat_lt
  have hor := Nat.shiftLeft_add_eq_or_of_lt (show (join16 c d).toNat < 2 ^ 16 from hb)
    (join16 a b).toNat
  simp only [join32, UInt32.toNat_or, UInt32.toNat_shiftLeft, UInt16.toNat_toUInt32,
    Nat.shiftLeft_eq] at hor ⊢
  rw [Nat.mod_eq_of_lt (by simp; omega)]
  simp at hor ⊢
  omega

theorem toNat_join64 (high low : UInt32) :
    (join64 high low).toNat = high.toNat * 4294967296 + low.toNat := by
  have ha := high.toNat_lt
  have hb := low.toNat_lt
  have hor := Nat.shiftLeft_add_eq_or_of_lt (show low.toNat < 2 ^ 32 from hb) high.toNat
  simp only [join64, UInt64.toNat_or, UInt64.toNat_shiftLeft, UInt32.toNat_toUInt64,
    Nat.shiftLeft_eq] at hor ⊢
  rw [Nat.mod_eq_of_lt (by simp; omega)]
  simp at hor ⊢
  omega

theorem join16_bytes (n : UInt16) : join16 (n >>> 8).toUInt8 n.toUInt8 = n := by
  apply UInt16.toNat_inj.1
  rw [toNat_join16]
  have := n.toNat_lt
  simp [Nat.shiftRight_eq_div_pow]
  omega

theorem join32_bytes (n : UInt32) :
    join32 (n >>> 24).toUInt8 (n >>> 16).toUInt8 (n >>> 8).toUInt8 n.toUInt8 = n := by
  apply UInt32.toNat_inj.1
  rw [toNat_join32, toNat_join16, toNat_join16]
  have := n.toNat_lt
  simp [Nat.shiftRight_eq_div_pow]
  omega

theorem join64_bytes (n : UInt64) :
    join64
      (join32 (n >>> 56).toUInt8 (n >>> 48).toUInt8 (n >>> 40).toUInt8 (n >>> 32).toUInt8)
      (join32 (n >>> 24).toUInt8 (n >>> 16).toUInt8 (n >>> 8).toUInt8 n.toUInt8) = n := by
  apply UInt64.toNat_inj.1
  simp only [toNat_join64, toNat_join32, toNat_join16]
  have := n.toNat_lt
  simp [Nat.shiftRight_eq_div_pow]
  omega

@[simp] theorem length_bytes16 (n : UInt16) : (bytes16 n).length = 2 := rfl

@[simp] theorem length_bytes32 (n : UInt32) : (bytes32 n).length = 4 := rfl

@[simp] theorem length_bytes64 (n : UInt64) : (bytes64 n).length = 8 := rfl

namespace Bytes

@[simp] theorem toList_putAll (out : Bytes) (bytes : List UInt8) :
    (out.putAll bytes).toList = out.toList ++ bytes := Array.toList_appendList

theorem putAll_eq (out : Bytes) (bytes : List UInt8) : out.putAll bytes = out ++ bytes.toArray := by
  apply Array.toList_inj.1
  rw [toList_putAll, Array.toList_append]

@[simp] theorem putAll_nil (out : Bytes) : out.putAll [] = out := rfl

theorem putAll_append (out : Bytes) (a b : List UInt8) :
    out.putAll (a ++ b) = (out.putAll a).putAll b := List.foldl_append

theorem putAll_cons (out : Bytes) (a : UInt8) (rest : List UInt8) :
    out.putAll (a :: rest) = (out.putU8 a).putAll rest := rfl

theorem append_eq_putAll (out other : Bytes) : out ++ other = out.putAll other.toList := by
  rw [putAll_eq, Array.toArray_toList]

@[simp] theorem size_putAll (out : Bytes) (bytes : List UInt8) :
    (out.putAll bytes).size = out.size + bytes.length := by
  rw [← Array.length_toList, toList_putAll, List.length_append, Array.length_toList]

@[simp] theorem size_putU8 (out : Bytes) (n : UInt8) : (out.putU8 n).size = out.size + 1 :=
  Array.size_push n

@[simp] theorem size_putU16 (out : Bytes) (n : UInt16) : (out.putU16 n).size = out.size + 2 :=
  size_putAll out (bytes16 n)

@[simp] theorem size_putU32 (out : Bytes) (n : UInt32) : (out.putU32 n).size = out.size + 4 :=
  size_putAll out (bytes32 n)

@[simp] theorem size_overwrite (out : Bytes) (offset : Nat) (bytes : List UInt8) :
    (out.overwrite offset bytes).size = out.size := by
  induction bytes generalizing out offset with
  | nil => rfl
  | cons b rest ih => exact (ih _ _).trans Array.size_setIfInBounds

/-- Bytes that are replaced by as many others. -/
theorem toList_overwrite {out : Bytes} {front hole back bytes : List UInt8}
    (h : out.toList = front ++ hole ++ back) (hlength : hole.length = bytes.length) :
    (out.overwrite front.length bytes).toList = front ++ bytes ++ back := by
  induction bytes generalizing out front hole with
  | nil =>
    rw [List.eq_nil_of_length_eq_zero hlength] at h
    exact h
  | cons b rest ih =>
    cases hole with
    | nil => cases hlength
    | cons c hole =>
      have hset : (out.setIfInBounds front.length b).toList = (front ++ [b]) ++ hole ++ back := by
        rw [Array.toList_setIfInBounds, h]
        simp
      have hrest := ih hset (Nat.succ.inj hlength)
      rw [List.length_append, List.length_singleton] at hrest
      rw [overwrite, hrest]
      simp

/-- Bytes that are replaced lie where the others begin, and as far as they go. -/
theorem getElem?_overwrite {out : Bytes} {offset : Nat} {bytes : List UInt8}
    (h : offset + bytes.length ≤ out.size) (i : Nat) : (out.overwrite offset bytes)[i]? =
      if offset ≤ i ∧ i < offset + bytes.length then bytes[i - offset]? else out[i]? := by
  induction bytes generalizing out offset with
  | nil =>
    rw [List.length_nil, if_neg (by omega)]
    rfl
  | cons b rest ih =>
    rw [List.length_cons] at h ⊢
    rw [overwrite, ih (by rw [Array.size_setIfInBounds]; omega), Array.getElem?_setIfInBounds]
    by_cases he : i = offset
    · subst he
      rw [if_neg (by omega), if_pos rfl, if_pos (by omega), if_pos (by omega), Nat.sub_self]
      rfl
    · rw [if_neg (Ne.symm he)]
      by_cases hi : offset + 1 ≤ i ∧ i < offset + 1 + rest.length
      · rw [if_pos hi, if_pos (by omega), show i - offset = i - (offset + 1) + 1 by omega,
          List.getElem?_cons_succ]
      · rw [if_neg hi, if_neg (by omega)]

end Bytes

namespace Put

/-- The structure is written exactly if it fits, and what is written are the given bytes. -/
def Writes (put : Put Unit) (fits : Prop) (bytes : List UInt8) : Prop :=
  ∀ out u out', put out = .ok u out' ↔ fits ∧ out' = out.putAll bytes

theorem writes_pure : Writes (pure ()) True [] := by
  intro out u out'
  rw [Step.pure_ok]
  simp [eq_comm]

theorem writes_u8 (n : UInt8) : Writes (u8 n) True [n] := by
  intro out u out'
  unfold u8
  rw [Step.modify_ok]
  simp [Bytes.putAll_cons]

theorem writes_all (bytes : List UInt8) : Writes (all bytes) True bytes := by
  intro out u out'
  unfold all
  rw [Step.modify_ok]
  simp

theorem writes_u16 (n : UInt16) : Writes (u16 n) True (bytes16 n) := writes_all (bytes16 n)

theorem writes_u32 (n : UInt32) : Writes (u32 n) True (bytes32 n) := writes_all (bytes32 n)

theorem writes_bytes (other : Bytes) : Writes (bytes other) True other.toList := by
  intro out u out'
  unfold bytes
  rw [Step.modify_ok, Bytes.append_eq_putAll]
  simp

namespace Writes

variable {put put' : Put Unit} {fits fits' : Prop} {a b : List UInt8}

/-- Structures that are written one after another. -/
theorem andThen (h : Writes put fits a) (h' : Writes put' fits' b) :
    Writes (do put; put') (fits ∧ fits') (a ++ b) := by
  intro out u out'
  rw [Step.bind_ok]
  constructor
  · rintro ⟨_, mid, h1, h2⟩
    obtain ⟨hf, rfl⟩ := (h _ _ _).1 h1
    obtain ⟨hf', rfl⟩ := (h' _ _ _).1 h2
    exact ⟨⟨hf, hf'⟩, (Bytes.putAll_append out a b).symm⟩
  · rintro ⟨⟨hf, hf'⟩, rfl⟩
    refine ⟨(), out.putAll a, (h _ _ _).2 ⟨hf, rfl⟩, (h' _ _ _).2 ⟨hf', ?_⟩⟩
    exact Bytes.putAll_append out a b

theorem cast (h : Writes put fits a) (hfits : fits ↔ fits') (hbytes : a = b) :
    Writes put fits' b := by
  intro out u out'
  rw [h, hfits, hbytes]

end Writes

/-- A structure that is written under a condition, and refused otherwise. -/
theorem writes_if {c : Prop} [Decidable c] {put : Put Unit} {fits : Prop} {a : List UInt8}
    {fault : StoreFault} (h : Writes put fits a) :
    Writes (if c then put else throw fault) (c ∧ fits) a := by
  intro out u out'
  split
  · rename_i hc
    rw [h]
    simp [hc]
  · rename_i hc
    rw [Step.throw_ok]
    simp [hc]

variable {α : Type} {put : α → Put Unit} {fits : α → Prop} {encode : α → List UInt8}

theorem writes_each (h : ∀ a, Writes (put a) (fits a) (encode a)) (items : List α) :
    Writes (each put items) (∀ a ∈ items, fits a) (items.flatMap encode) := by
  induction items with
  | nil => exact writes_pure.cast (by simp) rfl
  | cons a rest ih => exact ((h a).andThen ih).cast (by simp) rfl

/-- The bytes of a counted list. -/
def countedBytes (encode : α → List UInt8) (items : List α) : List UInt8 :=
  bytes16 (UInt16.ofNat items.length) ++ items.flatMap encode

theorem writes_counted (h : ∀ a, Writes (put a) (fits a) (encode a)) (items : List α) :
    Writes (counted put items) (items.length < 65536 ∧ ∀ a ∈ items, fits a)
      (countedBytes encode items) :=
  (writes_if ((writes_u16 _).andThen (writes_each h items))).cast (by simp) rfl

/-- The number of bytes of a list whose items have sizes. -/
theorem length_flatMap {size : α → Nat} (items : List α)
    (h : ∀ a ∈ items, (encode a).length = size a) :
    (items.flatMap encode).length = total size items := by
  induction items with
  | nil => rfl
  | cons a rest ih =>
    have hrest := ih fun x hx => h x (List.mem_cons_of_mem a hx)
    rw [List.flatMap_cons, List.length_append, hrest, total_cons, h a List.mem_cons_self]

/-- The number of bytes of a list whose items have one size. -/
theorem length_flatMap_const {n : Nat} (items : List α) (h : ∀ a, (encode a).length = n) :
    (items.flatMap encode).length = n * items.length := by
  induction items with
  | nil => rfl
  | cons a rest ih =>
    rw [List.flatMap_cons, List.length_append, h, ih, List.length_cons, Nat.mul_succ]
    omega

end Put

end JvmClass
