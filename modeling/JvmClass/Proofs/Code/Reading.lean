import JvmClass.Assembly.Body
import JvmClass.Code.Instruction
import JvmClass.Proofs.Cursor

/-!
# Instructions read back

For each form in which an instruction is written, the bytes of the form read as the instruction,
with short forms expanded. Most forms read alike wherever they stand; the distances of jumps count
from the start of the instruction, and the padding of a switch depends on where that is
(`Scan.ReadsAt`).
-/

namespace JvmClass

open Scan (Reads ReadsAt)

theorem BaseType.arrayCode_of {code : UInt8} {t : BaseType} (h : ofArrayCode? code = some t) :
    t.arrayCode = code := by
  unfold ofArrayCode? at h
  grind [arrayCode]

/-- A jump distance as it is stored in sixteen bits. -/
def distance16 (source place : Nat) : List UInt8 :=
  bytes16 (Int16.ofInt ((place : Int) - source)).toUInt16

/-- A jump distance as it is stored in thirty-two bits. -/
def distance32 (source place : Nat) : List UInt8 :=
  bytes32 (Int32.ofInt ((place : Int) - source)).toUInt32

@[simp] theorem length_distance16 (source place : Nat) : (distance16 source place).length = 2 := rfl

@[simp] theorem length_distance32 (source place : Nat) : (distance32 source place).length = 4 := rfl

/-- Distances that fit in sixteen bits. -/
def Near (source place : Nat) : Prop :=
  -32768 ≤ (place : Int) - source ∧ (place : Int) - source ≤ 32767

theorem Fixup.bytes_wide {fixup : Fixup} (hw : fixup.wide = true) (place : Nat) :
    fixup.bytes place = .ok (distance32 fixup.source place) := by
  unfold Fixup.bytes
  rw [if_pos hw]
  rfl

theorem Fixup.bytes_short {fixup : Fixup} {place : Nat} {bytes : List UInt8}
    (hw : fixup.wide = false) (h : fixup.bytes place = .ok bytes) :
    Near fixup.source place ∧ bytes = distance16 fixup.source place := by
  unfold Fixup.bytes at h
  rw [if_neg (by simp [hw])] at h
  split at h
  · rename_i hd
    cases h
    simp only [Bool.and_eq_true, decide_eq_true_eq] at hd
    exact ⟨hd, rfl⟩
  · cases h

namespace Instruction

open Opcode

variable {op : UInt8} {o : Nat}

/-- An instruction is its code and what its operands read as. -/
theorem readsAt_read {operands : List UInt8} {i : Instruction Nat}
    (h : ReadsAt (o + 1) (readOperands o op) operands i) :
    ReadsAt o read (op :: operands) (o, i) := by
  intro data hs
  have hop := Scan.reads_u8 op o data (hs.left (a := [op]))
  have hoperands := h data (hs.right (a := [op]))
  refine Step.bind_ok.2 ⟨_, _, Step.get_ok.2 ⟨rfl, rfl⟩, Step.bind_ok.2 ⟨op, _, hop, ?_⟩⟩
  refine Step.bind_ok.2 ⟨i, _, hoperands, Step.pure_ok.2 ⟨rfl, ?_⟩⟩
  simp only [List.length_cons]
  congr 1
  omega

theorem target_distance {place : Nat} (h : place < 65536) :
    target o ((place : Int) - o) = .ok place := by
  unfold target
  have hplace : (o : Int) + ((place : Int) - o) = place := by omega
  simp only [hplace]
  rw [if_pos (by simp; omega)]
  rfl

theorem reads_readTarget16 {place : Nat} (hnear : Near o place) (h : place < 65536) :
    Reads (readTarget16 o) (distance16 o place) place := by
  refine ((Scan.reads_i16 _).bind ?_).cast (List.append_nil _)
  rw [Int16.toInt_ofInt_of_le hnear.1 (by have := hnear.2; omega), target_distance h]
  exact Scan.reads_of place

theorem reads_readTarget32 {place : Nat} (ho : o < 65536) (h : place < 65536) :
    Reads (readTarget32 o) (distance32 o place) place := by
  refine ((Scan.reads_i32 _).bind ?_).cast (List.append_nil _)
  rw [Int32.toInt_ofInt_of_le (by omega) (by omega), target_distance h]
  exact Scan.reads_of place

/-- An instruction without operands, where a short load or store is its long form. -/
def plainForm {P : Type} (op : UInt8) : Instruction P :=
  if within iload_0 op aload_3 then
    .access (iload + (op - iload_0) / 4) ((op - iload_0) % 4).toUInt16
  else if within istore_0 op astore_3 then
    .access (istore + (op - istore_0) / 4) ((op - istore_0) % 4).toUInt16
  else .plain op

/-- Codes that are instructions on their own. -/
def standsAlone (op : UInt8) : Bool :=
  isPlain op || within iload_0 op aload_3 || within istore_0 op astore_3

theorem readOperands_standsAlone (h : standsAlone op = true) :
    readOperands o op = pure (plainForm op) := by
  have hgroups : ∀ op, standsAlone op = true →
      (isPlain op = true → within iload_0 op aload_3 = false ∧
        within istore_0 op astore_3 = false) ∧
      (isPlain op = false → op ≠ bipush ∧ op ≠ sipush ∧ op ≠ newarray ∧ op ≠ ldc ∧ op ≠ ldc_w ∧
        op ≠ ldc2_w ∧ (isLoad op || isStore op || op = ret) = false ∧
        (within iload_0 op aload_3 || within istore_0 op astore_3) = true) :=
    forall_of_fin (by decide +kernel)
  obtain ⟨hplain, hshort⟩ := hgroups op h
  unfold plainForm
  cases hp : isPlain op with
  | true =>
    obtain ⟨h1, h2⟩ := hplain hp
    simp only [readOperands, hp, h1, h2, if_true, Bool.false_eq_true, if_false]
  | false =>
    obtain ⟨h1, h2, h3, h4, h5, h6, h7, h8⟩ := hshort hp
    unfold readOperands
    rw [if_neg (by simp [hp]), if_neg h1, if_neg h2, if_neg h3, if_neg h4,
      if_neg (by simp [h5, h6]), if_neg (by simp [h7])]
    cases hload : within iload_0 op aload_3 with
    | true => rfl
    | false =>
      rw [hload, Bool.false_or] at h8
      simp only [h8, Bool.false_eq_true, if_false, if_true]

theorem reads_standsAlone (h : standsAlone op = true) : ReadsAt o read [op] (o, plainForm op) := by
  refine readsAt_read ?_
  rw [readOperands_standsAlone h]
  exact Scan.readsAt_pure _

theorem reads_bipush {n : Int32} (h : -128 ≤ n.toInt) (h' : n.toInt ≤ 127) :
    ReadsAt o read [bipush, n.toInt8.toUInt8] (o, .intOperand bipush n) := by
  have hback : n.toInt8.toInt32 = n := by
    apply Int32.toInt_inj.1
    rw [Int8.toInt_toInt32, Int32.toInt_toInt8, Int.bmod_eq_of_le (by omega) (by omega)]
  refine readsAt_read ?_
  have hread := (Scan.reads_i8 n.toInt8).map (f := fun k => intOperand (P := Nat) bipush k.toInt32)
  rw [hback] at hread
  exact hread (o + 1)

theorem reads_sipush {n : Int32} (h : -32768 ≤ n.toInt) (h' : n.toInt ≤ 32767) :
    ReadsAt o read (sipush :: bytes16 n.toInt16.toUInt16) (o, .intOperand sipush n) := by
  have hback : n.toInt16.toInt32 = n := by
    apply Int32.toInt_inj.1
    rw [Int16.toInt_toInt32, Int32.toInt_toInt16, Int.bmod_eq_of_le (by omega) (by omega)]
  refine readsAt_read ?_
  have hread := (Scan.reads_i16 n.toInt16).map
    (f := fun k => intOperand (P := Nat) sipush k.toInt32)
  rw [hback] at hread
  exact hread (o + 1)

theorem reads_newarray {n : Int32} {element : BaseType} (h : 0 ≤ n.toInt) (h' : n.toInt ≤ 255)
    (he : BaseType.ofArrayCode? (UInt8.ofNat n.toInt.toNat) = some element) :
    ReadsAt o read [newarray, element.arrayCode] (o, .intOperand newarray n) := by
  have hback : Int32.ofNat element.arrayCode.toNat = n := by
    rw [BaseType.arrayCode_of he]
    apply Int32.toInt_inj.1
    rw [UInt8.toNat_ofNat_of_lt' (by simp only [UInt8.size]; omega),
      Int32.toInt_ofNat_of_lt (by omega)]
    omega
  refine readsAt_read ?_
  have hread := (Scan.reads_u8 element.arrayCode).map
    (f := fun k => intOperand (P := Nat) newarray (Int32.ofNat k.toNat))
  rw [hback] at hread
  exact hread (o + 1)

/-- Loads and stores in their long form, and returns from a subroutine. -/
def isAccess (op : UInt8) : Bool := isLoad op || isStore op || op == ret

theorem readOperands_access (h : isAccess op = true) :
    readOperands o op = do return .access op (← Scan.u8).toUInt16 := by
  have hgroups : ∀ op, isAccess op = true →
      isPlain op = false ∧ op ≠ bipush ∧ op ≠ sipush ∧ op ≠ newarray ∧ op ≠ ldc ∧ op ≠ ldc_w ∧
        op ≠ ldc2_w ∧ (isLoad op || isStore op || op = ret) = true :=
    forall_of_fin (by decide +kernel)
  obtain ⟨h1, h2, h3, h4, h5, h6, h7, h8⟩ := hgroups op h
  simp only [readOperands, h1, h2, h3, h4, h5, h6, h7, h8, Bool.false_eq_true, if_false,
    decide_false, Bool.or_self, if_true]

/-- The one-byte form of a load or store stands for it. -/
theorem plainForm_shortAccess (h : isAccess op = true) (hret : op ≠ ret) {slot : UInt16}
    (hslot : slot < 4) :
    standsAlone (MethodBuilder.shortAccess op slot) = true ∧
      plainForm (P := Nat) (MethodBuilder.shortAccess op slot) = .access op slot := by
  have hall : ∀ op, isAccess op = true → op ≠ ret → ∀ slot : Fin 4,
      standsAlone (MethodBuilder.shortAccess op (UInt16.ofNat slot)) = true ∧
        plainForm (P := Nat) (MethodBuilder.shortAccess op (UInt16.ofNat slot)) =
          .access op (UInt16.ofNat slot) := forall_of_fin (by decide +kernel)
  have hlt : slot.toNat < 4 := hslot
  have hfin := hall op h hret ⟨slot.toNat, hlt⟩
  simpa using hfin

theorem toUInt16_toUInt8 {n : UInt16} (h : n < 256) : n.toUInt8.toUInt16 = n := by
  have hlt : n.toNat < 256 := h
  apply UInt16.toNat_inj.1
  rw [UInt8.toNat_toUInt16, UInt16.toNat_toUInt8]
  omega

theorem reads_access (h : isAccess op = true) (slot : UInt16) :
    ReadsAt o read (MethodBuilder.accessBytes op slot) (o, .access op slot) := by
  unfold MethodBuilder.accessBytes
  split
  · rename_i hshort
    simp only [ne_eq, Bool.and_eq_true, decide_eq_true_eq] at hshort
    obtain ⟨halone, hform⟩ := plainForm_shortAccess h hshort.1 hshort.2
    rw [← hform]
    exact reads_standsAlone halone
  · split
    · rename_i hslot
      refine readsAt_read ?_
      rw [readOperands_access h]
      have hread := (Scan.reads_u8 slot.toUInt8).map
        (f := fun k => access (P := Nat) op k.toUInt16)
      rw [toUInt16_toUInt8 hslot] at hread
      exact hread (o + 1)
    · have hne : ∀ op, isAccess op = true → op ≠ iinc := forall_of_fin (by decide +kernel)
      have hgroup : (isLoad op || isStore op || op = ret) = true := by simpa [isAccess] using h
      have hwide : Reads (readWide o) (op :: bytes16 slot) (.access op slot) := by
        refine (Scan.reads_u8 op).bind ?_
        rw [if_neg (hne op h), if_pos hgroup]
        exact (Scan.reads_u16 slot).map
      exact readsAt_read (hwide (o + 1))

theorem reads_load (isWide : Bool) (index : PoolIndex) :
    ReadsAt o read (MethodBuilder.loadBytes isWide index) (o, .load index) := by
  unfold MethodBuilder.loadBytes
  split
  · exact readsAt_read ((Scan.reads_u16 index).map (f := load (P := Nat)) (o + 1))
  · split
    · rename_i hindex
      have hread := (Scan.reads_u8 index.toUInt8).map (f := fun k => load (P := Nat) k.toUInt16)
      rw [toUInt16_toUInt8 hindex] at hread
      exact readsAt_read (hread (o + 1))
    · exact readsAt_read ((Scan.reads_u16 index).map (f := load (P := Nat)) (o + 1))

theorem reads_increment (slot : UInt16) (amount : Int16) :
    ReadsAt o read (MethodBuilder.incrementBytes slot amount) (o, .increment slot amount) := by
  unfold MethodBuilder.incrementBytes
  split
  · have hwide : Reads (readWide o) (iinc :: (bytes16 slot ++ bytes16 amount.toUInt16))
        (.increment slot amount) :=
      (Scan.reads_u8 iinc).bind ((Scan.reads_u16 slot).bind (Scan.reads_i16 amount).map)
    exact readsAt_read (hwide (o + 1))
  · rename_i hshort
    simp only [Bool.or_eq_true, decide_eq_true_eq, not_or] at hshort
    obtain ⟨⟨hslot, hlow⟩, hhigh⟩ := hshort
    have hslot' : slot.toNat ≤ 255 := UInt16.le_iff_toNat_le.1 (UInt16.not_lt.1 hslot)
    have hlow' : -128 ≤ amount.toInt := Int16.le_iff_toInt_le.1 (Int16.not_lt.1 hlow)
    have hhigh' : amount.toInt ≤ 127 := Int16.le_iff_toInt_le.1 (Int16.not_lt.1 hhigh)
    have hback : amount.toInt8.toInt16 = amount := by
      apply Int16.toInt_inj.1
      rw [Int8.toInt_toInt16, Int16.toInt_toInt8, Int.bmod_eq_of_le (by omega) (by omega)]
    have hread := (Scan.reads_u8 slot.toUInt8).bind
      (k := fun s => do return increment (P := Nat) s.toUInt16 (← Scan.i8).toInt16)
      (Scan.reads_i8 amount.toInt8).map
    rw [hback, toUInt16_toUInt8 (UInt16.lt_iff_toNat_lt.2 (Nat.lt_succ_of_le hslot'))] at hread
    exact readsAt_read (hread (o + 1))

/-- Codes of instructions that name a type. -/
def isTypeOperand (op : UInt8) : Bool :=
  op == new || op == anewarray || op == checkcast || op == instanceof

theorem reads_typeOperand (h : isTypeOperand op = true) (cls : UInt16) :
    ReadsAt o read (op :: bytes16 cls) (o, .typeOperand op cls) := by
  have hcodes : ∀ op, isTypeOperand op = true →
      op = new ∨ op = anewarray ∨ op = checkcast ∨ op = instanceof :=
    forall_of_fin (by decide +kernel)
  rcases hcodes op h with rfl | rfl | rfl | rfl <;>
    exact readsAt_read ((Scan.reads_u16 cls).map (f := typeOperand (P := Nat) _) (o + 1))

theorem reads_field (h : within getstatic op putfield = true) (member : UInt16) :
    ReadsAt o read (op :: bytes16 member) (o, .field op member) := by
  have hcodes : ∀ op, within getstatic op putfield = true →
      op = getstatic ∨ op = putstatic ∨ op = getfield ∨ op = putfield :=
    forall_of_fin (by decide +kernel)
  rcases hcodes op h with rfl | rfl | rfl | rfl <;>
    exact readsAt_read ((Scan.reads_u16 member).map (f := field (P := Nat) _) (o + 1))

theorem reads_method (h : within invokevirtual op invokestatic = true) (member : UInt16) :
    ReadsAt o read (op :: bytes16 member) (o, .method op member) := by
  have hcodes : ∀ op, within invokevirtual op invokestatic = true →
      op = invokevirtual ∨ op = invokespecial ∨ op = invokestatic :=
    forall_of_fin (by decide +kernel)
  rcases hcodes op h with rfl | rfl | rfl <;>
    exact readsAt_read ((Scan.reads_u16 member).map (f := method (P := Nat) _) (o + 1))

theorem reads_invokeinterface (member : UInt16) (slots : UInt8) :
    ReadsAt o read (invokeinterface :: (bytes16 member ++ [slots, 0]))
      (o, .method invokeinterface member) :=
  readsAt_read (((Scan.reads_u16 member).bind ((Scan.reads_skip [slots, 0]).map
    (f := fun _ => method (P := Nat) invokeinterface member))) (o + 1))

theorem reads_invokeDynamic (site : UInt16) :
    ReadsAt o read (invokedynamic :: (bytes16 site ++ bytes16 0)) (o, .invokeDynamic site) :=
  readsAt_read (((Scan.reads_u16 site).bind ((Scan.reads_skip (bytes16 0)).map
    (f := fun _ => invokeDynamic (P := Nat) site))) (o + 1))

theorem reads_newMultiArray (cls : UInt16) (dimensions : UInt8) :
    ReadsAt o read (multianewarray :: (bytes16 cls ++ [dimensions]))
      (o, .newMultiArray cls dimensions) :=
  readsAt_read (((Scan.reads_u16 cls).bind ((Scan.reads_u8 dimensions).map
    (f := newMultiArray (P := Nat) cls))) (o + 1))

/-- Jumps that store their distance in sixteen bits. -/
def isShortJump (op : UInt8) : Bool := within ifeq op jsr || op == ifnull || op == ifnonnull

theorem readOperands_shortJump (h : isShortJump op = true) :
    readOperands o op = do return .jump op (← readTarget16 o) := by
  have hgroups : ∀ op, isShortJump op = true →
      isPlain op = false ∧ op ≠ bipush ∧ op ≠ sipush ∧ op ≠ newarray ∧ op ≠ ldc ∧ op ≠ ldc_w ∧
        op ≠ ldc2_w ∧ (isLoad op || isStore op || op = ret) = false ∧
        within iload_0 op aload_3 = false ∧ within istore_0 op astore_3 = false ∧ op ≠ iinc ∧
        (within ifeq op jsr || op = ifnull || op = ifnonnull) = true :=
    forall_of_fin (by decide +kernel)
  obtain ⟨h1, h2, h3, h4, h5, h6, h7, h8, h9, h10, h11, h12⟩ := hgroups op h
  simp only [readOperands, h1, h2, h3, h4, h5, h6, h7, h8, h9, h10, h11, h12, Bool.false_eq_true,
    if_false, decide_false, Bool.or_self, if_true]

theorem reads_shortJump (h : isShortJump op = true) {place : Nat} (hnear : Near o place)
    (hplace : place < 65536) :
    ReadsAt o read (op :: distance16 o place) (o, .jump op place) := by
  refine readsAt_read ?_
  rw [readOperands_shortJump h]
  exact (reads_readTarget16 hnear hplace).map (o + 1)

theorem reads_wideJump (h : op = goto_w ∨ op = jsr_w) {place : Nat} (ho : o < 65536)
    (hplace : place < 65536) :
    ReadsAt o read (op :: distance32 o place) (o, .jump op place) := by
  rcases h with rfl | rfl <;>
    exact readsAt_read ((reads_readTarget32 ho hplace).map (f := jump (P := Nat) _) (o + 1))

/-- The zeros before the operands of a switch whose code stands at an offset. -/
def padding (o : Nat) : List UInt8 := List.replicate ((4 - (o + 1) % 4) % 4) 0

theorem readsAt_skipPadding : ReadsAt (o + 1) skipPadding (padding o) () := by
  intro data hs
  have hskip := Scan.reads_skip (padding o) (o + 1) data hs
  rw [padding, List.length_replicate] at hskip
  exact Step.bind_ok.2 ⟨_, _, Step.get_ok.2 ⟨rfl, rfl⟩, by rw [hskip, padding, List.length_replicate]⟩

/-- The check of a switch passes if its entries are there. -/
theorem readsAt_checkSwitch {α : Type} {k : Unit → Scan α} {bytes : List UInt8} {a : α}
    {start count size : Nat} (hsize : count * size ≤ bytes.length)
    (h : ReadsAt start (k ()) bytes a) :
    ReadsAt start (checkSwitch o count size >>= k) bytes a := by
  intro data hs
  refine Step.bind_ok.2 ⟨(), ⟨data, start⟩, ?_, h data hs⟩
  have hle := hs.size_le
  refine Step.bind_ok.2 ⟨_, _, Step.get_ok.2 ⟨rfl, rfl⟩, ?_⟩
  rw [if_neg]
  · rfl
  · simp only [Cursor.remaining]
    omega

theorem reads_tableSwitch {low high : Int32} {fallback : Nat} {targets : List Nat}
    (hcount : high.toInt - low.toInt + 1 = targets.length) (ho : o < 65536)
    (hfallback : fallback < 65536) (htargets : ∀ place ∈ targets, place < 65536) :
    ReadsAt o read (tableswitch :: (padding o ++ (distance32 o fallback ++
        (bytes32 low.toUInt32 ++ (bytes32 high.toUInt32 ++ targets.flatMap (distance32 o))))))
      (o, .tableSwitch low high fallback targets) := by
  have hread := Scan.reads_times (Scan.forall₂_encode (f := id) targets fun place hp =>
    reads_readTarget32 ho (htargets place hp))
  rw [List.map_id] at hread
  have hlength : (targets.flatMap (distance32 o)).length = 4 * targets.length :=
    Put.length_flatMap_const targets fun _ => rfl
  rw [Nat.mul_comm] at hlength
  refine readsAt_read (readsAt_skipPadding.bind ?_)
  refine ((reads_readTarget32 ho hfallback) _).bind ?_
  refine (Scan.reads_i32 low _).bind ((Scan.reads_i32 high _).bind ?_)
  simp only [hcount]
  rw [if_neg (by omega)]
  exact readsAt_checkSwitch (Nat.le_of_eq hlength.symm) (hread.map _)

/-- A key of a switch and the distance to its target. -/
def caseBytes (o : Nat) (case : Int32 × Nat) : List UInt8 :=
  bytes32 case.1.toUInt32 ++ distance32 o case.2

theorem reads_lookupSwitch {fallback : Nat} {keys : List Int32} {targets : List Nat}
    (hcount : keys.length = targets.length) (hkeys : keys.length < 65536) (ho : o < 65536)
    (hfallback : fallback < 65536) (htargets : ∀ place ∈ targets, place < 65536) :
    ReadsAt o read (lookupswitch :: (padding o ++ (distance32 o fallback ++
        (bytes32 (UInt32.ofNat keys.length) ++ (keys.zip targets).flatMap (caseBytes o)))))
      (o, .lookupSwitch fallback keys targets) := by
  have hcase : ∀ case ∈ keys.zip targets, Scan.Reads
      (do let key ← Scan.i32; return (key, ← readTarget32 o)) (caseBytes o case) (id case) :=
    fun case hmem => (Scan.reads_i32 case.1).bind
      (reads_readTarget32 ho (htargets case.2 (List.of_mem_zip hmem).2)).map
  have hread := Scan.reads_times (Scan.forall₂_encode (keys.zip targets) hcase)
  rw [List.map_id, List.length_zip, ← hcount, Nat.min_self] at hread
  have hlength : ((keys.zip targets).flatMap (caseBytes o)).length = 8 * (keys.zip targets).length :=
    Put.length_flatMap_const _ fun _ => rfl
  rw [List.length_zip, ← hcount, Nat.min_self, Nat.mul_comm] at hlength
  have hback : (UInt32.ofNat keys.length).toInt32.toInt.toNat = keys.length := by
    rw [UInt32.toInt32_ofNat', Int32.toInt_ofNat_of_lt (by omega)]
    rfl
  have hentries := hread.map (f := fun entries =>
    lookupSwitch (P := Nat) fallback (entries.map Prod.fst) (entries.map Prod.snd))
  rw [List.map_fst_zip (Nat.le_of_eq hcount), List.map_snd_zip (Nat.le_of_eq hcount.symm)]
    at hentries
  refine readsAt_read (readsAt_skipPadding.bind ?_)
  refine ((reads_readTarget32 ho hfallback) _).bind ?_
  refine ((Scan.reads_u32 _).map (f := UInt32.toInt32) _).bind ?_
  simp only [hback]
  exact readsAt_checkSwitch (Nat.le_of_eq hlength.symm) (hentries _)

end Instruction

end JvmClass
