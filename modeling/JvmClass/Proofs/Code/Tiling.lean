import JvmClass.Proofs.Code.Sequence

/-!
# Instructions tile their code

Every read of an instruction takes bytes from the place where it starts, which it would take there
in any code (`Scan.Anchored`). Decoding therefore takes a code array apart into the bytes of its
instructions, one after another from its start to its end, and the entries of every switch stand
among the bytes of the switch (`Instruction.decode_tiles`).
-/

namespace JvmClass

namespace Scan

variable {α β : Type} {read : Scan α} {k : α → Scan β}

/-- What the read takes from a place on are bytes that it takes there for the same value in any
data. -/
def Anchored (read : Scan α) : Prop :=
  ∀ data start a c, start ≤ data.size → read ⟨data, start⟩ = .ok a c →
    ∃ bytes, c = ⟨data, start + bytes.length⟩ ∧ Spells data start bytes ∧
      ReadsAt start read bytes a

theorem Local.anchored (h : Local read) : Anchored read := by
  intro data start a c hstart hread
  obtain ⟨bytes, hc, hs, hr⟩ := h data start a c hstart hread
  exact ⟨bytes, hc, hs, hr start⟩

theorem local_of (x : Except ClassError α) : Local (Step.of x) := by
  cases x with
  | ok a => exact local_pure a
  | error e => exact local_throw e

theorem local_skip (n : Nat) : Local (skip n) := by
  rw [skip_eq_bytes]
  exact (local_bytes n).map

theorem Anchored.bind (h : Anchored read) (hk : ∀ a, Anchored (k a)) : Anchored (read >>= k) := by
  intro data start b c hstart hb
  obtain ⟨a, _, ha, hb⟩ := Step.bind_ok.1 hb
  obtain ⟨front, rfl, hs, hr⟩ := h data start a _ hstart ha
  obtain ⟨rest, rfl, hs', hr'⟩ := hk a data _ b c hs.size_le hb
  refine ⟨front ++ rest, ?_, hs.append hs', hr.bind hr'⟩
  rw [List.length_append, Nat.add_assoc]

theorem Anchored.map {f : α → β} (h : Anchored read) : Anchored (do return f (← read)) :=
  h.bind fun a => (local_pure (f a)).anchored

theorem anchored_ite {c : Prop} [Decidable c] {read' : Scan α} (h : Anchored read)
    (h' : Anchored read') : Anchored (if c then read else read') := by
  split
  · exact h
  · exact h'

/-- A read that looks at where it starts. -/
theorem anchored_offset {k : Nat → Scan α} (h : ∀ n, Anchored (k n)) :
    Anchored (get >>= fun c => k c.offset) := by
  intro data start a c hstart hread
  exact h start data start a c hstart hread

theorem Anchored.times (h : Anchored read) (n : Nat) : Anchored (times n read) := by
  have hfrom (done : List α) : Anchored (timesFrom read done n) := by
    induction n generalizing done with
    | zero => exact (local_pure done.reverse).anchored
    | succ n ih => exact h.bind fun a => ih (a :: done)
  exact hfrom []

end Scan

namespace Instruction

open Opcode
open Scan (Anchored Local ReadsAt)

variable {code : Bytes} {o start stop : Nat} {op : UInt8} {i : Instruction Nat} {c c' : Cursor}

theorem local_readTarget16 (o : Nat) : Local (readTarget16 o) :=
  Scan.local_u16.map.bind fun _ => Scan.local_of _

theorem local_readTarget32 (o : Nat) : Local (readTarget32 o) :=
  Scan.local_u32.map.bind fun _ => Scan.local_of _

theorem readTarget32_ok {place : Nat} (h : readTarget32 o c = .ok place c') :
    c' = ⟨c.data, c.offset + 4⟩ := by
  obtain ⟨distance, mid, hdistance, h⟩ := Step.bind_ok.1 h
  obtain ⟨-, rfl⟩ := Step.of_ok.1 h
  exact Scan.i32_ok hdistance

/-- Padding goes to the next multiple of four. -/
theorem skipPadding_ok {u : Unit} (h : skipPadding c = .ok u c') :
    ∃ p, c' = ⟨c.data, p⟩ ∧ p % 4 = 0 ∧ c.offset ≤ p ∧ p < c.offset + 4 := by
  obtain ⟨_, _, hget, h⟩ := Step.bind_ok.1 h
  obtain ⟨rfl, rfl⟩ := Step.get_ok.1 hget
  exact ⟨_, Scan.skip_ok h, by omega, by omega, by omega⟩

theorem anchored_skipPadding : Anchored skipPadding :=
  Scan.anchored_offset (k := fun offset => Scan.skip ((4 - offset % 4) % 4)) fun _ =>
    (Scan.local_skip _).anchored

theorem checkSwitch_ok {count size : Nat} {u : Unit} (h : checkSwitch o count size c = .ok u c') :
    c' = c := by
  obtain ⟨_, _, hget, h⟩ := Step.bind_ok.1 h
  obtain ⟨rfl, rfl⟩ := Step.get_ok.1 hget
  split at h
  · exact (Step.throw_ok.1 h).elim
  · exact (Step.pure_ok.1 h).2.symm

/-- The check of a switch looks at how much code is left, but what comes after it takes at least as
much as it checks. -/
theorem anchored_entries {α : Type} {entry : Scan α} {size count : Nat} {f : List α → Instruction Nat}
    (hentry : Anchored entry)
    (hsize : ∀ c a c', entry c = .ok a c' → c' = ⟨c.data, c.offset + size⟩) :
    Anchored (checkSwitch o count size >>= fun _ => do return f (← Scan.times count entry)) := by
  intro data start i c hstart h
  obtain ⟨_, _, hcheck, h⟩ := Step.bind_ok.1 h
  obtain rfl := checkSwitch_ok hcheck
  obtain ⟨bytes, hc, hs, hr⟩ := (hentry.times count).map data start i c hstart h
  obtain ⟨items, mid, htimes, h⟩ := Step.bind_ok.1 h
  obtain ⟨-, rfl⟩ := Step.pure_ok.1 h
  have hlength : start + count * size = start + bytes.length :=
    congrArg Cursor.offset ((Scan.times_ok hsize htimes).1.symm.trans hc)
  exact ⟨bytes, hc, hs, readsAt_checkSwitch (Nat.le_of_eq (Nat.add_left_cancel hlength)) hr⟩

/-- The operands of a switch over a range of keys, which stand at a multiple of four behind its
code. -/
structure TableAt (code : Bytes) (start stop p : Nat) (low high : Int32) (fallback : Nat)
    (targets : List Nat) : Prop where
  aligned : p % 4 = 0
  padded : start < p ∧ p ≤ start + 4
  readsFallback : readTarget32 start ⟨code, p⟩ = .ok fallback ⟨code, p + 4⟩
  readsLow : Scan.i32 ⟨code, p + 4⟩ = .ok low ⟨code, p + 8⟩
  readsHigh : Scan.i32 ⟨code, p + 8⟩ = .ok high ⟨code, p + 12⟩
  /-- There is a target for each number from the low one to the high one. -/
  count : (targets.length : Int) = high.toInt - low.toInt + 1
  readsTargets : ∀ (n : Nat) target, targets[n]? = some target →
    readTarget32 start ⟨code, p + 12 + n * 4⟩ = .ok target ⟨code, p + 12 + (n + 1) * 4⟩
  stops : stop = p + 12 + targets.length * 4

/-- The operands of a switch over a list of keys, which stand at a multiple of four behind its
code. -/
structure LookupAt (code : Bytes) (start stop p : Nat) (fallback : Nat) (keys : List Int32)
    (targets : List Nat) : Prop where
  aligned : p % 4 = 0
  padded : start < p ∧ p ≤ start + 4
  readsFallback : readTarget32 start ⟨code, p⟩ = .ok fallback ⟨code, p + 4⟩
  /-- There are as many keys as the code says, and none where it says less than none. -/
  readsCount : ∃ count : Int32, Scan.i32 ⟨code, p + 4⟩ = .ok count ⟨code, p + 8⟩ ∧
    keys.length = count.toInt.toNat
  /-- There is a target for each key. -/
  count : targets.length = keys.length
  readsKeys : ∀ (n : Nat) key, keys[n]? = some key →
    Scan.i32 ⟨code, p + 8 + n * 8⟩ = .ok key ⟨code, p + 8 + n * 8 + 4⟩
  readsTargets : ∀ (n : Nat) target, targets[n]? = some target →
    readTarget32 start ⟨code, p + 8 + n * 8 + 4⟩ = .ok target ⟨code, p + 8 + (n + 1) * 8⟩
  stops : stop = p + 8 + targets.length * 8

/-- The operands of a switch stand in the code between its code and its end, as many as its bounds or
keys say. -/
def SwitchIn (code : Bytes) (start stop : Nat) : Instruction Nat → Prop
  | tableSwitch low high fallback targets =>
    ∃ p, TableAt code start stop p low high fallback targets
  | lookupSwitch fallback keys targets => ∃ p, LookupAt code start stop p fallback keys targets
  | _ => True

theorem anchored_readTableSwitch (o : Nat) : Anchored (readTableSwitch o) := by
  refine anchored_skipPadding.bind fun _ => (local_readTarget32 o).anchored.bind fun fallback =>
    Scan.local_u32.map.anchored.bind fun low => Scan.local_u32.map.anchored.bind fun high => ?_
  have hentries (n : Nat) : Anchored (checkSwitch o n 4 >>= fun _ => do
      return tableSwitch low high fallback (← Scan.times n (readTarget32 o))) :=
    anchored_entries (local_readTarget32 o).anchored fun _ _ _ => readTarget32_ok
  exact Scan.anchored_ite ((Scan.local_throw _).anchored.bind fun _ => hentries _) (hentries _)

theorem readTableSwitch_ok (h : readTableSwitch o ⟨code, o + 1⟩ = .ok i c') :
    SwitchIn code o c'.offset i := by
  simp only [readTableSwitch, Step.bind_ok] at h
  obtain ⟨_, _, hpad, fallback, _, hfallback, low, _, hlow, high, _, hhigh, h⟩ := h
  obtain ⟨p, rfl, haligned, hle, hlt⟩ := skipPadding_ok hpad
  dsimp only at hle hlt
  obtain rfl := readTarget32_ok hfallback
  obtain rfl := Scan.i32_ok hlow
  obtain rfl := Scan.i32_ok hhigh
  rw [Step.guard_ok] at h
  obtain ⟨hcount, h⟩ := h
  simp only [Step.bind_ok] at h
  obtain ⟨_, _, hcheck, targets, _, htargets, h⟩ := h
  obtain rfl := checkSwitch_ok hcheck
  obtain ⟨rfl, rfl⟩ := Step.pure_ok.1 h
  obtain ⟨rfl, hlength, hread⟩ := Scan.times_ok (fun _ _ _ => readTarget32_ok) htargets
  refine ⟨p, haligned, ⟨hle, by omega⟩, hfallback, hlow, hhigh, ?_, hread, ?_⟩
  · rw [hlength]
    omega
  · rw [hlength]

/-- Reads a key of a switch and the place to which it leads. -/
theorem readCase_ok {x : Int32 × Nat}
    (h : (do let key ← Scan.i32; return (key, ← readTarget32 o)) c = .ok x c') :
    c' = ⟨c.data, c.offset + 8⟩ ∧ Scan.i32 c = .ok x.1 ⟨c.data, c.offset + 4⟩ ∧
      readTarget32 o ⟨c.data, c.offset + 4⟩ = .ok x.2 ⟨c.data, c.offset + 8⟩ := by
  simp only [Step.bind_ok] at h
  obtain ⟨key, _, hkey, target, _, htarget, h⟩ := h
  obtain ⟨rfl, rfl⟩ := Step.pure_ok.1 h
  obtain rfl := Scan.i32_ok hkey
  obtain rfl := readTarget32_ok htarget
  exact ⟨rfl, hkey, htarget⟩

theorem anchored_readLookupSwitch (o : Nat) : Anchored (readLookupSwitch o) :=
  anchored_skipPadding.bind fun _ => (local_readTarget32 o).anchored.bind fun _ =>
    Scan.local_u32.map.anchored.bind fun _ => anchored_entries
      (Scan.local_u32.map.bind fun _ => (local_readTarget32 o).map).anchored
      fun _ _ _ h => (readCase_ok h).1

theorem readLookupSwitch_ok (h : readLookupSwitch o ⟨code, o + 1⟩ = .ok i c') :
    SwitchIn code o c'.offset i := by
  simp only [readLookupSwitch, Step.bind_ok] at h
  obtain ⟨_, _, hpad, fallback, _, hfallback, count, _, hcount, _, _, hcheck, entries, _, hentries,
    h⟩ := h
  obtain ⟨p, rfl, haligned, hle, hlt⟩ := skipPadding_ok hpad
  dsimp only at hle hlt
  obtain rfl := readTarget32_ok hfallback
  obtain rfl := Scan.i32_ok hcount
  obtain rfl := checkSwitch_ok hcheck
  obtain ⟨rfl, rfl⟩ := Step.pure_ok.1 h
  obtain ⟨rfl, hlength, hread⟩ := Scan.times_ok (fun _ _ _ h => (readCase_ok h).1) hentries
  refine ⟨p, haligned, ⟨hle, by omega⟩, hfallback, ⟨count, hcount, by simp [hlength]⟩, by simp,
    fun n key hkey => ?_, fun n target htarget => ?_, by simp [hlength]⟩
  · simp only [List.getElem?_map, Option.map_eq_some_iff] at hkey
    obtain ⟨x, hx, rfl⟩ := hkey
    exact (readCase_ok (hread n x hx)).2.1
  · simp only [List.getElem?_map, Option.map_eq_some_iff] at htarget
    obtain ⟨x, hx, rfl⟩ := htarget
    rw [Nat.succ_mul, ← Nat.add_assoc]
    exact (readCase_ok (hread n x hx)).2.2

/-- Whether an instruction is a switch. -/
def isSwitch : Instruction Nat → Bool
  | tableSwitch .. | lookupSwitch .. => true
  | _ => false

/-- A read of an instruction that is no switch, which does not look at where it starts. -/
structure Simple (read : Scan (Instruction Nat)) : Prop where
  isLocal : Local read
  noSwitch : ∀ ⦃c i c'⦄, read c = .ok i c' → i.isSwitch = false

section Simple

variable {α : Type} {read read' : Scan (Instruction Nat)} {first : Scan α}

theorem simple_pure (h : i.isSwitch = false) : Simple (pure i) where
  isLocal := Scan.local_pure i
  noSwitch c j c' hj := by
    obtain ⟨rfl, -⟩ := Step.pure_ok.1 hj
    exact h

theorem simple_throw (e : ClassError) : Simple (throw e) where
  isLocal := Scan.local_throw e
  noSwitch _ _ _ h := (Step.throw_ok.1 h).elim

theorem simple_bind {k : α → Scan (Instruction Nat)} (h : Local first) (hk : ∀ a, Simple (k a)) :
    Simple (first >>= k) where
  isLocal := h.bind fun a => (hk a).isLocal
  noSwitch c i c' hi := by
    obtain ⟨a, mid, -, hi⟩ := Step.bind_ok.1 hi
    exact (hk a).noSwitch hi

theorem simple_map {f : α → Instruction Nat} (h : Local first) (hf : ∀ a, (f a).isSwitch = false) :
    Simple (do return f (← first)) := simple_bind h fun a => simple_pure (hf a)

theorem simple_ite {c : Prop} [Decidable c] (h : Simple read) (h' : Simple read') :
    Simple (if c then read else read') := by
  split
  · exact h
  · exact h'

end Simple

theorem simple_readWide (o : Nat) : Simple (readWide o) :=
  simple_bind Scan.local_u8 fun _ => simple_ite
    (simple_bind Scan.local_u16 fun _ => simple_map Scan.local_u16.map fun _ => rfl)
    (simple_ite (simple_map Scan.local_u16 fun _ => rfl) (simple_throw _))

theorem simple_readOperands (htable : op ≠ tableswitch) (hlookup : op ≠ lookupswitch) :
    Simple (readOperands o op) := by
  unfold readOperands
  refine simple_ite (simple_pure rfl) ?_
  refine simple_ite (simple_map Scan.local_u8.map fun _ => rfl) ?_
  refine simple_ite (simple_map Scan.local_u16.map fun _ => rfl) ?_
  refine simple_ite (simple_map Scan.local_u8 fun _ => rfl) ?_
  refine simple_ite (simple_map Scan.local_u8 fun _ => rfl) ?_
  refine simple_ite (simple_map Scan.local_u16 fun _ => rfl) ?_
  refine simple_ite (simple_map Scan.local_u8 fun _ => rfl) ?_
  refine simple_ite (simple_pure rfl) ?_
  refine simple_ite (simple_pure rfl) ?_
  refine simple_ite
    (simple_bind Scan.local_u8 fun _ => simple_map Scan.local_u8.map fun _ => rfl) ?_
  refine simple_ite (simple_map (local_readTarget16 o) fun _ => rfl) ?_
  refine simple_ite (simple_map (local_readTarget32 o) fun _ => rfl) ?_
  rw [if_neg htable, if_neg hlookup]
  refine simple_ite (simple_map Scan.local_u16 fun _ => rfl) ?_
  refine simple_ite (simple_map Scan.local_u16 fun _ => rfl) ?_
  refine simple_ite
    (simple_bind Scan.local_u16 fun _ => simple_map (Scan.local_skip 2) fun _ => rfl) ?_
  refine simple_ite
    (simple_bind Scan.local_u16 fun _ => simple_map (Scan.local_skip 2) fun _ => rfl) ?_
  refine simple_ite (simple_map Scan.local_u16 fun _ => rfl) ?_
  refine simple_ite (simple_readWide o) ?_
  exact simple_ite
    (simple_bind Scan.local_u16 fun _ => simple_map Scan.local_u8 fun _ => rfl) (simple_throw _)

theorem anchored_readOperands (o : Nat) (op : UInt8) : Anchored (readOperands o op) := by
  by_cases htable : op = tableswitch
  · subst htable
    exact anchored_readTableSwitch o
  · by_cases hlookup : op = lookupswitch
    · subst hlookup
      exact anchored_readLookupSwitch o
    · exact (simple_readOperands htable hlookup).isLocal.anchored

theorem switchIn_readOperands (h : readOperands o op ⟨code, o + 1⟩ = .ok i c') :
    SwitchIn code o c'.offset i := by
  by_cases htable : op = tableswitch
  · subst htable
    exact readTableSwitch_ok h
  · by_cases hlookup : op = lookupswitch
    · subst hlookup
      exact readLookupSwitch_ok h
    · have hno := (simple_readOperands htable hlookup).noSwitch h
      cases i with
      | tableSwitch | lookupSwitch => cases hno
      | _ => trivial

theorem anchored_read : Anchored read :=
  Scan.anchored_offset (k := fun offset => do
    let op ← Scan.u8
    return (offset, ← readOperands offset op)) fun offset =>
      Scan.local_u8.anchored.bind fun op => (anchored_readOperands offset op).map

/-- An instruction takes the bytes from its offset up to a later one, which read as it in any code,
and a switch has its entries there. -/
structure PieceAt (code : Bytes) (start stop : Nat) (x : Nat × Instruction Nat) : Prop where
  offset : x.1 = start
  before : start < stop
  inside : stop ≤ code.size
  reads : read ⟨code, start⟩ = .ok x ⟨code, stop⟩
  anywhere : ReadsAt start read (code.extract start stop).toList x
  entries : SwitchIn code start stop x.2

theorem read_ok {x : Nat × Instruction Nat} (hstart : start ≤ code.size)
    (h : read ⟨code, start⟩ = .ok x c) : ∃ stop, c = ⟨code, stop⟩ ∧ PieceAt code start stop x := by
  obtain ⟨bytes, rfl, hs, hr⟩ := anchored_read code start x c hstart h
  have hread := h
  obtain ⟨_, _, hget, h⟩ := Step.bind_ok.1 h
  obtain ⟨rfl, rfl⟩ := Step.get_ok.1 hget
  obtain ⟨op, _, hop, h⟩ := Step.bind_ok.1 h
  obtain ⟨i, _, hi, h⟩ := Step.bind_ok.1 h
  obtain ⟨rfl, rfl⟩ := Step.pure_ok.1 h
  obtain rfl := Scan.u8_ok hop
  have hfirst : start + 1 ≤ code.size := by
    obtain ⟨first, hc, hs, -⟩ := Scan.local_u8 code start op _ hstart hop
    exact (congrArg Cursor.offset hc).trans_le hs.size_le
  obtain ⟨operands, hc, -⟩ := anchored_readOperands start op code (start + 1) i _ hfirst hi
  have hstop : start + bytes.length = start + 1 + operands.length := congrArg Cursor.offset hc
  refine ⟨_, rfl, rfl, by omega, hs.size_le, hread, ?_, switchIn_readOperands hi⟩
  rw [hs.extract]
  exact hr

/-- Instructions that take apart the code from an offset to its end. -/
inductive Tiles (code : Bytes) : Nat → List (Nat × Instruction Nat) → Prop
  | nil : Tiles code code.size []
  | cons {start stop : Nat} {x : Nat × Instruction Nat} {others : List (Nat × Instruction Nat)}
    (piece : PieceAt code start stop x) (h : Tiles code stop others) : Tiles code start (x :: others)

variable {is : List (Nat × Instruction Nat)}

/-- Reading on to the end takes the rest of the code apart, as a budget of one for each byte lets it
come to the end. -/
theorem readAll_tiles {budget : Nat} {done all : Array (Nat × Instruction Nat)}
    (h : readAll done budget ⟨code, start⟩ = .ok all c) (hstart : start ≤ code.size)
    (hbudget : code.size - start ≤ budget) :
    ∃ is, all.toList = done.toList ++ is ∧ Tiles code start is := by
  induction budget generalizing done start with
  | zero =>
    obtain ⟨rfl, -⟩ := Step.pure_ok.1 h
    obtain rfl : start = code.size := by omega
    exact ⟨[], (List.append_nil _).symm, .nil⟩
  | succ budget ih =>
    obtain ⟨_, _, hget, h⟩ := Step.bind_ok.1 h
    obtain ⟨rfl, rfl⟩ := Step.get_ok.1 hget
    split at h
    · obtain ⟨x, mid, hx, h⟩ := Step.bind_ok.1 h
      obtain ⟨stop, rfl, hpiece⟩ := read_ok hstart hx
      have hbefore := hpiece.before
      obtain ⟨is, hall, htiles⟩ := ih h hpiece.inside (by omega)
      rw [Array.toList_push, List.append_assoc] at hall
      exact ⟨x :: is, hall, .cons hpiece htiles⟩
    · rename_i hend
      obtain ⟨rfl, -⟩ := Step.pure_ok.1 h
      obtain rfl : start = code.size := Nat.le_antisymm hstart (Nat.not_lt.1 hend)
      exact ⟨[], (List.append_nil _).symm, .nil⟩

theorem tiles_of_decode {is : Array (Nat × Instruction Nat)} (h : decode code = .ok is) :
    Tiles code 0 is.toList := by
  obtain ⟨c, hread⟩ := Scan.runAt_ok.1 h
  obtain ⟨all, hall, htiles⟩ := readAll_tiles hread (Nat.zero_le _) (Nat.le_refl _)
  rw [hall]
  exact htiles

/-- Instructions that tile code start where the tiling does, or later. -/
theorem Tiles.bounds (h : Tiles code start is) {x : Nat × Instruction Nat} (hx : x ∈ is) :
    start ≤ x.1 ∧ x.1 < code.size := by
  induction h with
  | nil => cases hx
  | cons piece _ ih =>
    have hoffset := piece.offset
    have hbefore := piece.before
    have hinside := piece.inside
    rcases List.mem_cons.1 hx with rfl | hx
    · omega
    · have := ih hx
      omega

theorem Tiles.ascending (h : Tiles code start is) : is.Pairwise fun x y => x.1 < y.1 := by
  induction h with
  | nil => exact .nil
  | cons piece rest ih =>
    refine List.pairwise_cons.2 ⟨fun y hy => ?_, ih⟩
    rw [piece.offset]
    exact Nat.lt_of_lt_of_le piece.before (rest.bounds hy).1

/-- The instructions of a code array ascend, and each starts in the array. -/
theorem decode_ascending {is : Array (Nat × Instruction Nat)} (h : decode code = .ok is) :
    (is.toList.Pairwise fun x y => x.1 < y.1) ∧ ∀ x ∈ is.toList, x.1 < code.size :=
  ⟨(tiles_of_decode h).ascending, fun _ hx => ((tiles_of_decode h).bounds hx).2⟩

/-- The offsets at which instructions start, and after them the end of the code. -/
def edges (code : Bytes) (is : List (Nat × Instruction Nat)) : List Nat :=
  is.map Prod.fst ++ [code.size]

theorem Tiles.edges_zero (h : Tiles code start is) : (edges code is)[0]? = some start := by
  cases h with
  | nil => rfl
  | cons piece _ => exact congrArg some piece.offset

theorem Tiles.piece (h : Tiles code start is) {k : Nat} {x : Nat × Instruction Nat}
    (hx : is[k]? = some x) : ∃ stop, (edges code is)[k + 1]? = some stop ∧
      PieceAt code x.1 stop x := by
  induction h generalizing k with
  | nil => cases hx
  | @cons start stop y others piece rest ih =>
    cases k with
    | zero =>
      cases hx
      exact ⟨stop, rest.edges_zero, piece.offset ▸ piece⟩
    | succ k => exact ih hx

/-- Decoding takes a code array apart: the first instruction starts at its start, each takes the
bytes up to where the next one starts, and the last one those up to its end. Switches have their
entries, as many as their bounds or keys say, in their own bytes. -/
theorem decode_tiles {is : Array (Nat × Instruction Nat)} (h : decode code = .ok is) :
    (edges code is.toList)[0]? = some 0 ∧ (edges code is.toList).Pairwise (· < ·) ∧
      ∀ (k : Nat) x, is[k]? = some x →
        ∃ stop, (edges code is.toList)[k + 1]? = some stop ∧ PieceAt code x.1 stop x := by
  have htiles := tiles_of_decode h
  refine ⟨htiles.edges_zero, ?_, fun k x hx => htiles.piece (by rwa [Array.getElem?_toList])⟩
  refine List.pairwise_append.2 ⟨List.pairwise_map.2 htiles.ascending,
    List.pairwise_singleton _ _, fun offset hoffset stop hstop => ?_⟩
  obtain ⟨x, hx, rfl⟩ := List.mem_map.1 hoffset
  obtain rfl := List.mem_singleton.1 hstop
  exact (htiles.bounds hx).2

/-- A switch of each kind, an instruction with a wide prefix and a return. -/
def switchCode : Bytes := #[
  tableswitch, 0, 0, 0, 0, 0, 0, 40, 0, 0, 0, 5, 0, 0, 0, 6, 0, 0, 0, 46, 0, 0, 0, 0,
  lookupswitch, 0, 0, 0, 255, 255, 255, 232, 0, 0, 0, 1, 255, 255, 255, 255, 0, 0, 0, 22,
  wide, iinc, 1, 0, 255, 255, return_void]

theorem decode_tiles_switchCode :
    let is := #[(0, tableSwitch 5 6 40 [46, 0]), (24, lookupSwitch 0 [-1] [46]),
      (44, increment 256 (-1)), (50, plain return_void)]
    decode switchCode = .ok is ∧ edges switchCode is.toList = [0, 24, 44, 50, 51] ∧
      ∀ (k : Nat) x, is[k]? = some x →
        ∃ stop, (edges switchCode is.toList)[k + 1]? = some stop ∧ PieceAt switchCode x.1 stop x :=
  ⟨rfl, rfl, (decode_tiles rfl).2.2⟩

end Instruction

end JvmClass
