import JvmClass.Proofs.Typing.Operands
import Mathlib.Data.List.Basic

/-!
# Stack instructions by slot

The instructions that move groups of slots about are defined on slots alone (`Shuffle.onSlots`): a
value of type `long` or `double` is two of them. They are carried out on entries, which are never
cut in two, so that they succeed exactly if every group that they move ends between two entries;
then they do to the slots what they are defined to do (`Frame.shuffle_by_slots`).
-/

namespace JvmClass

/-- A slot of the stack: a value of one slot, or one half of a wide value. -/
structure Slot where
  type : VType
  /-- The half is the upper one. -/
  upper : Bool
deriving DecidableEq

/-- The slots of a value, the topmost first. -/
def VType.slots (type : VType) : List Slot :=
  if type.width = 2 then [⟨type, true⟩, ⟨type, false⟩] else [⟨type, false⟩]

theorem VType.length_slots (type : VType) : type.slots.length = type.width := by
  cases type <;> rfl

/-- The slots of entries that are given from the bottom up, the topmost slot first. -/
def slotsOf (types : List VType) : List Slot := types.reverse.flatMap VType.slots

theorem slotsOf_append (front types : List VType) :
    slotsOf (front ++ types) = slotsOf types ++ slotsOf front := by
  rw [slotsOf, List.reverse_append, List.flatMap_append]
  rfl

theorem length_slotsOf (types : List VType) :
    (slotsOf types).length = total VerificationType.width types := by
  induction types with
  | nil => rfl
  | cons type rest ih =>
    have hone : slotsOf [type] = type.slots := List.append_nil _
    rw [← List.singleton_append, slotsOf_append, List.length_append, ih, hone, VType.length_slots,
      List.singleton_append, total_cons, Nat.add_comm]

/-- The slots of groups that lie on each other, the first one on top. -/
theorem slotsOf_groups (groups : List (List VType)) :
    slotsOf groups.reverse.flatten = (groups.map slotsOf).flatten := by
  induction groups with
  | nil => rfl
  | cons group rest ih =>
    rw [List.reverse_cons, List.flatten_append, slotsOf_append, ih, List.flatten_singleton]
    rfl

/-- The slots of groups that are put on each other one after the other. -/
theorem slotsOf_flatMap (items : List Nat) (group : Nat → List VType) :
    slotsOf (items.flatMap group) = items.reverse.flatMap fun i => slotsOf (group i) := by
  induction items with
  | nil => rfl
  | cons i rest ih =>
    rw [List.flatMap_cons, slotsOf_append, ih, List.reverse_cons, List.flatMap_append,
      List.flatMap_singleton]

/-- The slots of the stack, the topmost first. -/
def Frame.slots (f : Frame) : List Slot := slotsOf f.stack.toList

/-- The topmost slots down to a depth are whole entries: none lies across the boundary below
them. -/
def SplitsAt (types : List VType) (depth : Nat) : Prop :=
  ∃ below above, types = below ++ above ∧ total VerificationType.width above = depth

/-- Once the topmost entries are taken off, deeper boundaries are that much closer. -/
theorem splitsAt_add_iff {types below above : List VType} {slots depth : Nat}
    (h : types = below ++ above) (htotal : total VerificationType.width above = slots) :
    SplitsAt types (slots + depth) ↔ SplitsAt below depth := by
  constructor
  · rintro ⟨below', above', h', htotal'⟩
    rcases List.append_eq_append_iff.1 (h.symm.trans h') with ⟨more, rfl, rfl⟩ | ⟨more, rfl, rfl⟩
    · -- The deeper boundary is no deeper, so nothing lies between the two.
      rw [total_append] at htotal
      exact ⟨below, [], (List.append_nil _).symm, by rw [total_nil]; omega⟩
    · rw [total_append] at htotal'
      exact ⟨below', more, rfl, by omega⟩
  · rintro ⟨below', more, rfl, hmore⟩
    refine ⟨below', more ++ above, by rw [h, List.append_assoc], ?_⟩
    rw [total_append, hmore, htotal, Nat.add_comm]

theorem SplitsAt.le_total {types : List VType} {depth : Nat} (h : SplitsAt types depth) :
    depth ≤ total VerificationType.width types := by
  obtain ⟨below, above, rfl, rfl⟩ := h
  rw [total_append]
  exact Nat.le_add_left _ _

/-- The depths at which groups of slots end that lie one under the other. -/
def groupEnds : List Nat → List Nat
  | [] => []
  | slots :: rest => slots :: (groupEnds rest).map (slots + ·)

namespace Simulation

variable {f : Frame} {slots : Nat}

/-- Entries of the right number of slots are taken off. -/
theorem takeSlots_of_toList {taken below above : List VType}
    (h : f.stack.toList = below ++ above) (htotal : total VerificationType.width above = slots) :
    ∃ answer g, takeSlots taken slots f = .ok answer g := by
  induction above using List.reverseRecOn generalizing f slots taken with
  | nil =>
    rw [total_nil] at htotal
    subst htotal
    exact ⟨taken, f, by rw [takeSlots, if_pos rfl]⟩
  | append_singleton above type ih =>
    have hpos := type.width_pos
    rw [total_append, total_cons, total_nil] at htotal
    rw [← List.append_assoc] at h
    obtain ⟨offset, stack, hpop, hstack⟩ := SlotVec.pop?_of_toList h
    obtain ⟨answer, g, hrest⟩ := @ih { f with stack } (slots - type.width) (type :: taken) hstack
      (by omega)
    refine ⟨answer, g, ?_⟩
    rw [takeSlots, if_neg (by omega), hpop]
    simp only
    rw [if_neg (by omega), hrest]

/-- Slots are taken off exactly if they are whole entries. -/
theorem popSlots_iff : (∃ ts g, popSlots slots f = .ok ts g) ↔ SplitsAt f.stack.toList slots := by
  constructor
  · rintro ⟨ts, g, h⟩
    obtain ⟨hts, htotal⟩ := popSlots_ok h
    exact ⟨_, _, hts, htotal⟩
  · rintro ⟨below, above, h, htotal⟩
    exact takeSlots_of_toList h htotal

/-- Groups of slots are taken off exactly if each of them ends between two entries. -/
theorem popGroups_iff {sizes : List Nat} : (∃ groups g, popGroups sizes f = .ok groups g) ↔
    ∀ depth ∈ groupEnds sizes, SplitsAt f.stack.toList depth := by
  induction sizes generalizing f with
  | nil => exact ⟨fun _ => nofun, fun _ => ⟨[], f, rfl⟩⟩
  | cons size rest ih =>
    have hends : (∀ depth ∈ groupEnds (size :: rest), SplitsAt f.stack.toList depth) ↔
        SplitsAt f.stack.toList size ∧
          ∀ depth ∈ groupEnds rest, SplitsAt f.stack.toList (size + depth) := by
      rw [groupEnds, List.forall_mem_cons, List.forall_mem_map]
    rw [hends, ← popSlots_iff]
    constructor
    · rintro ⟨groups, g, h⟩
      obtain ⟨group, mid, h1, h2⟩ := Step.bind_ok.1 h
      obtain ⟨others, _, h3, -⟩ := Step.bind_ok.1 h2
      obtain ⟨hgroup, htotal⟩ := popSlots_ok h1
      refine ⟨⟨group, mid, h1⟩, fun depth hdepth => ?_⟩
      exact (splitsAt_add_iff hgroup htotal).2 (ih.1 ⟨others, _, h3⟩ depth hdepth)
    · rintro ⟨⟨group, mid, h1⟩, hrest⟩
      obtain ⟨hgroup, htotal⟩ := popSlots_ok h1
      obtain ⟨others, g, h2⟩ := ih.2 fun depth hdepth =>
        (splitsAt_add_iff hgroup htotal).1 (hrest depth hdepth)
      exact ⟨group :: others, g, Step.bind_ok.2 ⟨group, mid, h1,
        Step.bind_ok.2 ⟨others, g, h2, rfl⟩⟩⟩

/-- Groups can always be put back. -/
theorem forIn_pushAll_total (groups : List (List VType)) (items : List Nat) (f : Frame) :
    ∃ v g, (forIn items PUnit.unit fun i _ => do
      pushAll (groups.getD i [])
      pure (ForInStep.yield PUnit.unit) : Simulation PUnit) f = .ok v g := by
  induction items generalizing f with
  | nil => exact ⟨_, f, rfl⟩
  | cons i rest ih =>
    obtain ⟨v, g, h⟩ := ih { f with stack := f.stack.append (groups.getD i []) }
    refine ⟨v, g, ?_⟩
    rw [List.forIn_cons]
    exact Step.bind_ok.2 ⟨_, _, Step.bind_ok.2 ⟨_, _, rfl, rfl⟩, h⟩

end Simulation

namespace Shuffle

/-- The code of the instruction. -/
def opcode : Shuffle → UInt8
  | pop => Opcode.pop | pop2 => Opcode.pop2 | dup => Opcode.dup | dup_x1 => Opcode.dup_x1
  | dup_x2 => Opcode.dup_x2 | dup2 => Opcode.dup2 | dup2_x1 => Opcode.dup2_x1
  | dup2_x2 => Opcode.dup2_x2 | swap => Opcode.swap

theorem of?_opcode (which : Shuffle) : PlainEffect.of? which.opcode = some (.shuffle which) := by
  cases which <;> rfl

/-- What the instruction does to the slots of the stack, given with the topmost slot first. -/
def onSlots {α : Type} : Shuffle → List α → Option (List α)
  | pop, _ :: rest => some rest
  | pop2, _ :: _ :: rest => some rest
  | dup, a :: rest => some (a :: a :: rest)
  | dup_x1, a :: b :: rest => some (a :: b :: a :: rest)
  | dup_x2, a :: b :: c :: rest => some (a :: b :: c :: a :: rest)
  | dup2, a :: b :: rest => some (a :: b :: a :: b :: rest)
  | dup2_x1, a :: b :: c :: rest => some (a :: b :: c :: a :: b :: rest)
  | dup2_x2, a :: b :: c :: d :: rest => some (a :: b :: c :: d :: a :: b :: rest)
  | swap, a :: b :: rest => some (b :: a :: rest)
  | _, _ => none

/-- The number of slots that the instruction takes off. -/
def depth : Shuffle → Nat
  | pop | dup => 1
  | pop2 | dup_x1 | dup2 | swap => 2
  | dup_x2 | dup2_x1 => 3
  | dup2_x2 => 4

/-- The depths at which the groups of slots end that the instruction moves. -/
def boundaries : Shuffle → List Nat
  | pop | dup => [1]
  | pop2 | dup2 => [2]
  | dup_x1 | swap => [1, 2]
  | dup_x2 => [1, 3]
  | dup2_x1 => [2, 3]
  | dup2_x2 => [2, 4]

theorem groupEnds_groups (which : Shuffle) : groupEnds which.groups = which.boundaries := by
  cases which <;> rfl

theorem depth_mem_boundaries (which : Shuffle) : which.depth ∈ which.boundaries := by
  cases which <;> decide

/-- Groups of which the sizes are known, as many as there are. -/
theorem eq_of_lengths {α : Type} {groups : List (List α)} {sizes : List Nat}
    (h : groups.map List.length = sizes) :
    (∀ m, sizes = [m] → ∃ x, groups = [x] ∧ x.length = m) ∧
      ∀ m n, sizes = [m, n] → ∃ x y, groups = [x, y] ∧ x.length = m ∧ y.length = n := by
  subst h
  refine ⟨fun m hm => ?_, fun m n hmn => ?_⟩
  · obtain ⟨x, rfl, hx⟩ := List.map_eq_singleton_iff.1 hm
    exact ⟨x, rfl, hx⟩
  · obtain ⟨x, rest, rfl, hx, hrest⟩ := List.map_eq_cons_iff.1 hmn
    obtain ⟨y, rfl, hy⟩ := List.map_eq_singleton_iff.1 hrest
    exact ⟨x, y, rfl, hx, hy⟩

/-- Moving slots is moving groups of them. -/
theorem onSlots_groups {α : Type} (which : Shuffle) {groups : List (List α)} (rest : List α)
    (h : groups.map List.length = which.groups) :
    which.onSlots (groups.flatten ++ rest) =
      some (which.result.reverse.flatMap (groups.getD · []) ++ rest) := by
  obtain ⟨hone, htwo⟩ := eq_of_lengths h
  cases which with
  | pop | dup =>
    obtain ⟨x, rfl, hx⟩ := hone 1 rfl
    obtain ⟨a, rfl⟩ := List.length_eq_one_iff.1 hx
    rfl
  | pop2 | dup2 =>
    obtain ⟨x, rfl, hx⟩ := hone 2 rfl
    obtain ⟨a, b, rfl⟩ := List.length_eq_two.1 hx
    rfl
  | dup_x1 | swap =>
    obtain ⟨x, y, rfl, hx, hy⟩ := htwo 1 1 rfl
    obtain ⟨a, rfl⟩ := List.length_eq_one_iff.1 hx
    obtain ⟨b, rfl⟩ := List.length_eq_one_iff.1 hy
    rfl
  | dup_x2 =>
    obtain ⟨x, y, rfl, hx, hy⟩ := htwo 1 2 rfl
    obtain ⟨a, rfl⟩ := List.length_eq_one_iff.1 hx
    obtain ⟨b, c, rfl⟩ := List.length_eq_two.1 hy
    rfl
  | dup2_x1 =>
    obtain ⟨x, y, rfl, hx, hy⟩ := htwo 2 1 rfl
    obtain ⟨a, b, rfl⟩ := List.length_eq_two.1 hx
    obtain ⟨c, rfl⟩ := List.length_eq_one_iff.1 hy
    rfl
  | dup2_x2 =>
    obtain ⟨x, y, rfl, hx, hy⟩ := htwo 2 2 rfl
    obtain ⟨a, b, rfl⟩ := List.length_eq_two.1 hx
    obtain ⟨c, d, rfl⟩ := List.length_eq_two.1 hy
    rfl

end Shuffle

namespace Simulation

variable {f g : Frame} {which : Shuffle} {u : Unit}

/-- An instruction that moves slots succeeds if its groups can be taken off. -/
theorem shuffle_iff : (∃ u g, plain (.shuffle which) f = .ok u g) ↔
    ∃ groups mid, popGroups which.groups f = .ok groups mid := by
  constructor
  · rintro ⟨u, g, h⟩
    obtain ⟨groups, mid, h1, -⟩ := Step.bind_ok.1 h
    exact ⟨groups, mid, h1⟩
  · rintro ⟨groups, mid, h1⟩
    obtain ⟨v, g, h2⟩ := forIn_pushAll_total groups which.result mid
    exact ⟨(), g, Step.bind_ok.2 ⟨groups, mid, h1, Step.bind_ok.2 ⟨v, g, h2, rfl⟩⟩⟩

/-- What is done to groups of entries is done to the slots. -/
theorem slots_shuffle (h : plain (.shuffle which) f = .ok u g) :
    which.onSlots f.slots = some g.slots := by
  obtain ⟨groups, mid, h1, h2⟩ := Step.bind_ok.1 h
  obtain ⟨hsizes, htaken⟩ := popGroups_ok h1
  obtain ⟨_, _, h3, h4⟩ := Step.bind_ok.1 h2
  obtain ⟨-, rfl⟩ := Step.pure_ok.1 h4
  have hlengths : (groups.map slotsOf).map List.length = which.groups := by
    rw [List.map_map, ← hsizes]
    exact List.map_congr_left fun group _ => length_slotsOf group
  have hgroup : ∀ i, slotsOf (groups.getD i []) = (groups.map slotsOf).getD i [] :=
    fun i => (List.getD_map (d := []) ..).symm
  rw [Frame.slots, htaken, slotsOf_append, slotsOf_groups, Shuffle.onSlots_groups _ _ hlengths,
    Frame.slots, forIn_pushAll_ok h3, slotsOf_append, slotsOf_flatMap]
  simp only [hgroup]

end Simulation

/-- An instruction that moves slots about succeeds exactly if the stack has the slots that it takes
off and every group of them ends between two entries. Then it does to the slots what it is defined
to do, and leaves the locals alone. -/
theorem Frame.shuffle_by_slots (thisClass : ClassName) (which : Shuffle) (f : Frame) :
    ((f.execute thisClass (.plain which.opcode)).1 = none ↔
      which.depth ≤ f.slots.length ∧ ∀ depth ∈ which.boundaries, SplitsAt f.stack.toList depth) ∧
    ∀ g, f.execute thisClass (.plain which.opcode) = (none, g) →
      which.onSlots f.slots = some g.slots ∧ g.locals = f.locals := by
  have hplain : Simulation.execute thisClass (.plain which.opcode) =
      Simulation.plain (.shuffle which) := by
    simp only [Simulation.execute, which.of?_opcode]
  refine ⟨?_, fun g h => ?_⟩
  · have hsuccess : (f.execute thisClass (.plain which.opcode)).1 = none ↔
        ∃ u g, Simulation.plain (.shuffle which) f = .ok u g := by
      rw [Frame.execute, hplain]
      cases Simulation.plain (.shuffle which) f <;> simp
    rw [hsuccess, Simulation.shuffle_iff, Simulation.popGroups_iff, which.groupEnds_groups]
    refine ⟨fun h => ⟨?_, h⟩, fun h => h.2⟩
    rw [Frame.slots, length_slotsOf]
    exact (h _ which.depth_mem_boundaries).le_total
  · obtain ⟨u, hrun⟩ := Frame.execute_none h
    rw [hplain] at hrun
    exact ⟨Simulation.slots_shuffle hrun, Frame.execute_locals rfl rfl h⟩

namespace Frame

/-- A `long` on an `int`. -/
def longOnInt : Frame := ⟨#[.null], SlotVec.ofList [.int, .long]⟩

/-- The `long` can be copied below the `int`, as two slots below one, but the two cannot be swapped:
the upper half of the `long` would be moved alone. -/
theorem shuffle_by_slots_longOnInt :
    longOnInt.execute ⟨"C"⟩ (.plain Shuffle.dup2_x1.opcode) =
        (none, ⟨#[.null], SlotVec.ofList [.long, .int, .long]⟩) ∧
      Shuffle.dup2_x1.onSlots longOnInt.slots =
        some [⟨.long, true⟩, ⟨.long, false⟩, ⟨.int, false⟩, ⟨.long, true⟩, ⟨.long, false⟩] ∧
      longOnInt.execute ⟨"C"⟩ (.plain Shuffle.swap.opcode) =
        (some (.invalidWidth 2), ⟨#[.null], SlotVec.ofList [.int]⟩) ∧
      ¬ (Shuffle.swap.depth ≤ longOnInt.slots.length ∧
        ∀ depth ∈ Shuffle.swap.boundaries, SplitsAt longOnInt.stack.toList depth) := by
  have hcopied : longOnInt.execute ⟨"C"⟩ (.plain Shuffle.dup2_x1.opcode) =
      (none, ⟨#[.null], SlotVec.ofList [.long, .int, .long]⟩) := by decide +kernel
  have hrefused : longOnInt.execute ⟨"C"⟩ (.plain Shuffle.swap.opcode) =
      (some (.invalidWidth 2), ⟨#[.null], SlotVec.ofList [.int]⟩) := by decide +kernel
  refine ⟨hcopied, ?_, hrefused, fun hsplits => ?_⟩
  · exact ((shuffle_by_slots ⟨"C"⟩ .dup2_x1 longOnInt).2 _ hcopied).1
  · have hsuccess := (shuffle_by_slots ⟨"C"⟩ .swap longOnInt).1.2 hsplits
    rw [hrefused] at hsuccess
    cases hsuccess

end Frame

end JvmClass
