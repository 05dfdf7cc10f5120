import JvmClass.Proofs.SlotVec
import JvmClass.Typing.Type

/-!
# Slot vectors by what was done to them

A slot vector that is pushed to, popped from, cleared and extended in any order holds the pushes
that have not been undone, the last one on top. Each still has the offset and the index that it got
when it was pushed, and these are what popping, traversing and looking up answer with
(`SlotVec.keeps_after`).
-/

namespace JvmClass.SlotVec

variable {α : Type}

/-- The entries that are left, as they will be handed out. -/
def Traversal.items (t : Traversal α) : List (Item α) :=
  (t.entries.zipIdx t.index).map fun ((offset, value), index) => ⟨offset, index, value⟩

/-- The entries in order, as they are handed out. -/
def items (v : SlotVec α) : List (Item α) := v.traverse.items

@[simp] theorem length_items (v : SlotVec α) : v.items.length = v.size := by
  simp [items, Traversal.items, traverse, size]

@[simp] theorem map_value_items (v : SlotVec α) : v.items.map Item.value = v.toList := by
  have hvalues : v.toList = (v.entries.toList.zipIdx.map Prod.fst).map Prod.snd := by
    rw [List.zipIdx_map_fst]
    rfl
  rw [hvalues, List.map_map]
  simp [items, Traversal.items, traverse, Function.comp_def]

theorem getElem?_items {v : SlotVec α} {i : Nat} {item : Item α} :
    v.items[i]? = some item ↔ v.entries[i]? = some (item.offset, item.value) ∧ item.index = i := by
  obtain ⟨offset, index, value⟩ := item
  simp only [items, Traversal.items, traverse, List.getElem?_map, List.getElem?_zipIdx,
    Array.getElem?_toList, Nat.zero_add]
  cases v.entries[i]? with
  | none => simp
  | some entry =>
    obtain ⟨o, a⟩ := entry
    simp only [Option.map_some, Option.some.injEq, Item.mk.injEq, Prod.mk.injEq]
    exact ⟨fun ⟨ho, hi, ha⟩ => ⟨⟨ho, ha⟩, hi.symm⟩, fun ⟨⟨ho, ha⟩, hi⟩ => ⟨ho, hi.symm, ha⟩⟩

section Traversals

namespace Traversal

variable {t u : Traversal α} {x : Item α} {front back : List (Item α)}

/-- Drawing from the front takes the first of the entries that are left. -/
theorem next?_cases (t : Traversal α) :
    (t.items = [] ∧ t.next? = none) ∨ ∃ x u, t.next? = some (x, u) ∧ t.items = x :: u.items := by
  obtain ⟨index, entries⟩ := t
  cases entries with
  | nil => exact Or.inl ⟨rfl, rfl⟩
  | cons entry rest => exact Or.inr ⟨_, _, rfl, rfl⟩

/-- Drawing from the back takes the last of the entries that are left. -/
theorem nextBack?_cases (t : Traversal α) :
    (t.items = [] ∧ t.nextBack? = none) ∨
      ∃ x u, t.nextBack? = some (x, u) ∧ t.items = u.items ++ [x] := by
  obtain ⟨index, entries⟩ := t
  rcases List.eq_nil_or_concat entries with rfl | ⟨rest, ⟨offset, value⟩, rfl⟩
  · exact Or.inl ⟨rfl, rfl⟩
  · refine Or.inr ⟨⟨offset, index + rest.length, value⟩, ⟨index, rest⟩, ?_, ?_⟩
    · simp [nextBack?]
    · simp [items, List.zipIdx_append]

theorem items_of_next? (h : t.next? = some (x, u)) : t.items = x :: u.items := by
  rcases next?_cases t with ⟨-, hnone⟩ | ⟨_, _, hsome, hitems⟩
  · rw [hnone] at h
    cases h
  · rw [hsome] at h
    cases h
    exact hitems

theorem items_of_nextBack? (h : t.nextBack? = some (x, u)) : t.items = u.items ++ [x] := by
  rcases nextBack?_cases t with ⟨-, hnone⟩ | ⟨_, _, hsome, hitems⟩
  · rw [hnone] at h
    cases h
  · rw [hsome] at h
    cases h
    exact hitems

/-- Draws from either end, in any order, until nothing is left: what comes from the front, and what
comes from the back, each in the order in which it comes. -/
inductive Drawn : Traversal α → List (Item α) → List (Item α) → Prop
  | done {t : Traversal α} (front : t.next? = none) (back : t.nextBack? = none) : Drawn t [] []
  | front {t u : Traversal α} {x : Item α} {front back : List (Item α)}
    (next : t.next? = some (x, u)) (rest : Drawn u front back) : Drawn t (x :: front) back
  | back {t u : Traversal α} {x : Item α} {front back : List (Item α)}
    (next : t.nextBack? = some (x, u)) (rest : Drawn u front back) : Drawn t front (x :: back)

theorem Drawn.items_eq (h : Drawn t front back) : t.items = front ++ back.reverse := by
  induction h with
  | @done t hfront _ =>
    rcases next?_cases t with ⟨hnil, -⟩ | ⟨x, u, hsome, -⟩
    · exact hnil
    · rw [hfront] at hsome
      cases hsome
  | front next _ ih => rw [items_of_next? next, ih, List.cons_append]
  | back next _ ih => rw [items_of_nextBack? next, ih, List.reverse_cons, List.append_assoc]

/-- What is left can be drawn with any part of it from the front and the rest from the back. -/
theorem drawn_of_items_eq (h : t.items = front ++ back.reverse) : Drawn t front back := by
  induction front generalizing t with
  | nil =>
    induction back generalizing t with
    | nil =>
      rcases next?_cases t with ⟨-, hfront⟩ | ⟨x, u, -, hitems⟩
      · rcases nextBack?_cases t with ⟨-, hback⟩ | ⟨x, u, -, hitems⟩
        · exact .done hfront hback
        · rw [h] at hitems
          simp at hitems
      · rw [h] at hitems
        cases hitems
    | cons y back ih =>
      rw [List.nil_append, List.reverse_cons] at h
      rcases nextBack?_cases t with ⟨hnil, -⟩ | ⟨x, u, hnext, hitems⟩
      · rw [h] at hnil
        simp at hnil
      · obtain ⟨hrest, hlast⟩ := List.append_inj' (hitems.symm.trans h) rfl
        cases hlast
        exact .back hnext (ih hrest)
  | cons y front ih =>
    rcases next?_cases t with ⟨hnil, -⟩ | ⟨x, u, hnext, hitems⟩
    · rw [h] at hnil
      cases hnil
    · obtain ⟨rfl, hrest⟩ := List.cons.inj (hitems.symm.trans h)
      exact .front hnext (ih hrest)

end Traversal

theorem drawn_iff {v : SlotVec α} {front back : List (Item α)} :
    v.traverse.Drawn front back ↔ v.items = front ++ back.reverse :=
  ⟨Traversal.Drawn.items_eq, Traversal.drawn_of_items_eq⟩

end Traversals

/-- The entry that is popped is the last one. -/
theorem popItem?_cases (v : SlotVec α) :
    (v.items = [] ∧ v.popItem? = none) ∨
      ∃ x w, v.popItem? = some (x, w) ∧ v.items = w.items ++ [x] := by
  cases hp : v.pop? with
  | none =>
    refine Or.inl ⟨?_, by rw [popItem?, hp]; rfl⟩
    rcases List.eq_nil_or_concat v.toList with hnil | ⟨front, a, hconcat⟩
    · exact List.map_eq_nil_iff.1 ((map_value_items v).trans hnil)
    · obtain ⟨offset, w, hsome, -⟩ := pop?_of_toList (hconcat.trans List.concat_eq_append)
      rw [hp] at hsome
      cases hsome
  | some taken =>
    obtain ⟨⟨offset, a⟩, w⟩ := taken
    refine Or.inr ⟨⟨offset, w.size, a⟩, w, by rw [popItem?, hp]; rfl, ?_⟩
    have hentries := (entries_of_pop? hp).1
    simp [items, Traversal.items, traverse, hentries, List.zipIdx_append, size]

variable [SlotWidth α]

theorem items_push (v : SlotVec α) (a : α) :
    (v.push a).items = v.items ++ [⟨v.nextOffset, v.size, a⟩] := by
  simp [items, Traversal.items, traverse, push, List.zipIdx_append, size]

/-- Every entry starts where the widths of those before it end. -/
theorem Laid.offset_eq {v : SlotVec α} (h : v.Laid) {i : Nat} {item : Item α}
    (hi : v.items[i]? = some item) :
    item.offset = v.start + total SlotWidth.width (v.toList.take i) := by
  induction h with
  | startingAt start => cases hi
  | @push v a hv ih =>
    rw [items_push, List.getElem?_append] at hi
    rw [toList_push]
    split at hi
    · rename_i hlt
      rw [length_items] at hlt
      rw [List.take_append_of_le_length (by rw [length_toList]; exact Nat.le_of_lt hlt)]
      exact ih hi
    · rename_i hle
      obtain ⟨hlast, rfl⟩ := List.getElem?_eq_some_iff.1 hi
      rw [length_items, List.length_singleton] at hlast
      rw [length_items] at hle
      have hi : i = v.toList.length := by
        rw [length_toList]
        show i = v.size
        omega
      simp only [List.getElem_singleton, hi, List.take_left]
      exact hv.nextOffset_eq

/-- What can be done to a vector. -/
inductive Change (α : Type) where
  | push (value : α)
  | pop
  | clear
  | extend (values : List α)

namespace Change

/-- The values that are added. -/
def values : Change α → List α
  | push a => [a]
  | extend as => as
  | pop | clear => []

/-- The vector after a change. -/
def apply (v : SlotVec α) : Change α → SlotVec α
  | push a => v.push a
  | pop => ((v.popItem?).map Prod.snd).getD v
  | clear => v.clear
  | extend as => v.append as

end Change

/-- What values become when they are pushed, with the offset and the index that each gets. -/
def pushes (v : SlotVec α) : List α → List (Item α)
  | [] => []
  | a :: rest => ⟨v.nextOffset, v.size, a⟩ :: (v.push a).pushes rest

/-- The pushes that are not undone after a change, given those that were not before. -/
def Change.left (v : SlotVec α) (pushed : List (Item α)) : Change α → List (Item α)
  | push a => pushed ++ v.pushes [a]
  | pop => pushed.dropLast
  | clear => []
  | extend as => pushed ++ v.pushes as

/-- A vector after changes, one after another. -/
def after (v : SlotVec α) (changes : List (Change α)) : SlotVec α := changes.foldl Change.apply v

/-- The pushes that are not undone after changes, with the offset and the index that each got. -/
def pushedBy (v : SlotVec α) (pushed : List (Item α)) : List (Change α) → List (Item α)
  | [] => pushed
  | change :: rest => (change.apply v).pushedBy (change.left v pushed) rest

theorem items_append (v : SlotVec α) (values : List α) :
    (v.append values).items = v.items ++ v.pushes values := by
  induction values generalizing v with
  | nil => simp [append_nil, pushes]
  | cons a rest ih =>
    rw [append_cons, ih, items_push, List.append_assoc, List.singleton_append, pushes]

/-- A change takes the entries of a vector to the pushes that it leaves. -/
theorem items_apply (v : SlotVec α) (change : Change α) :
    (change.apply v).items = change.left v v.items := by
  cases change with
  | push a => exact items_append v [a]
  | pop =>
    rcases popItem?_cases v with ⟨hnil, hnone⟩ | ⟨x, w, hsome, hitems⟩
    · simp [Change.apply, Change.left, hnone, hnil]
    · simp [Change.apply, Change.left, hsome, hitems]
  | clear => rfl
  | extend as => exact items_append v as

/-- The entries of a vector are the pushes that have not been undone. -/
theorem items_after (v : SlotVec α) (changes : List (Change α)) :
    (v.after changes).items = v.pushedBy v.items changes := by
  induction changes generalizing v with
  | nil => rfl
  | cons change rest ih => exact (ih (change.apply v)).trans (by rw [pushedBy, items_apply])

theorem laid_apply {v : SlotVec α} (h : v.Laid) (change : Change α) :
    (change.apply v).Laid ∧ (change.apply v).start = v.start := by
  cases change with
  | push a => exact ⟨h.push a, rfl⟩
  | pop =>
    cases hp : v.pop? with
    | none => simpa [Change.apply, popItem?, hp] using h
    | some taken => simpa [Change.apply, popItem?, hp] using h.pop hp
  | clear => exact ⟨.startingAt v.start, rfl⟩
  | extend as => exact ⟨laid_append h as, start_append v as⟩

theorem laid_after {v : SlotVec α} (h : v.Laid) (changes : List (Change α)) :
    (v.after changes).Laid ∧ (v.after changes).start = v.start := by
  induction changes generalizing v with
  | nil => exact ⟨h, rfl⟩
  | cons change rest ih =>
    obtain ⟨hlaid, hstart⟩ := laid_apply h change
    obtain ⟨hlaid', hstart'⟩ := ih hlaid
    exact ⟨hlaid', hstart'.trans hstart⟩

/-- Entries come from what was added. -/
theorem mem_apply {v : SlotVec α} {change : Change α} {a : α} (ha : a ∈ (change.apply v).toList) :
    a ∈ v.toList ∨ a ∈ change.values := by
  cases change with
  | push b => simpa [Change.apply, Change.values] using ha
  | pop =>
    cases hp : v.pop? with
    | none => exact Or.inl (by simpa [Change.apply, popItem?, hp] using ha)
    | some taken =>
      have ha : a ∈ taken.2.toList := by simpa [Change.apply, popItem?, hp] using ha
      rw [toList_of_pop? hp]
      exact Or.inl (List.mem_append_left _ ha)
  | clear => cases ha
  | extend as => simpa [Change.apply, Change.values] using ha

theorem mem_after {v : SlotVec α} {changes : List (Change α)} {a : α}
    (ha : a ∈ (v.after changes).toList) :
    a ∈ v.toList ∨ ∃ change ∈ changes, a ∈ change.values := by
  induction changes generalizing v with
  | nil => exact Or.inl ha
  | cons change rest ih =>
    rcases ih ha with ha | ⟨c, hc, ha⟩
    · exact (mem_apply ha).imp_right fun ha => ⟨change, List.mem_cons_self, ha⟩
    · exact Or.inr ⟨c, List.mem_cons_of_mem _ hc, ha⟩

/-- Entries take up slots if whatever was added does. -/
theorem width_pos_after {start : Nat} {changes : List (Change α)}
    (hw : ∀ change ∈ changes, ∀ a ∈ change.values, 0 < SlotWidth.width a) :
    ∀ a ∈ ((startingAt start).after changes).toList, 0 < SlotWidth.width a := by
  intro a ha
  rcases mem_after ha with ha | ⟨change, hc, ha⟩
  · cases ha
  · exact hw change hc a ha

/-- A vector that starts at an offset holds pushes, and answers with what they got. -/
structure Keeps (start : Nat) (pushed : List (Item α)) (v : SlotVec α) : Prop where
  /-- The entries are the pushes. -/
  entries : ∀ i : Nat, v.entries[i]? = (pushed[i]?).map fun item => (item.offset, item.value)
  index : ∀ (i : Nat) (item : Item α), pushed[i]? = some item → item.index = i
  offset : ∀ (i : Nat) (item : Item α), pushed[i]? = some item →
    item.offset = start + total SlotWidth.width ((pushed.take i).map Item.value)
  nextOffset : v.nextOffset = start + total SlotWidth.width (pushed.map Item.value)
  /-- The last push is the one that is popped. -/
  popped : v.popItem?.map Prod.fst = pushed.getLast?
  /-- Whatever is drawn from which end, it is all of the pushes in their order. -/
  drawn : ∀ front back, v.traverse.Drawn front back ↔ pushed = front ++ back.reverse
  found : ∀ offset i a, v.locate offset = .found i a ↔ pushed[i]? = some ⟨offset, i, a⟩

theorem keeps_items {v : SlotVec α} (h : v.Laid) (hw : ∀ a ∈ v.toList, 0 < SlotWidth.width a) :
    Keeps v.start v.items v where
  entries i := by
    cases hi : v.items[i]? with
    | none =>
      rw [List.getElem?_eq_none_iff, length_items] at hi
      exact Array.getElem?_eq_none hi
    | some item => exact (getElem?_items.1 hi).1
  index i item hi := (getElem?_items.1 hi).2
  offset i item hi := by
    rw [List.map_take, map_value_items]
    exact h.offset_eq hi
  nextOffset := by
    rw [map_value_items]
    exact h.nextOffset_eq
  popped := by
    rcases popItem?_cases v with ⟨hnil, hnone⟩ | ⟨x, w, hsome, hitems⟩
    · rw [hnil, hnone]
      rfl
    · rw [hsome, hitems, List.getLast?_concat]
      rfl
  drawn front back := drawn_iff
  found offset i a := by
    rw [getElem?_items]
    exact ⟨fun hl => ⟨entry_of_locate hl, rfl⟩, fun hi => locate_of_entry hw h hi.1⟩

/-- Offsets are kept. After any pushes, pops, clearings and extensions with values that take up slots,
a vector that started at an offset holds the pushes that are not undone: each at the start plus the
widths of those before it, with the offset and index that it got when it was pushed. -/
theorem keeps_after (start : Nat) (changes : List (Change α))
    (hw : ∀ change ∈ changes, ∀ a ∈ change.values, 0 < SlotWidth.width a) :
    Keeps start ((startingAt start).pushedBy [] changes) ((startingAt start).after changes) := by
  obtain ⟨hlaid, hstart⟩ := laid_after (.startingAt start) changes
  have hitems : ((startingAt start).after changes).items = (startingAt start).pushedBy [] changes :=
    items_after (startingAt start) changes
  have hkeeps := keeps_items hlaid (width_pos_after hw)
  rwa [hitems, hstart] at hkeeps

/-- Types on a stack: a long is popped again, and a double and a float follow. -/
def stackChanges : List (Change VType) :=
  [.push .int, .push .long, .pop, .extend [.double, .float]]

theorem keeps_after_stackChanges :
    (∀ change ∈ stackChanges, ∀ a ∈ change.values, 0 < SlotWidth.width a) ∧
    Keeps 1 [⟨1, 0, .int⟩, ⟨2, 1, .double⟩, ⟨4, 2, .float⟩] ((startingAt 1).after stackChanges) := by
  have hw : ∀ change ∈ stackChanges, ∀ a ∈ change.values, 0 < SlotWidth.width a := by decide
  exact ⟨hw, keeps_after 1 stackChanges hw⟩

end JvmClass.SlotVec
