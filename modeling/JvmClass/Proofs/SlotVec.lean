import JvmClass.SlotVec
import JvmClass.Total
import JvmClass.Proofs.Search
import Mathlib.Data.List.Induction

/-!
# Slot vectors from lists

A vector that counts from zero and was built by pushes alone is determined by its entries: it is
`SlotVec.ofList` of them. Pushing, popping and mapping are then operations on lists. In such a vector
every entry starts where the widths of those before it end, and those operations keep it so
(`SlotVec.Measured`).
-/

namespace JvmClass.SlotVec

@[simp] theorem toList_empty {α : Type} : (empty : SlotVec α).toList = [] := rfl

@[simp] theorem length_toList {α : Type} (v : SlotVec α) : v.toList.length = v.entries.size := by
  simp [toList]

/-- The entry that is taken off was the last one, and the next one will start where it did. -/
theorem entries_of_pop? {α : Type} {v w : SlotVec α} {entry : Nat × α}
    (h : v.pop? = some (entry, w)) :
    v.entries = w.entries.push entry ∧ w.nextOffset = entry.1 := by
  unfold pop? at h
  split at h
  · cases h
  · rename_i offset value hback
    cases h
    obtain ⟨rest, hrest⟩ := Array.back?_eq_some_iff.1 hback
    simp [hrest]

theorem toList_of_pop? {α : Type} {v w : SlotVec α} {entry : Nat × α}
    (h : v.pop? = some (entry, w)) : v.toList = w.toList ++ [entry.2] := by
  simp [toList, (entries_of_pop? h).1]

/-- The last entry can be taken off. -/
theorem pop?_of_toList {α : Type} {v : SlotVec α} {front : List α} {a : α}
    (h : v.toList = front ++ [a]) : ∃ offset w, v.pop? = some ((offset, a), w) ∧ w.toList = front := by
  cases hp : v.pop? with
  | none =>
    unfold pop? at hp
    split at hp
    · rename_i hback
      simp only [toList, Array.back?_eq_none_iff.1 hback, Array.toList_empty, List.map_nil] at h
      exact absurd h (by simp)
    · cases hp
  | some taken =>
    obtain ⟨⟨offset, b⟩, w⟩ := taken
    obtain ⟨hfront, hlast⟩ := List.append_inj' (h.symm.trans (toList_of_pop? hp)) rfl
    cases hlast
    exact ⟨offset, w, rfl, hfront.symm⟩

@[simp] theorem toList_map {α : Type} (f : α → α) (v : SlotVec α) :
    (v.map f).toList = v.toList.map f := by
  simp [toList, map]

variable {α : Type} [SlotWidth α]

@[simp] theorem toList_push (v : SlotVec α) (a : α) : (v.push a).toList = v.toList ++ [a] := by
  simp [toList, push]

@[simp] theorem nextOffset_push (v : SlotVec α) (a : α) :
    (v.push a).nextOffset = v.nextOffset + SlotWidth.width a := rfl

theorem append_nil (v : SlotVec α) : v.append [] = v := rfl

theorem append_cons (v : SlotVec α) (a : α) (rest : List α) :
    v.append (a :: rest) = (v.push a).append rest := rfl

theorem append_append (v : SlotVec α) (as bs : List α) :
    v.append (as ++ bs) = (v.append as).append bs := List.foldl_append

@[simp] theorem toList_append (v : SlotVec α) (values : List α) :
    (v.append values).toList = v.toList ++ values := by
  induction values generalizing v with
  | nil => simp [append_nil]
  | cons a rest ih => rw [append_cons, ih, toList_push, List.append_assoc, List.singleton_append]

@[simp] theorem nextOffset_append (v : SlotVec α) (values : List α) :
    (v.append values).nextOffset = v.nextOffset + total SlotWidth.width values := by
  induction values generalizing v with
  | nil => simp [append_nil]
  | cons a rest ih => rw [append_cons, ih, nextOffset_push, total_cons, Nat.add_assoc]

@[simp] theorem start_append (v : SlotVec α) (values : List α) :
    (v.append values).start = v.start := by
  induction values generalizing v with
  | nil => rfl
  | cons a rest ih => exact ih (v.push a)

theorem ofList_nil : (ofList [] : SlotVec α) = empty := rfl

theorem ofList_concat (values : List α) (a : α) :
    ofList (values ++ [a]) = (ofList values).push a := append_append empty values [a]

@[simp] theorem toList_ofList (values : List α) : (ofList values).toList = values := by
  simp [ofList]

@[simp] theorem nextOffset_ofList (values : List α) :
    (ofList values).nextOffset = total SlotWidth.width values := by
  simp [ofList, empty, startingAt]

/-- Entries stay where they are. -/
theorem mem_append {v : SlotVec α} {e : Nat × α} (h : e ∈ v.entries.toList) (values : List α) :
    e ∈ (v.append values).entries.toList := by
  induction values generalizing v with
  | nil => exact h
  | cons a rest ih =>
    refine ih ?_
    rw [push, Array.toList_push]
    exact List.mem_append_left _ h

theorem laid_append {v : SlotVec α} (hv : v.Laid) (values : List α) : (v.append values).Laid := by
  induction values generalizing v with
  | nil => exact hv
  | cons a rest ih => exact ih (hv.push a)

theorem laid_ofList (values : List α) : (ofList values).Laid :=
  laid_append (.startingAt 0) values

theorem pop?_push (v : SlotVec α) (a : α) : (v.push a).pop? = some ((v.nextOffset, a), v) := by
  simp [pop?, push]

/-- Popping takes the last entry of the list. -/
theorem pop?_ofList_cases (values : List α) :
    (values = [] ∧ (ofList values).pop? = none) ∨
      ∃ front a, values = front ++ [a] ∧
        (ofList values).pop? = some ((total SlotWidth.width front, a), ofList front) := by
  rcases List.eq_nil_or_concat values with rfl | ⟨front, a, rfl⟩
  · exact Or.inl ⟨rfl, rfl⟩
  · refine Or.inr ⟨front, a, List.concat_eq_append, ?_⟩
    rw [List.concat_eq_append, ofList_concat, pop?_push, nextOffset_ofList]

theorem map_push (f : α → α) (hf : ∀ a, SlotWidth.width (f a) = SlotWidth.width a)
    (v : SlotVec α) (a : α) : (v.push a).map f = (v.map f).push (f a) := by
  simp [map, push, hf]

/-- A change of the entries that keeps their widths moves nothing. -/
theorem map_ofList (f : α → α) (hf : ∀ a, SlotWidth.width (f a) = SlotWidth.width a)
    (values : List α) : (ofList values).map f = ofList (values.map f) := by
  induction values using List.reverseRecOn with
  | nil => simp [map, ofList_nil, empty, startingAt]
  | append_singleton front a ih =>
    rw [ofList_concat, map_push f hf, ih, List.map_append, List.map_singleton, ofList_concat]

/-- The entries of a vector that was built by pushes take up the slots from its start on. -/
theorem Laid.nextOffset_eq {v : SlotVec α} (hv : v.Laid) :
    v.nextOffset = v.start + total SlotWidth.width v.toList := by
  induction hv with
  | startingAt start => rfl
  | @push v value _ ih =>
    rw [nextOffset_push, ih, toList_push, total_append, total_cons, total_nil, Nat.add_zero,
      ← Nat.add_assoc]
    rfl

theorem Laid.pop {v w : SlotVec α} {entry : Nat × α} (hv : v.Laid)
    (h : v.pop? = some (entry, w)) : w.Laid ∧ w.start = v.start := by
  cases hv with
  | startingAt start => cases h
  | push value hv =>
    rw [pop?_push] at h
    cases h
    exact ⟨hv, rfl⟩

theorem Laid.map {v : SlotVec α} (hv : v.Laid) {f : α → α}
    (hf : ∀ a, SlotWidth.width (f a) = SlotWidth.width a) : (v.map f).Laid := by
  induction hv with
  | startingAt start =>
    have hnone : (SlotVec.startingAt start).map f = SlotVec.startingAt start := by
      simp [SlotVec.map, SlotVec.startingAt]
    rw [hnone]
    exact .startingAt start
  | push value _ ih =>
    rw [map_push f hf]
    exact ih.push _

theorem measured_empty : (empty : SlotVec α).Measured where
  offset _ _ _ h := by simp [empty, startingAt] at h
  nextOffset := rfl

theorem Measured.push {v : SlotVec α} (hv : v.Measured) (a : α) : (v.push a).Measured where
  offset index offset value h := by
    rw [SlotVec.push, Array.getElem?_push] at h
    rw [toList_push]
    split at h
    · rename_i hindex
      cases h
      rw [hindex, ← length_toList, List.take_left]
      exact hv.nextOffset
    · have hlt := (Array.getElem?_eq_some_iff.1 h).1
      rw [List.take_append_of_le_length (by rw [length_toList]; omega)]
      exact hv.offset index offset value h
  nextOffset := by
    rw [nextOffset_push, hv.nextOffset, toList_push, total_append]
    rfl

theorem Measured.pop {v w : SlotVec α} {entry : Nat × α} (hv : v.Measured)
    (h : v.pop? = some (entry, w)) : w.Measured := by
  obtain ⟨hentries, hnext⟩ := entries_of_pop? h
  have hlist := toList_of_pop? h
  constructor
  · intro index offset value hget
    have hlt := (Array.getElem?_eq_some_iff.1 hget).1
    have hold : v.entries[index]? = some (offset, value) := by
      rw [hentries, Array.getElem?_push_lt hlt, ← Array.getElem?_eq_getElem hlt, hget]
    rw [hv.offset index offset value hold, hlist,
      List.take_append_of_le_length (by rw [length_toList]; omega)]
  · have hlast : v.entries[w.entries.size]? = some entry := by
      rw [hentries, Array.getElem?_push_size]
    rw [hnext, hv.offset _ _ _ hlast, hlist, ← length_toList, List.take_left]

theorem Measured.map {v : SlotVec α} (hv : v.Measured) {f : α → α}
    (hf : ∀ a, SlotWidth.width (f a) = SlotWidth.width a) : (v.map f).Measured where
  offset index offset value h := by
    simp only [SlotVec.map, Array.getElem?_map, Option.map_eq_some_iff, Prod.mk.injEq] at h
    obtain ⟨entry, hentry, rfl, -⟩ := h
    rw [toList_map, ← List.map_take, total_map]
    simp only [hf]
    exact hv.offset index entry.1 entry.2 hentry
  nextOffset := by
    rw [toList_map, total_map]
    simp only [hf]
    exact hv.nextOffset

theorem measured_ofList (values : List α) : (ofList values).Measured := by
  induction values using List.reverseRecOn with
  | nil => exact measured_empty
  | append_singleton front a ih =>
    rw [ofList_concat]
    exact ih.push a

/-- Offsets ascend from the start to the next offset, where every entry takes up a slot. -/
theorem ascending_of_laid {v : SlotVec α} (hw : ∀ a ∈ v.toList, 0 < SlotWidth.width a)
    (h : v.Laid) :
    v.entries.toList.Pairwise (fun x y => x.1 < y.1) ∧
      (∀ e ∈ v.entries.toList, v.start ≤ e.1 ∧ e.1 + SlotWidth.width e.2 ≤ v.nextOffset) ∧
      v.start ≤ v.nextOffset := by
  induction h with
  | startingAt start => simp [startingAt]
  | @push v a _ ih =>
    rw [toList_push] at hw
    have hpos : ∀ e ∈ v.entries.toList, 0 < SlotWidth.width e.2 := fun e he =>
      hw e.2 (List.mem_append_left _ (List.mem_map_of_mem he))
    obtain ⟨hsorted, hbound, hstart⟩ := ih fun x hx => hw x (List.mem_append_left _ hx)
    refine ⟨?_, ?_, ?_⟩
    · rw [push, Array.toList_push, List.pairwise_append]
      refine ⟨hsorted, List.pairwise_singleton _ _, fun x hx y hy => ?_⟩
      obtain rfl := List.mem_singleton.1 hy
      have := hpos x hx
      have := (hbound x hx).2
      simp only
      omega
    · intro e he
      rw [push, Array.toList_push, List.mem_append, List.mem_singleton] at he
      rcases he with he | rfl
      · obtain ⟨h1, h2⟩ := hbound e he
        exact ⟨h1, Nat.le_trans h2 (Nat.le_add_right _ _)⟩
      · exact ⟨hstart, Nat.le_refl _⟩
    · exact Nat.le_trans hstart (Nat.le_add_right _ _)

/-- An entry is found where it starts. -/
theorem locate_of_entry {v : SlotVec α} (hw : ∀ a ∈ v.toList, 0 < SlotWidth.width a) (h : v.Laid)
    {offset k : Nat} {a : α} (hentry : v.entries[k]? = some (offset, a)) :
    v.locate offset = .found k a := by
  obtain ⟨hk, hget⟩ := Array.getElem?_eq_some_iff.1 hentry
  have hkey : v.entries.toList[k].1 = offset := by rw [Array.getElem_toList, hget]
  have hindex := partitionPoint_of_sorted (ascending_of_laid hw h).1 hk hkey
  unfold locate
  generalize hp : partitionPoint v.entries.size _ = index
  obtain rfl : index = k := hp.symm.trans hindex
  simp only [hentry, if_true]

omit [SlotWidth α] in
/-- What is found is an entry that starts there. -/
theorem entry_of_locate {v : SlotVec α} {offset k : Nat} {a : α}
    (h : v.locate offset = .found k a) : v.entries[k]? = some (offset, a) := by
  unfold locate at h
  simp only at h
  split at h
  · cases h
  · rename_i start value hentry
    split at h
    · rename_i heq
      subst heq
      cases h
      exact hentry
    · cases h

/-- An entry is found at its offset. -/
theorem get?_of_mem (hw : ∀ a : α, 0 < SlotWidth.width a) {v : SlotVec α} (h : v.Laid)
    {offset : Nat} {a : α} (ha : (offset, a) ∈ v.entries.toList) : v.get? offset = some a := by
  obtain ⟨k, hk⟩ := Array.getElem?_of_mem (Array.mem_toList_iff.1 ha)
  rw [get?, locate_of_entry (fun a _ => hw a) h hk]
  rfl

omit [SlotWidth α] in
/-- What is found at an offset is an entry. -/
theorem mem_of_get? {v : SlotVec α} {offset : Nat} {a : α} (h : v.get? offset = some a) :
    (offset, a) ∈ v.entries.toList := by
  unfold get? at h
  cases hl : v.locate offset with
  | found k b =>
    rw [hl] at h
    cases h
    exact Array.mem_toList_iff.2 (Array.mem_of_getElem? (entry_of_locate hl))
  | between k =>
    rw [hl] at h
    cases h
  | beyond =>
    rw [hl] at h
    cases h

end JvmClass.SlotVec
