import JvmClass.Proofs.SlotHistory

/-!
# Offsets at which no entry starts

A lookup that finds nothing answers with the place where an entry that started at the offset would
have to stand. That is the place behind the entry that contains the offset, and not that entry's
own; and inside the last entry it is the end, as it is for offsets that lie past all entries
(`SlotVec.locate_missing`).
-/

namespace JvmClass.SlotVec

variable {α : Type} [SlotWidth α]

/-- The offset lies behind the start of the entry at an index, and before its end. -/
def Within (v : SlotVec α) (offset index : Nat) : Prop :=
  ∃ start a, v.entries[index]? = some (start, a) ∧ start < offset ∧
    offset < start + SlotWidth.width a

section Starts

variable {v : SlotVec α} {i s s' : Nat} {a b : α}

omit [SlotWidth α] in
theorem value_of_entry (hi : v.entries[i]? = some (s, a)) : v.toList[i]? = some a := by
  rw [toList, List.getElem?_map, Array.getElem?_toList, hi]
  rfl

/-- The offset of an entry, by its place among the entries. -/
theorem Laid.start_eq (h : v.Laid) (hi : v.entries[i]? = some (s, a)) :
    s = v.start + total SlotWidth.width (v.toList.take i) := by
  have hitem : v.items[i]? = some ⟨s, i, a⟩ := getElem?_items.2 ⟨hi, rfl⟩
  exact h.offset_eq hitem

/-- The slots up to the end of an entry. -/
theorem Laid.end_eq (h : v.Laid) (hi : v.entries[i]? = some (s, a)) :
    s + SlotWidth.width a = v.start + total SlotWidth.width (v.toList.take (i + 1)) := by
  rw [h.start_eq hi, List.take_add_one, value_of_entry hi, total_append, Option.toList_some,
    total_cons, total_nil]
  omega

/-- An entry ends where the one behind it starts. -/
theorem Laid.end_eq_start (h : v.Laid) (hi : v.entries[i]? = some (s, a))
    (hnext : v.entries[i + 1]? = some (s', b)) : s + SlotWidth.width a = s' :=
  (h.end_eq hi).trans (h.start_eq hnext).symm

/-- The last entry ends where the next one to be added will start. -/
theorem Laid.end_eq_nextOffset (h : v.Laid) (hi : v.entries[i]? = some (s, a))
    (hlast : i + 1 = v.size) : s + SlotWidth.width a = v.nextOffset := by
  rw [h.end_eq hi, h.nextOffset_eq, List.take_of_length_le]
  rw [length_toList]
  exact Nat.le_of_eq hlast.symm

end Starts

section Lookups

variable {v : SlotVec α} {offset k : Nat}

/-- Where halving stops, the entries that start before the offset end. What stands there decides the
answer. -/
theorem locate_splits (hw : ∀ a ∈ v.toList, 0 < SlotWidth.width a) (h : v.Laid) (offset : Nat) :
    ∃ p ≤ v.size, (∀ i s a, v.entries[i]? = some (s, a) → (i < p ↔ s < offset)) ∧
      v.locate offset = match v.entries[p]? with
        | none => .beyond
        | some (s, a) => if s = offset then .found p a else .between p := by
  obtain ⟨hle, hsplit⟩ := partitionPoint_splits (ascending_of_laid hw h).1 offset
  refine ⟨_, hle, fun i s a hi => ?_, rfl⟩
  obtain ⟨hlt, hget⟩ := Array.getElem?_eq_some_iff.1 hi
  rw [hsplit i hlt, hget]

/-- An offset within an entry is answered with the index of the entry behind that one. -/
theorem locate_eq_between_iff (hw : ∀ a ∈ v.toList, 0 < SlotWidth.width a) (h : v.Laid)
    (hstart : v.start ≤ offset) :
    v.locate offset = .between k ↔ ∃ i, i + 1 = k ∧ k < v.size ∧ v.Within offset i := by
  obtain ⟨p, -, hsplit, hlocate⟩ := locate_splits hw h offset
  rw [hlocate]
  constructor
  · intro hbetween
    split at hbetween
    · cases hbetween
    · rename_i s a hp
      split at hbetween
      · cases hbetween
      · rename_i hne
        cases hbetween
        have hk := (Array.getElem?_eq_some_iff.1 hp).1
        have hs : ¬ s < offset := fun hs => Nat.lt_irrefl k ((hsplit k s a hp).2 hs)
        cases k with
        | zero =>
          -- the first entry starts where the vector does, and so not behind the offset
          have hfirst : s = v.start := h.start_eq hp
          omega
        | succ i =>
          obtain ⟨⟨s', b⟩, hi⟩ : ∃ e, v.entries[i]? = some e :=
            ⟨_, Array.getElem?_eq_getElem (Nat.lt_of_succ_lt hk)⟩
          have hend := h.end_eq_start hi hp
          have hbefore := (hsplit i s' b hi).1 (Nat.lt_succ_self i)
          exact ⟨i, rfl, hk, s', b, hi, hbefore, by omega⟩
  · rintro ⟨i, rfl, hk, s, a, hi, hs, he⟩
    obtain ⟨⟨s', b⟩, hnext⟩ : ∃ e, v.entries[i + 1]? = some e := ⟨_, Array.getElem?_eq_getElem hk⟩
    have hend := h.end_eq_start hi hnext
    have hbefore := (hsplit i s a hi).2 hs
    have hafter : ¬ i + 1 < p := fun hp => by
      have := (hsplit (i + 1) s' b hnext).1 hp
      omega
    obtain rfl : p = i + 1 := by omega
    rw [hnext]
    exact if_neg (by omega)

/-- The answer that the offset lies past all entries is also given within the last one. -/
theorem locate_eq_beyond_iff (hw : ∀ a ∈ v.toList, 0 < SlotWidth.width a) (h : v.Laid)
    (hstart : v.start ≤ offset) :
    v.locate offset = .beyond ↔
      v.nextOffset ≤ offset ∨ ∃ i, i + 1 = v.size ∧ v.Within offset i := by
  obtain ⟨p, hle, hsplit, hlocate⟩ := locate_splits hw h offset
  have hbeyond : v.locate offset = .beyond ↔ p = v.size := by
    rw [hlocate]
    cases hp : v.entries[p]? with
    | none => simpa using Nat.le_antisymm hle (Array.getElem?_eq_none_iff.1 hp)
    | some e =>
      have hlt := (Array.getElem?_eq_some_iff.1 hp).1
      simp only
      split
      · exact ⟨nofun, fun heq => absurd heq (Nat.ne_of_lt hlt)⟩
      · exact ⟨nofun, fun heq => absurd heq (Nat.ne_of_lt hlt)⟩
  rw [hbeyond]
  rcases Nat.eq_zero_or_pos v.size with hnone | hpos
  · -- without entries the next one starts where the vector does
    have hnext : v.nextOffset = v.start := by
      rw [h.nextOffset_eq, List.eq_nil_of_length_eq_zero ((length_toList v).trans hnone), total_nil,
        Nat.add_zero]
    exact ⟨fun _ => Or.inl (hnext ▸ hstart), fun _ => by omega⟩
  · obtain ⟨i, hi⟩ : ∃ i, i + 1 = v.size := ⟨v.size - 1, by omega⟩
    obtain ⟨⟨s, a⟩, hlast⟩ : ∃ e, v.entries[i]? = some e :=
      ⟨_, Array.getElem?_eq_getElem (show i < v.size by omega)⟩
    have hend := h.end_eq_nextOffset hlast hi
    have hsplit := hsplit i s a hlast
    have hpos := hw a (List.mem_of_getElem? (value_of_entry hlast))
    constructor
    · intro hp
      have hs : s < offset := hsplit.1 (by omega)
      rcases Nat.lt_or_ge offset v.nextOffset with hlt | hge
      · exact Or.inr ⟨i, hi, s, a, hlast, hs, by omega⟩
      · exact Or.inl hge
    · intro hout
      have hs : s < offset := by
        rcases hout with hge | ⟨j, hj, s', b, hb, hs', -⟩
        · omega
        · obtain rfl : j = i := by omega
          rw [hlast] at hb
          cases hb
          exact hs'
      have := hsplit.2 hs
      omega

end Lookups

/-- **Lookups that find nothing.** After any pushes, pops, clearings and extensions with values that
take up slots, and for an offset from the start on: the index that is answered is that of the entry
behind the one that contains the offset; and the answer that the offset lies past all entries is
given exactly when it does so or lies within the last of them. -/
theorem locate_missing (start : Nat) (changes : List (Change α))
    (hw : ∀ change ∈ changes, ∀ a ∈ change.values, 0 < SlotWidth.width a) (offset : Nat)
    (hstart : start ≤ offset) :
    let v := (startingAt start).after changes
    (∀ k, v.locate offset = .between k ↔ ∃ i, i + 1 = k ∧ k < v.size ∧ v.Within offset i) ∧
      (v.locate offset = .beyond ↔
        v.nextOffset ≤ offset ∨ ∃ i, i + 1 = v.size ∧ v.Within offset i) := by
  intro v
  obtain ⟨hlaid, hv⟩ := laid_after (.startingAt start) changes
  have hwide : ∀ a ∈ v.toList, 0 < SlotWidth.width a := width_pos_after hw
  have hstart : v.start ≤ offset := hv.symm ▸ hstart
  exact ⟨fun k => locate_eq_between_iff hwide hlaid hstart, locate_eq_beyond_iff hwide hlaid hstart⟩

/-- The second slot of a double that has a float behind it. -/
theorem locate_missing_stackChanges :
    (∀ change ∈ stackChanges, ∀ a ∈ change.values, 0 < SlotWidth.width a) ∧ 1 ≤ 3 ∧
    ((startingAt 1).after stackChanges).locate 3 = .between 2 := by
  have hw : ∀ change ∈ stackChanges, ∀ a ∈ change.values, 0 < SlotWidth.width a := by decide
  have hwithin : ((startingAt 1).after stackChanges).Within 3 1 :=
    ⟨2, .double, rfl, by decide, by decide⟩
  obtain ⟨hbetween, -⟩ := locate_missing 1 stackChanges hw 3 (by decide)
  exact ⟨hw, by decide, (hbetween 2).2 ⟨1, rfl, by decide, hwithin⟩⟩

/-- The second slot of a long: with an int behind it the answer is not the index of the long, and
alone the answer is that the offset lies past it. -/
theorem locate_not_containing :
    let v : SlotVec VType := (startingAt 0).after [.push .long, .push .int]
    let w : SlotVec VType := (startingAt 0).after [.push .long]
    (v.Within 1 0 ∧ v.locate 1 ≠ .between 0) ∧ ¬ (w.locate 1 = .beyond ↔ w.nextOffset ≤ 1) := by
  intro v w
  have hv : v.Within 1 0 := ⟨0, .long, rfl, by decide, by decide⟩
  have hw : w.Within 1 0 := ⟨0, .long, rfl, by decide, by decide⟩
  have hlaid (values : List VType) : (ofList values).Laid := laid_ofList values
  have hbetween : v.locate 1 = .between 1 :=
    (locate_eq_between_iff (fun a _ => VerificationType.width_pos a) (hlaid [.long, .int])
      (by decide)).2 ⟨0, rfl, by decide, hv⟩
  have hbeyond : w.locate 1 = .beyond :=
    (locate_eq_beyond_iff (fun a _ => VerificationType.width_pos a) (hlaid [.long])
      (by decide)).2 (Or.inr ⟨0, rfl, hw⟩)
  refine ⟨⟨hv, ?_⟩, fun h => absurd (h.1 hbeyond) (by decide)⟩
  rw [hbetween]
  exact nofun

end JvmClass.SlotVec
