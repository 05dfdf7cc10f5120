import JvmClass.Proofs.Typing.CaughtJoins
import JvmClass.Proofs.Typing.Frames
import JvmClass.Typing.Merge

/-!
# Merges slot by slot

A merge of regular frames is regular again. Its stack holds the joins of the entries, and its locals
the meets of the slots, where missing slots read as `top`; trailing slots that hold `top` may be
dropped. A merge that reports no change leaves the very frame that there was.
-/

namespace JvmClass

namespace Frame

variable {h g : Hierarchy} {f k m : Frame}

/-- The meets of all locals with those of another frame. -/
def metLocals (h : Hierarchy) (f k : Frame) : Array VType :=
  f.locals.mapIdx fun slot t => t.meet h (k.local? slot)

@[simp] theorem size_metLocals (h : Hierarchy) (f k : Frame) :
    (metLocals h f k).size = f.locals.size := by
  simp [metLocals]

theorem getElem?_metLocals (h : Hierarchy) (f k : Frame) (slot : Nat) :
    (metLocals h f k)[slot]? = (f.locals[slot]?).map fun t => t.meet h (k.local? slot) := by
  simp [metLocals]

theorem metLocals_getD (h : Hierarchy) (f k : Frame) (slot : Nat) :
    (metLocals h f k)[slot]?.getD .top = (f.local? slot).meet h (k.local? slot) := by
  rw [getElem?_metLocals, local?.eq_1 f]
  cases f.locals[slot]? with
  | none => simp
  | some t => rfl

end Frame

theorem VType.width_join {h : Hierarchy} {a b c : VType} (hj : a.join h b = some c) :
    a.width = c.width ∧ b.width = c.width := by
  rcases join_cases hj with ⟨rfl, rfl⟩ | ⟨rfl, ⟨t, rfl⟩, rfl⟩ | ⟨⟨r, rfl⟩, rfl, rfl⟩ |
    ⟨r, t, -, rfl, rfl, rfl⟩ <;> exact ⟨rfl, rfl⟩

/-- Only equal types have a wide meet. -/
theorem VType.eq_of_meet_width {h : Hierarchy} {a b : VType} (hw : (a.meet h b).width = 2) :
    a.meet h b = a := by
  unfold meet at hw ⊢
  cases hj : a.join h b with
  | none =>
    rw [hj] at hw
    cases hw
  | some c =>
    rw [hj] at hw
    rcases join_cases hj with ⟨-, rfl⟩ | ⟨-, ⟨t, rfl⟩, rfl⟩ | ⟨⟨r, rfl⟩, -, rfl⟩ |
      ⟨r, t, -, -, -, rfl⟩
    · rfl
    · cases hw
    · cases hw
    · cases hw

namespace Frame

variable {h g : Hierarchy} {f k m : Frame}

theorem upperHalves_metLocals (hf : UpperHalves f.locals) : UpperHalves (metLocals h f k) := by
  intro slot t ht hw
  rw [getElem?_metLocals, Option.map_eq_some_iff] at ht
  obtain ⟨a, ha, rfl⟩ := ht
  rw [VType.eq_of_meet_width hw] at hw
  rw [getElem?_metLocals, hf slot a ha hw]
  simp

/-- The meet of a slot comes next after those of the slots before. -/
theorem toList_push_met {slot : Nat} {met : Array VType} {t : VType}
    (hm : met.toList = (metLocals h f k).toList.take slot)
    (ht : (metLocals h f k)[slot]? = some t) :
    (met.push t).toList = (metLocals h f k).toList.take (slot + 1) := by
  rw [Array.toList_push, List.take_add_one, hm, Array.getElem?_toList, ht]
  rfl

/-- Taking a wide meet together with its upper half amounts to meeting slot by slot. -/
theorem meetLocals_eq_of_take (hf : UpperHalves f.locals) (slot : Nat) (met : Array VType)
    (hm : met.toList = (metLocals h f k).toList.take slot) :
    meetLocals h f k slot met = metLocals h f k := by
  induction hn : f.locals.size - slot using Nat.strongRecOn generalizing slot met with
  | _ n ih =>
    unfold meetLocals
    by_cases hlt : slot < f.locals.size
    · have hget : (metLocals h f k)[slot]? =
          some (VType.meet h f.locals[slot] (k.local? slot)) := by
        rw [getElem?_metLocals, Array.getElem?_eq_getElem hlt]
        rfl
      rw [dif_pos hlt]
      generalize VType.meet h f.locals[slot] (k.local? slot) = t at hget
      have hpush := toList_push_met hm hget
      by_cases hw : t.width = 2
      · have hnext := upperHalves_metLocals hf slot t hget hw
        simp only [hw, if_true]
        exact ih _ (by omega) _ _ (toList_push_met hpush hnext) rfl
      · have h1 : t.width = 1 := by
          cases t <;> first | rfl | exact absurd rfl hw
        simp only [h1, Nat.reduceEqDiff, if_false]
        exact ih _ (by omega) _ _ hpush rfl
    · rw [dif_neg hlt]
      apply Array.toList_inj.1
      rw [hm]
      apply List.take_of_length_le
      simp only [Array.length_toList, size_metLocals]
      omega

theorem meetLocals_eq (hf : UpperHalves f.locals) :
    meetLocals h f k 0 #[] = metLocals h f k :=
  meetLocals_eq_of_take hf 0 #[] rfl

/-- Only `top` entries at the end are dropped. -/
theorem trimLocals_append (locals : Array VType) :
    ∃ dropped, (trimLocals locals).toList ++ List.replicate dropped .top = locals.toList := by
  induction hn : locals.size using Nat.strongRecOn generalizing locals with
  | _ n ih =>
    unfold trimLocals
    split
    · exact ⟨0, by simp⟩
    · split
      · rename_i hne hc
        obtain ⟨dropped, hd⟩ := ih (locals.size - 1) (by omega) locals.pop (by simp)
        refine ⟨dropped + 1, ?_⟩
        rw [List.replicate_succ', ← List.append_assoc, hd, Array.toList_pop]
        have hlast : locals[locals.size - 1] = VerificationType.top := by
          simp only [Bool.and_eq_true, decide_eq_true_eq] at hc
          exact hc.1
        have hnil : locals.toList ≠ [] := by
          intro he
          apply hne
          rw [← Array.length_toList, he]
          rfl
        conv_rhs => rw [← List.dropLast_concat_getLast hnil]
        congr 2
        rw [← hlast, List.getLast_eq_getElem]
        simp
      · exact ⟨0, by simp⟩

/-- Trimming keeps what the slots read as. -/
theorem trimLocals_getD (locals : Array VType) (slot : Nat) :
    (trimLocals locals)[slot]?.getD .top = locals[slot]?.getD .top := by
  obtain ⟨dropped, hd⟩ := trimLocals_append locals
  rw [← Array.getElem?_toList, ← Array.getElem?_toList, ← hd, List.getElem?_append]
  split
  · rfl
  · rename_i hlt
    rw [List.getElem?_eq_none (by omega), List.getElem?_replicate]
    split <;> rfl

/-- The upper half of a wide local is not trimmed. -/
theorem upperHalves_trimLocals {locals : Array VType} (hl : UpperHalves locals) :
    UpperHalves (trimLocals locals) := by
  induction hn : locals.size using Nat.strongRecOn generalizing locals with
  | _ n ih =>
    unfold trimLocals
    split
    · exact hl
    · split
      · rename_i hne hc
        refine ih (locals.size - 1) (by omega) ?_ (by simp)
        intro slot t ht hw
        rw [Array.getElem?_pop] at ht ⊢
        split at ht
        · rename_i hlt
          have hnext := hl slot t ht hw
          split
          · exact hnext
          · -- The wide local would be the last but one, and its upper half is kept.
            have hbound := (Array.getElem?_eq_some_iff.1 hnext).1
            have hslot : slot = locals.size - 2 := by omega
            subst hslot
            have htwo : 2 ≤ locals.size := by omega
            simp [ht, hw, htwo] at hc
        · cases ht
      · exact hl

/-- The entries of a stack join with those of another, one by one. -/
inductive Joins (h : Hierarchy) : List VType → List VType → List VType → Prop where
  | nil : Joins h [] [] []
  | cons {a b c : VType} {as bs cs : List VType} (head : a.join h b = some c)
    (tail : Joins h as bs cs) : Joins h (a :: as) (b :: bs) (c :: cs)

theorem joinStack_iff {as bs cs : List VType} : joinStack h as bs = some cs ↔ Joins h as bs cs := by
  constructor
  · intro hj
    induction as generalizing bs cs with
    | nil =>
      cases bs with
      | nil =>
        cases hj
        exact .nil
      | cons b bs => cases hj
    | cons a as ih =>
      cases bs with
      | nil => cases hj
      | cons b bs =>
        unfold joinStack at hj
        split at hj
        · cases hj
        · rename_i c hc
          obtain ⟨tail, ht, rfl⟩ := Option.map_eq_some_iff.1 hj
          exact .cons hc (ih ht)
  · intro hj
    induction hj with
    | nil => rfl
    | cons head tail ih => simp [joinStack, head, ih]

/-- Stacks whose entries join are as high as the stack of the joins. -/
theorem Joins.total_eq {as bs cs : List VType} (hj : Joins g as bs cs) :
    total VerificationType.width as = total VerificationType.width cs ∧
      total VerificationType.width bs = total VerificationType.width cs := by
  induction hj with
  | nil => exact ⟨rfl, rfl⟩
  | cons head tail ih =>
    obtain ⟨ha, hb⟩ := VType.width_join head
    simp only [total_cons, ha, hb, ih, and_self]

/-- What a merge of regular frames gives. -/
structure Merged (g h : Hierarchy) (f k m : Frame) : Prop where
  joins : Joins g f.stack.toList k.stack.toList m.stack.toList
  locals : m.locals = trimLocals (metLocals h f k)
  regular : m.Regular

theorem merged_of_upperHalves (hf : UpperHalves f.locals) (hm : mergeBy? g h f k = some m) :
    Merged g h f k m := by
  unfold mergeBy? at hm
  split at hm
  · cases hm
  · rename_i types htypes
    simp only at hm
    split at hm
    · cases hm
      refine ⟨?_, ?_, ?_, ?_⟩
      · rw [SlotVec.toList_ofList]
        exact joinStack_iff.1 htypes
      · simp only [meetLocals_eq hf]
      · simp only [meetLocals_eq hf]
        exact upperHalves_trimLocals (upperHalves_metLocals hf)
      · simp only [SlotVec.toList_ofList]
    · cases hm

theorem merged_of_mergeBy? (hf : f.Regular) (hm : mergeBy? g h f k = some m) :
    Merged g h f k m := merged_of_upperHalves hf.upperHalves hm

/-- Stacks whose entries join to as many slots merge. -/
theorem mergeBy?_of_height {types : List VType}
    (hj : Joins g f.stack.toList k.stack.toList types)
    (hw : total VerificationType.width types = f.stack.nextOffset) :
    ∃ m, mergeBy? g h f k = some m ∧ m.stack.toList = types := by
  have hoff : (SlotVec.ofList types).nextOffset = f.stack.nextOffset := by
    rw [SlotVec.nextOffset_ofList]
    exact hw
  refine ⟨⟨trimLocals (meetLocals h f k 0 #[]), SlotVec.ofList types⟩, ?_,
    SlotVec.toList_ofList types⟩
  unfold mergeBy?
  rw [joinStack_iff.2 hj]
  simp only [hoff, if_true]

theorem mergeBy?_of_joins (hf : f.Regular) {types : List VType}
    (hj : Joins g f.stack.toList k.stack.toList types)
    (hw : total VerificationType.width types = total VerificationType.width f.stack.toList) :
    ∃ m, mergeBy? g h f k = some m ∧ m.stack.toList = types :=
  mergeBy?_of_height hj (hw.trans hf.wellFormed.measured.nextOffset.symm)

/-- Every local of a merge is the meet of the two locals. -/
theorem Merged.local? (hm : Merged g h f k m) (slot : Nat) :
    m.local? slot = (f.local? slot).meet h (k.local? slot) := by
  rw [← metLocals_getD, ← trimLocals_getD, ← hm.locals]
  rfl

/-- A merge that reports no change leaves the frame as it is. -/
theorem Merged.eq_of_unchanged (hf : f.Regular) (hm : Merged g h f k m)
    (hc : f.changedBy m = false) : m = f := by
  simp only [changedBy, Bool.or_eq_false_iff, bne_eq_false_iff_eq] at hc
  exact (hf.ext hm.regular hc.2 hc.1).symm

end Frame

end JvmClass
