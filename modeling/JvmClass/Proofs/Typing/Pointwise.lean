import JvmClass.Proofs.Typing.Merging
import JvmClass.Proofs.Typing.Semilattice

/-!
# A merge is the join of two frames

The stack of a merge holds the joins of the entries, and every slot reads as the meet of the two
slots. Locals that are trimmed and keep the rule for wide ones are given by what their slots read as
(`Frame.eq_of_trimmed`). So merging the same frame again changes nothing, and where meets do not
depend on the order of the types, neither does a merge (`Frame.merge_pointwise`).
-/

namespace JvmClass

namespace Frame

variable {h : Hierarchy} {f k m n : Frame} {locals others : Array VType}

/-- Nothing is left to be dropped: the last slot is in use, or is the upper half of a wide local. -/
def Trimmed (locals : Array VType) : Prop :=
  ∀ last, locals.size = last + 1 → locals[last]? = some .top →
    ∃ below, last = below + 1 ∧ (locals[below]?.getD .top).width = 2

/-- Every slot reads the same, a missing one as `top`. -/
def ReadAlike (locals others : Array VType) : Prop :=
  ∀ slot : Nat, locals[slot]?.getD .top = others[slot]?.getD .top

theorem trimmed_trimLocals (locals : Array VType) : Trimmed (trimLocals locals) := by
  induction hn : locals.size using Nat.strongRecOn generalizing locals with
  | _ n ih =>
    unfold trimLocals
    split
    · intro last hlast
      omega
    · split
      · exact ih (locals.size - 1) (by omega) locals.pop (by simp)
      · rename_i hc
        intro last hlast htop
        have hsize : locals.size - 1 = last := by omega
        have hget : locals[locals.size - 1] = VerificationType.top := by
          obtain ⟨_, he⟩ := Array.getElem?_eq_some_iff.1 htop
          simp only [hsize, he]
        simp only [hget, decide_true, Bool.true_and, Bool.not_eq_true', Bool.not_eq_false,
          Bool.and_eq_true, decide_eq_true_eq] at hc
        exact ⟨locals.size - 2, by omega, hc.2⟩

theorem trimLocals_of_trimmed (ht : Trimmed locals) : trimLocals locals = locals := by
  unfold trimLocals
  split
  · rfl
  · split
    · rename_i hne hc
      simp only [Bool.and_eq_true, decide_eq_true_eq, Bool.not_eq_true', decide_eq_false_iff_not,
        Bool.and_eq_false_imp] at hc
      obtain ⟨below, hlast, hw⟩ := ht (locals.size - 1) (by omega)
        (Array.getElem?_eq_some_iff.2 ⟨by omega, hc.1⟩)
      have hbelow : locals.size - 2 = below := by omega
      exact absurd hw (hbelow ▸ hc.2 (by omega))
    · rfl

/-- Trimmed locals have no slot that others which read as they do lack: a last one that reads as
`top` is the upper half of a wide local, which the others have as well. -/
theorem size_le_of_trimmed (ho : Trimmed others) (hl : UpperHalves locals)
    (hread : ReadAlike locals others) : others.size ≤ locals.size := by
  by_contra hlt
  obtain ⟨last, hsize⟩ : ∃ last, others.size = last + 1 := ⟨others.size - 1, by omega⟩
  have hmissing : locals[last]? = none := Array.getElem?_eq_none (by omega)
  have htop : others[last]? = some .top := by
    have hhas : others[last]? = some others[last] := Array.getElem?_eq_getElem (by omega)
    have hreads := hread last
    rw [hmissing, hhas] at hreads
    rw [hhas]
    exact congrArg some hreads.symm
  obtain ⟨below, rfl, hw⟩ := ho last hsize htop
  rw [← hread below] at hw
  cases hwide : locals[below]? with
  | none =>
    rw [hwide] at hw
    cases hw
  | some type =>
    rw [hwide] at hw
    rw [hl below type hwide hw] at hmissing
    cases hmissing

/-- Trimmed locals are given by what their slots read as. -/
theorem eq_of_trimmed (hl : UpperHalves locals) (ho : UpperHalves others) (htl : Trimmed locals)
    (hto : Trimmed others) (hread : ReadAlike locals others) :
    locals = others := by
  have hsize : locals.size = others.size := Nat.le_antisymm
    (size_le_of_trimmed htl ho fun slot => (hread slot).symm) (size_le_of_trimmed hto hl hread)
  apply Array.ext hsize
  intro slot h1 h2
  have hreads := hread slot
  rwa [Array.getElem?_eq_getElem h1, Array.getElem?_eq_getElem h2] at hreads

theorem trimLocals_congr (hl : UpperHalves locals) (ho : UpperHalves others)
    (hread : ReadAlike locals others) :
    trimLocals locals = trimLocals others := by
  refine eq_of_trimmed (upperHalves_trimLocals hl) (upperHalves_trimLocals ho)
    (trimmed_trimLocals _) (trimmed_trimLocals _) fun slot => ?_
  rw [trimLocals_getD, trimLocals_getD, hread]

theorem Joins.unique {as bs cs ds : List VType} (hc : Joins h as bs cs) (hd : Joins h as bs ds) :
    cs = ds :=
  Option.some.inj ((joinStack_iff.2 hc).symm.trans (joinStack_iff.2 hd))

/-- The joins of entries cover what was joined in. -/
theorem Joins.absorbs (hl : h.Lawful) {as bs cs : List VType} (hj : Joins h as bs cs) :
    Joins h cs bs cs := by
  induction hj with
  | nil => exact .nil
  | cons head _ ih => exact .cons (VType.join_absorbs hl head) ih

theorem Joins.comm (hl : h.Semilattice) {as bs cs : List VType} (hj : Joins h as bs cs) :
    Joins h bs as cs := by
  induction hj with
  | nil => exact .nil
  | cons head _ ih =>
    rw [VType.join_comm hl] at head
    exact .cons head ih

/-- Meeting the locals of a merge with what was merged in changes none of them. -/
theorem Merged.metLocals_eq (hl : h.Lawful) (hm : Merged h h f k m) :
    metLocals h m k = m.locals := by
  apply Array.ext_getElem?
  intro slot
  rw [getElem?_metLocals]
  cases hget : m.locals[slot]? with
  | none => rfl
  | some t =>
    have ht : t = (f.local? slot).meet h (k.local? slot) := by
      rw [← hm.local? slot, Frame.local?, hget]
      rfl
    rw [ht, Option.map_some, VType.meet_absorbs hl]

/-- Merging a frame in again leaves the merge as it is. -/
theorem Merged.again (hl : h.Lawful) (hm : Merged h h f k m) : merge? h m k = some m := by
  obtain ⟨n, hn, hstack⟩ := mergeBy?_of_joins (h := h) hm.regular (hm.joins.absorbs hl) rfl
  have hagain := merged_of_mergeBy? hm.regular hn
  have hlocals : n.locals = m.locals := by
    rw [hagain.locals, hm.metLocals_eq hl]
    exact trimLocals_of_trimmed (hm.locals ▸ trimmed_trimLocals _)
  rw [merge?, hn, hagain.regular.ext hm.regular hlocals hstack]

/-- A merge does not depend on which frame is merged into which. -/
theorem Merged.comm (hl : h.Semilattice) (hf : UpperHalves f.locals) (hk : UpperHalves k.locals)
    (hm : Merged h h f k m) (hn : Merged h h k f n) : n = m := by
  refine hn.regular.ext hm.regular ?_ (hn.joins.unique (hm.joins.comm hl))
  rw [hn.locals, hm.locals]
  refine trimLocals_congr (upperHalves_metLocals hk) (upperHalves_metLocals hf) fun slot => ?_
  rw [metLocals_getD, metLocals_getD, VType.meet_comm hl]

theorem merge_of_some {label : Label} (hm : merge? h f k = some m) :
    f.merge h label k = (.ok (f.changedBy m), m) := by
  rw [merge, hm]
  rfl

theorem merge_cases {label : Label} {outcome : Except ClassError Bool}
    (hm : f.merge h label k = (outcome, m)) :
    ((∃ e, outcome = .error e) ∧ m = f) ∨ (∃ changed, outcome = .ok changed) ∧
      merge? h f k = some m := by
  cases hs : merge? h f k with
  | none =>
    rw [merge, hs] at hm
    cases hm
    exact Or.inl ⟨⟨_, rfl⟩, rfl⟩
  | some n =>
    rw [merge_of_some hs] at hm
    cases hm
    exact Or.inr ⟨⟨_, rfl⟩, rfl⟩

theorem merge?_of_ok {label : Label} {changed : Bool}
    (hm : f.merge h label k = (.ok changed, m)) : merge? h f k = some m := by
  rcases merge_cases hm with ⟨⟨e, he⟩, -⟩ | ⟨-, hs⟩
  · cases he
  · exact hs

/-- Frames whose stack entries join merge. -/
theorem merge?_of_joins (hf : f.stack.Measured) {types : List VType}
    (hj : Joins h f.stack.toList k.stack.toList types) : ∃ m, merge? h f k = some m := by
  have hheight : total VerificationType.width types = f.stack.nextOffset :=
    hj.total_eq.1.symm.trans hf.nextOffset.symm
  obtain ⟨m, hm, -⟩ := mergeBy?_of_height (h := h) hj hheight
  exact ⟨m, hm⟩

@[simp] theorem changedBy_self (f : Frame) : f.changedBy f = false := by simp [changedBy]

/-- A merge that fails leaves the frame, and it does not fail where all entries join. The merged
stack holds those joins, every slot reads as the meet of the two slots, and merging the same frame
again changes nothing. Where no class extends itself by way of others and the root extends nothing,
merging the other way round gives the same frame. -/
theorem merge_pointwise (s : Superclasses) (label : Label) (hf : UpperHalves f.locals)
    (hk : UpperHalves k.locals) :
    (∀ e m, f.merge s.hierarchy label k = (.error e, m) → m = f) ∧
    (∀ types, f.stack.Measured → Joins s.hierarchy f.stack.toList k.stack.toList types →
      ∃ changed m, f.merge s.hierarchy label k = (.ok changed, m)) ∧
    ∀ changed m, f.merge s.hierarchy label k = (.ok changed, m) →
      Joins s.hierarchy f.stack.toList k.stack.toList m.stack.toList ∧
      (∀ slot, m.local? slot = (f.local? slot).meet s.hierarchy (k.local? slot)) ∧
      m.merge s.hierarchy label k = (.ok false, m) ∧
      (s.Rooted →
        (∀ changed n, k.merge s.hierarchy label f = (.ok changed, n) → n = m) ∧
        (k.stack.Measured → ∃ changed, k.merge s.hierarchy label f = (.ok changed, m))) := by
  refine ⟨fun e m hm => ?_, fun types hstack hj => ?_, fun changed m hm => ?_⟩
  · rcases merge_cases hm with ⟨-, rfl⟩ | ⟨⟨changed, hc⟩, -⟩
    · rfl
    · cases hc
  · obtain ⟨m, hm⟩ := merge?_of_joins hstack hj
    exact ⟨_, m, merge_of_some hm⟩
  · have hsome := merge?_of_ok hm
    have hmerged : Merged s.hierarchy s.hierarchy f k m := merged_of_upperHalves hf hsome
    refine ⟨hmerged.joins, hmerged.local?, ?_, fun hs => ?_⟩
    · rw [merge_of_some (hmerged.again s.lawful), changedBy_self]
    · have hback : ∀ n, merge? s.hierarchy k f = some n → n = m := fun n hn =>
        hmerged.comm hs.semilattice hf hk (merged_of_upperHalves hk hn)
      refine ⟨fun changed n hn => hback n (merge?_of_ok hn), fun hstack => ?_⟩
      obtain ⟨n, hn⟩ := merge?_of_joins hstack (hmerged.joins.comm hs.semilattice)
      obtain rfl := hback n hn
      exact ⟨_, merge_of_some hn⟩

/-- A puppy, a long, a double and an int, and null on the stack. -/
def puppyFrame : Frame where
  locals := #[VType.instanceOf ⟨"Puppy"⟩, .long, .top, .double, .top, .int]
  stack := SlotVec.ofList [.null]

/-- A cat, a long and a float, and the cat on the stack. -/
def catFrame : Frame where
  locals := #[VType.instanceOf ⟨"Cat"⟩, .long, .top, .float]
  stack := SlotVec.ofList [VType.instanceOf ⟨"Cat"⟩]

/-- What the two have in common. -/
def animalFrame : Frame where
  locals := #[VType.instanceOf ⟨"Animal"⟩, .long, .top]
  stack := SlotVec.ofList [VType.instanceOf ⟨"Cat"⟩]

theorem merge_puppy_cat :
    puppyFrame.merge Superclasses.animals.hierarchy ⟨0⟩ catFrame = (.ok true, animalFrame) := by
  have hcommon : Superclasses.animals.hierarchy.commonSuper ⟨"Puppy"⟩ ⟨"Cat"⟩ = ⟨"Animal"⟩ :=
    Superclasses.commonSuper_animals
  generalize Superclasses.animals.hierarchy = h at hcommon ⊢
  simp [merge, outcome, merged, merge?, mergeBy?, joinStack, meetLocals, trimLocals, changedBy,
    local?, VType.meet, VType.join, RefType.join, VType.instanceOf, VerificationType.width,
    puppyFrame, catFrame, animalFrame, hcommon]

/-- The frame on entry to a method without parameters has no entry that could join the one on the
stack. -/
theorem merge_pointwise_animals :
    Superclasses.animals.Rooted ∧ UpperHalves puppyFrame.locals ∧ UpperHalves catFrame.locals ∧
      puppyFrame.merge Superclasses.animals.hierarchy ⟨0⟩ catFrame = (.ok true, animalFrame) ∧
      animalFrame.merge Superclasses.animals.hierarchy ⟨0⟩ catFrame = (.ok false, animalFrame) ∧
      (∃ changed, catFrame.merge Superclasses.animals.hierarchy ⟨0⟩ puppyFrame =
        (.ok changed, animalFrame)) ∧
      ∃ e, puppyFrame.merge Superclasses.animals.hierarchy ⟨0⟩ Frame.empty =
        (.error e, puppyFrame) := by
  have hpuppy : UpperHalves puppyFrame.locals := by decide
  have hcat : UpperHalves catFrame.locals := by decide
  obtain ⟨-, -, hmerged⟩ := merge_pointwise Superclasses.animals ⟨0⟩ hpuppy hcat
  obtain ⟨-, -, hagain, hback⟩ := hmerged true animalFrame merge_puppy_cat
  obtain ⟨-, hback⟩ := hback Superclasses.rooted_animals
  obtain ⟨hfails, -, -⟩ := merge_pointwise Superclasses.animals ⟨0⟩ hpuppy UpperHalves.nil
    (k := Frame.empty)
  have hempty : ∃ e m, puppyFrame.merge Superclasses.animals.hierarchy ⟨0⟩ Frame.empty =
      (.error e, m) := ⟨_, _, rfl⟩
  obtain ⟨e, m, hm⟩ := hempty
  obtain rfl := hfails e m hm
  exact ⟨Superclasses.rooted_animals, hpuppy, hcat, merge_puppy_cat, hagain,
    hback (SlotVec.measured_ofList _), e, hm⟩

end Frame

end JvmClass
