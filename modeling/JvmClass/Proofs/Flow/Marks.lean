import JvmClass.Proofs.Flow.Coverage
import JvmClass.Proofs.Flow.Reach

/-!
# Blocks that need a frame

Something leads to a block only if the block is marked as needing a frame, or the block before it
falls through into it (`LabelGraph.Marked`). What is known of labels only grows while a body is
built (`LabelGraph.Advances`), so that a mark set once stays. Which blocks can be reached is not
known before the frames are computed (`LabelGraph.Unreached`).
-/

namespace JvmClass

namespace LabelGraph

variable {g g' : LabelGraph} {label l : Label} {position size i p : Nat}

theorem data?_addLabel (g : LabelGraph) (l : Label) :
    g.addLabel.data? l = if l = g.nextLabel then some {} else g.data? l := by
  have hiff : l.number = g.labels.size ↔ l = g.nextLabel := by
    cases l
    simp [nextLabel]
  unfold data? addLabel
  rw [Array.getElem?_push]
  simp only [hiff]

/-- Placing a label starts a block with it, or gives what is known about it to the last block. -/
theorem place_ok {starts : Bool} (h : place label position g = .ok starts g') :
    ∃ d, g.data? label = some d ∧ d.position = none ∧
      ((starts = true ∧ g'.chain = g.chain.push label ∧
        ∀ l, g'.data? l = if l = label then
          some { d with position := some position, chainIndex := some g.chain.size }
          else g.data? l) ∨
      (starts = false ∧ g'.chain = g.chain ∧ ∃ leader, g.chain.back? = some leader ∧
        g.position? leader = some position ∧
        ∀ l, g'.data? l = if l = label then
          some { d with position := some position, leader := some leader, edges := #[] }
          else if l = leader then (g.data? l).map fun of =>
            { of with flags := of.flags.union d.flags, edges := of.edges ++ d.edges }
          else g.data? l)) := by
  unfold place at h
  split at h
  · cases h
  · rename_i d hd
    split at h
    · cases h
    · rename_i hpos
      have hnone : d.position = none := by simpa using hpos
      refine ⟨d, hd, hnone, ?_⟩
      split at h
      · rename_i leader hlast
        cases h
        unfold lastBlockAt? at hlast
        split at hlast
        · cases hlast
        · rename_i back hback
          split at hlast
          · rename_i hhere
            cases hlast
            have hne : leader ≠ label := by
              rintro rfl
              rw [position?, hd, Option.bind_some, hnone] at hhere
              cases hhere
            refine Or.inr ⟨rfl, rfl, leader, hback, hhere, fun l => ?_⟩
            rw [data?_update, data?_update]
            by_cases hl : l = label
            · subst hl
              simp [hne.symm, hd]
            · simp [hl]
          · cases hlast
      · cases h
        refine Or.inl ⟨rfl, rfl, fun l => ?_⟩
        show (g.update label _).data? l = _
        rw [data?_update]
        split
        · rename_i hl
          rw [hl, hd]
          rfl
        · rfl

/-- What is known of a graph that is built further. -/
structure Advances (g g' : LabelGraph) : Prop where
  size : g.size ≤ g'.size
  chain : ∀ (i : Nat) l, g.chain[i]? = some l → g'.chain[i]? = some l
  position : ∀ l p, g.position? l = some p → g'.position? l = some p
  flagged : ∀ l, (g.flags l).target = true → (g'.flags l).target = true

namespace Advances

theorem refl (g : LabelGraph) : g.Advances g :=
  ⟨Nat.le_refl _, fun _ _ h => h, fun _ _ h => h, fun _ h => h⟩

theorem trans {g'' : LabelGraph} (h : g.Advances g') (h' : g'.Advances g'') : g.Advances g'' :=
  ⟨Nat.le_trans h.size h'.size, fun i l hl => h'.chain i l (h.chain i l hl),
    fun l p hp => h'.position l p (h.position l p hp),
    fun l hl => h'.flagged l (h.flagged l hl)⟩

end Advances

theorem flags_eq (g : LabelGraph) (l : Label) :
    g.flags l = ((g.data? (g.blockOf l)).map (·.flags)).getD {} := by
  unfold flags
  cases g.data? (g.blockOf l) <;> rfl

theorem blockOf_eq_data (g : LabelGraph) (l : Label) :
    g.blockOf l = ((g.data? l).bind (·.leader)).getD l := rfl

/-- A label is marked if the data of its block say so. -/
theorem target_flags : (g.flags l).target = true ↔
    ∃ d, g.data? (g.blockOf l) = some d ∧ d.flags.target = true := by
  rw [flags_eq]
  cases g.data? (g.blockOf l) <;> simp

theorem advances_addLabel (g : LabelGraph) : g.Advances g.addLabel where
  size := by simp [size, addLabel]
  chain _ _ h := h
  position l p h := by rwa [position?_addLabel]
  flagged l h := by
    rw [flags_eq] at h ⊢
    rw [blockOf_addLabel, data?_addLabel]
    split
    · rename_i he
      rw [he, show g.data? g.nextLabel = none from Array.getElem?_size ..] at h
      cases h
    · exact h

theorem lt_size_of_position (h : g.position? l = some p) : l.number < g.size := by
  unfold position? data? at h
  obtain ⟨d, hd, -⟩ := Option.bind_eq_some_iff.1 h
  exact (Array.getElem?_eq_some_iff.1 hd).1

/-- The last block. -/
theorem chain_of_back (h : g.chain.back? = some l) : g.chain[g.chain.size - 1]? = some l := by
  rw [← Array.back?_eq_getElem?, h]

theorem size_update (g : LabelGraph) (label : Label) (f : LabelData → LabelData) :
    (g.update label f).size = g.size := Array.size_modify ..

theorem flags_setFlags (g : LabelGraph) (label l : Label) (flags : BlockFlags) :
    (g.setFlags label flags).flags l =
      if g.blockOf l = g.blockOf label then
        ((g.data? (g.blockOf label)).map fun d => d.flags.union flags).getD {}
      else g.flags l := by
  rw [flags_eq, (sameLayout_setFlags g label flags).blockOf]
  unfold setFlags
  rw [data?_update, flags_eq]
  split
  · rename_i he
    rw [he]
    cases g.data? (g.blockOf label) <;> rfl
  · rfl

theorem advances_setFlags (g : LabelGraph) (label : Label) (flags : BlockFlags) :
    g.Advances (g.setFlags label flags) where
  size := Nat.le_of_eq (size_update ..).symm
  chain _ _ h := h
  position l p h := by rwa [(sameLayout_setFlags g label flags).position?]
  flagged l h := by
    obtain ⟨d, hd, ht⟩ := target_flags.1 h
    rw [flags_setFlags]
    split
    · rename_i he
      rw [← he, hd]
      simp [BlockFlags.union, ht]
    · exact h

theorem place?_eq_some {place : Place} (h : g.place? l = some place) :
    ∃ d, g.data? l = some d ∧ place = ⟨d.position, d.leader, d.chainIndex⟩ := by
  obtain ⟨d, hd, rfl⟩ := Option.map_eq_some_iff.1 h
  exact ⟨d, hd, rfl⟩

/-- The block of a label that has been made is known. -/
theorem Grouped.data?_blockOf (hg : g.Grouped) (hl : l.number < g.size) :
    ∃ d, g.data? (g.blockOf l) = some d := by
  have hd : g.data? l = some (g.labels[l.number]) := Array.getElem?_eq_getElem hl
  cases hp : (g.labels[l.number]).position with
  | none =>
    have hleader := hg.unplaced l _ (by rw [place?, hd]; rfl) hp
    refine ⟨_, (congrArg g.data? ?_).trans hd⟩
    rw [blockOf_eq_data, hd, Option.bind_some]
    simp only at hleader
    rw [hleader]
    rfl
  | some p =>
    obtain ⟨⟨i, hi⟩, -⟩ := hg.placed l p (by rw [position?, hd, Option.bind_some, hp])
    obtain ⟨q, hq⟩ := hg.leaders i _ hi
    obtain ⟨d, hd, -⟩ := place?_eq_some hq
    exact ⟨d, hd⟩

theorem Tiled.data?_blockOf (ht : g.Tiled size) (hl : l.number < g.size) :
    ∃ d, g.data? (g.blockOf l) = some d :=
  ht.grouped.data?_blockOf hl

/-- A label that has been made is marked. -/
theorem flagged_markTarget (ht : g.Tiled size) (hl : label.number < g.size) :
    ((g.markTarget label).flags label).target = true := by
  obtain ⟨d, hd⟩ := ht.data?_blockOf hl
  rw [markTarget, flags_setFlags, if_pos rfl, hd]
  simp [BlockFlags.union]

theorem Grouped.blockOf_unplaced (hg : g.Grouped) (hp : g.position? l = none) :
    g.blockOf l = l := by
  rw [blockOf_eq_data]
  cases hd : g.data? l with
  | none => rfl
  | some d =>
    rw [position?, hd, Option.bind_some] at hp
    have hleader : d.leader = none := hg.unplaced l _ (by rw [place?, hd]; rfl) hp
    rw [Option.bind_some, hleader]
    rfl

/-- A label that does not belong to a block of the chain stands for itself. -/
theorem Grouped.blockOf_cases (hg : g.Grouped) (l : Label) :
    g.blockOf l = l ∨ ∃ i : Nat, g.chain[i]? = some (g.blockOf l) := by
  cases hp : g.position? l with
  | none => exact Or.inl (hg.blockOf_unplaced hp)
  | some p => exact Or.inr (hg.placed l p hp).1

theorem Grouped.blockOf_blockOf (hg : g.Grouped) (l : Label) :
    g.blockOf (g.blockOf l) = g.blockOf l := by
  rcases hg.blockOf_cases l with he | ⟨i, hi⟩
  · rw [he, he]
  · exact hg.blockOf_leader hi

/-- No other label belongs to a label that is not placed. -/
theorem Grouped.blockOf_ne (hg : g.Grouped) (hu : g.position? label = none) (hl : l ≠ label) :
    g.blockOf l ≠ label := by
  intro hb
  rcases hg.blockOf_cases l with he | ⟨i, hi⟩
  · exact hl (he.symm.trans hb)
  · obtain ⟨p, hp⟩ := hg.position hi
    exact ne_of_unplaced hp hu hb

theorem Tiled.blockOf_unplaced (ht : g.Tiled size) (hp : g.position? l = none) :
    g.blockOf l = l :=
  ht.grouped.blockOf_unplaced hp

theorem Tiled.blockOf_cases (ht : g.Tiled size) (l : Label) :
    g.blockOf l = l ∨ ∃ i : Nat, g.chain[i]? = some (g.blockOf l) :=
  ht.grouped.blockOf_cases l

theorem Tiled.blockOf_blockOf (ht : g.Tiled size) (l : Label) :
    g.blockOf (g.blockOf l) = g.blockOf l :=
  ht.grouped.blockOf_blockOf l

theorem Tiled.flags_blockOf (ht : g.Tiled size) (l : Label) : g.flags (g.blockOf l) = g.flags l := by
  rw [flags_eq, ht.blockOf_blockOf, ← flags_eq]

theorem Tiled.ne_of_leader (ht : g.Tiled size) {j : Nat} (hj : g.chain[j]? = some l) {d : LabelData}
    (hd : g.data? label = some d) (hp : d.position = none) : l ≠ label := by
  obtain ⟨p, -, hpos⟩ := ht.position hj
  refine ne_of_unplaced hpos ?_
  rw [position?, hd, Option.bind_some, hp]

theorem size_place {starts : Bool} (h : place label position g = .ok starts g') :
    g'.size = g.size := by
  unfold place at h
  split at h
  · cases h
  · split at h
    · cases h
    · split at h
      · cases h
        exact (size_update ..).trans (size_update ..)
      · cases h
        exact size_update ..

/-- Placing a label leaves the other ones where they are. -/
theorem place_others {starts : Bool} (h : place label position g = .ok starts g') {m : Label}
    (hm : m ≠ label) : g'.position? m = g.position? m ∧ g'.blockOf m = g.blockOf m := by
  cases placing h with
  | joins leader index unplaced last here chain place others => exact others_eq others hm
  | starts leader index last unplaced chain place others => exact others_eq others hm

/-- Placing a label keeps all marks. -/
theorem Tiled.flagged_place (ht : g.Tiled size) {starts : Bool}
    (h : place label position g = .ok starts g') (hl : (g.flags l).target = true) :
    (g'.flags l).target = true := by
  obtain ⟨of, hof, hflag⟩ := target_flags.1 hl
  obtain ⟨d, hd, hnone, hcases⟩ := place_ok h
  have hunplaced : g.position? label = none := by rw [position?, hd, Option.bind_some, hnone]
  have hself := ht.blockOf_unplaced hunplaced
  refine target_flags.2 ?_
  rcases hcases with ⟨-, -, hdata⟩ | ⟨-, -, leader, hback, hhere, hdata⟩
  · have hleader : d.leader = none := ht.unplaced label _ (by rw [place?, hd]; rfl) hnone
    have hblock : g'.blockOf l = g.blockOf l := by
      by_cases he : l = label
      · subst he
        rw [hself, blockOf_eq_data, hdata, if_pos rfl, Option.bind_some, hleader]
        rfl
      · exact (place_others h he).2
    rw [hblock, hdata]
    split
    · rename_i he
      rw [he, hd] at hof
      cases hof
      exact ⟨_, rfl, hflag⟩
    · exact ⟨of, hof, hflag⟩
  · have hne : leader ≠ label := ne_of_unplaced hhere hunplaced
    by_cases he : l = label
    · -- The mark goes to the block that the label joins.
      subst he
      rw [hself, hd] at hof
      cases hof
      obtain ⟨old, hold, -⟩ := Option.bind_eq_some_iff.1 hhere
      have hblock : g'.blockOf l = leader := by
        rw [blockOf_eq_data, hdata, if_pos rfl]
        rfl
      rw [hblock, hdata, if_neg hne, if_pos rfl, hold]
      exact ⟨_, rfl, by simp [BlockFlags.union, hflag]⟩
    · rw [(place_others h he).2, hdata, if_neg (ht.grouped.blockOf_ne hunplaced he), hof]
      split
      · exact ⟨_, rfl, by simp [BlockFlags.union, hflag]⟩
      · exact ⟨of, rfl, hflag⟩

theorem advances_place (ht : g.Tiled size) {starts : Bool}
    (h : place label position g = .ok starts g') : g.Advances g' where
  size := Nat.le_of_eq (size_place h).symm
  chain j l hj := by
    obtain ⟨-, -, -, ⟨-, hchain, -⟩ | ⟨-, hchain, -⟩⟩ := place_ok h
    · have := (Array.getElem?_eq_some_iff.1 hj).1
      rw [hchain, Array.getElem?_push, if_neg (by omega), hj]
    · rw [hchain, hj]
  position l p hp := by
    obtain ⟨d, hd, hnone, -⟩ := place_ok h
    have hunplaced : g.position? label = none := by rw [position?, hd, Option.bind_some, hnone]
    rw [(place_others h (ne_of_unplaced hp hunplaced)).1, hp]
  flagged _ hl := ht.flagged_place h hl

/-- A label starts the block after that of another. -/
def Follows (g : LabelGraph) (l m : Label) : Prop :=
  ∃ i : Nat, g.chain[i]? = some l ∧ g.chain[i + 1]? = some m

/-- An edge leads to a label that is marked, or to the block into which its own falls through. -/
def Marked (g : LabelGraph) : Prop :=
  ∀ l d, g.data? l = some d → ∀ edge ∈ d.edges,
    (g.flags edge.successor).target = true ∨ g.Follows l edge.successor

theorem Follows.advances {m : Label} (h : g.Follows l m) (ha : g.Advances g') : g'.Follows l m := by
  obtain ⟨i, hi, hj⟩ := h
  exact ⟨i, ha.chain _ _ hi, ha.chain _ _ hj⟩

theorem Marked.of_advances (hm : g.Marked) (ha : g.Advances g')
    (hedges : ∀ l d', g'.data? l = some d' → ∀ edge ∈ d'.edges,
      (∃ d, g.data? l = some d ∧ edge ∈ d.edges) ∨
        (g'.flags edge.successor).target = true ∨ g'.Follows l edge.successor) : g'.Marked := by
  intro l d' hd' edge he
  rcases hedges l d' hd' edge he with ⟨d, hd, he⟩ | h
  · exact (hm l d hd edge he).imp (ha.flagged _) (·.advances ha)
  · exact h

theorem Marked.addLabel (hm : g.Marked) : g.addLabel.Marked := by
  refine hm.of_advances (advances_addLabel g) fun l d hd edge he => ?_
  rw [data?_addLabel] at hd
  split at hd
  · cases hd
    simp at he
  · exact Or.inl ⟨d, hd, he⟩

theorem Marked.setFlags (hm : g.Marked) (label : Label) (flags : BlockFlags) :
    (g.setFlags label flags).Marked := by
  refine hm.of_advances (advances_setFlags g label flags) fun l d hd edge he => ?_
  rw [LabelGraph.setFlags, data?_update] at hd
  split at hd
  · obtain ⟨d', hd', rfl⟩ := Option.map_eq_some_iff.1 hd
    exact Or.inl ⟨d', hd', he⟩
  · exact Or.inl ⟨d, hd, he⟩

theorem Marked.place (hm : g.Marked) (ht : g.Tiled size) {starts : Bool}
    (h : place label position g = .ok starts g') : g'.Marked := by
  have ha := advances_place ht h
  obtain ⟨d, hd, hnone, hcases⟩ := place_ok h
  refine hm.of_advances ha fun l d' hd' edge he => ?_
  rcases hcases with ⟨-, -, hdata⟩ | ⟨-, -, leader, -, -, hdata⟩
  · rw [hdata] at hd'
    split at hd'
    · rename_i hl
      cases hd'
      exact Or.inl ⟨d, hl ▸ hd, he⟩
    · exact Or.inl ⟨d', hd', he⟩
  · rw [hdata] at hd'
    split at hd'
    · cases hd'
      simp at he
    · split at hd'
      · obtain ⟨of, hof, rfl⟩ := Option.map_eq_some_iff.1 hd'
        rcases Array.mem_append.1 he with he | he
        · exact Or.inl ⟨of, hof, he⟩
        · -- The label was in no place of the chain, so that its edges lead to marked labels.
          rcases hm label d hd edge he with hflag | ⟨i, hi, -⟩
          · exact Or.inr (Or.inl (ha.flagged _ hflag))
          · exact absurd rfl (ht.ne_of_leader hi hd hnone)
      · exact Or.inl ⟨d', hd', he⟩

theorem data?_addEdge {source successor : Label} {kind : EdgeKind} {u : Unit}
    (h : addEdge source kind successor g = .ok u g') (l : Label) :
    g'.data? l = if l = g.blockOf source then
      (g.data? l).map fun d => { d with edges := d.edges.push ⟨kind, successor⟩ }
      else g.data? l := by
  unfold addEdge at h
  simp only at h
  split at h
  · cases h
    exact data?_update ..
  · cases h

theorem advances_addEdge {source successor : Label} {kind : EdgeKind} {u : Unit}
    (h : addEdge source kind successor g = .ok u g') : g.Advances g' := by
  have hl := sameLayout_addEdge h
  refine ⟨?_, fun i l hi => by rwa [hl.chain], fun l p hp => by rwa [hl.position?],
    fun l hflag => ?_⟩
  · unfold addEdge at h
    simp only at h
    split at h
    · cases h
      exact Nat.le_of_eq (size_update ..).symm
    · cases h
  · rw [flags_eq] at hflag ⊢
    rw [hl.blockOf, data?_addEdge h]
    split
    · rename_i he
      rw [Option.map_map]
      exact hflag
    · exact hflag

/-- A fall through. -/
theorem Marked.fall (hm : g.Marked) {source successor : Label} {u : Unit}
    (h : addEdge source .normal successor g = .ok u g')
    (hf : g.Follows (g.blockOf source) successor) : g'.Marked := by
  have ha := advances_addEdge h
  refine hm.of_advances ha fun l d' hd' edge he => ?_
  rw [data?_addEdge h] at hd'
  split at hd'
  · rename_i hl
    obtain ⟨d, hd, rfl⟩ := Option.map_eq_some_iff.1 hd'
    rcases Array.mem_push.1 he with he | rfl
    · exact Or.inl ⟨d, hd, he⟩
    · exact Or.inr (Or.inr (hl ▸ hf.advances ha))
  · exact Or.inl ⟨d', hd', he⟩

/-- A jump to a label that has been made. -/
theorem Marked.jump (hm : g.Marked) (ht : g.Tiled size) {source successor : Label}
    {kind : EdgeKind} {u : Unit} (h : addEdge source kind successor g = .ok u g')
    (hs : successor.number < g.size) : (g'.markTarget successor).Marked := by
  have ha := advances_addEdge h
  have ha' := ha.trans (advances_setFlags g' successor ⟨true, false⟩)
  refine hm.of_advances ha' fun l d' hd' edge he => ?_
  rw [markTarget, LabelGraph.setFlags, data?_update] at hd'
  have hedges : ∃ d, g'.data? l = some d ∧ edge ∈ d.edges := by
    split at hd'
    · obtain ⟨d, hd, rfl⟩ := Option.map_eq_some_iff.1 hd'
      exact ⟨d, hd, he⟩
    · exact ⟨d', hd', he⟩
  obtain ⟨d₁, hd₁, he⟩ := hedges
  rw [data?_addEdge h] at hd₁
  split at hd₁
  · obtain ⟨d, hd, rfl⟩ := Option.map_eq_some_iff.1 hd₁
    rcases Array.mem_push.1 he with he | rfl
    · exact Or.inl ⟨d, hd, he⟩
    · exact Or.inr (Or.inl (flagged_markTarget (ht.sameLayout (sameLayout_addEdge h))
        (Nat.lt_of_lt_of_le hs ha.size)))
  · exact Or.inl ⟨d₁, hd₁, he⟩

theorem advances_addLabels (g : LabelGraph) (count : Nat) : g.Advances (g.addLabels count) := by
  induction count generalizing g with
  | zero => exact .refl g
  | succ n ih => exact (advances_addLabel g).trans (ih g.addLabel)

theorem Marked.addLabels (hm : g.Marked) (count : Nat) : (g.addLabels count).Marked := by
  induction count generalizing g with
  | zero => exact hm
  | succ n ih => exact ih hm.addLabel

theorem data?_resolve (g : LabelGraph) (l : Label) :
    g.resolve.data? l = (g.data? l).map fun d => { d with offset := d.position } :=
  Array.getElem?_map ..

theorem advances_resolve (g : LabelGraph) : g.Advances g.resolve where
  size := Nat.le_of_eq (Array.size_map ..).symm
  chain _ _ h := h
  position l p h := by rwa [(sameLayout_resolve g).position?]
  flagged l h := by
    rw [flags_eq] at h ⊢
    rw [(sameLayout_resolve g).blockOf, data?_resolve, Option.map_map]
    exact h

theorem Marked.resolve (hm : g.Marked) : g.resolve.Marked := by
  refine hm.of_advances (advances_resolve g) fun l d hd edge he => ?_
  rw [data?_resolve] at hd
  obtain ⟨d', hd', rfl⟩ := Option.map_eq_some_iff.1 hd
  exact Or.inl ⟨d', hd', he⟩

/-- A block starts at a place and is marked. -/
def MarkedAt (g : LabelGraph) (place : Nat) : Prop :=
  ∃ (i : Nat) (l : Label), g.chain[i]? = some l ∧ g.position? l = some place ∧
    (g.flags l).target = true

theorem MarkedAt.advances (h : g.MarkedAt p) (ha : g.Advances g') : g'.MarkedAt p := by
  obtain ⟨i, l, hi, hp, hf⟩ := h
  exact ⟨i, l, ha.chain _ _ hi, ha.position _ _ hp, ha.flagged _ hf⟩

/-- A label that is marked has its mark where it is placed. -/
theorem Tiled.markedAt (ht : g.Tiled size) (hp : g.position? l = some p)
    (hf : (g.flags l).target = true) : g.MarkedAt p := by
  obtain ⟨⟨i, hi⟩, hb⟩ := ht.placed l p hp
  refine ⟨i, _, hi, hb, ?_⟩
  rwa [ht.flags_blockOf]

/-- No block counts as reachable. -/
def Unreached (g : LabelGraph) : Prop :=
  ∀ l d, g.data? l = some d → d.flags.reachable = false

theorem Unreached.flags (h : g.Unreached) (l : Label) : (g.flags l).reachable = false := by
  rw [flags_eq]
  cases hd : g.data? (g.blockOf l) with
  | none => rfl
  | some d => exact h _ d hd

theorem unreached_empty : empty.Unreached := by
  intro l d hd
  simp [empty, data?] at hd

theorem Unreached.addLabel (h : g.Unreached) : g.addLabel.Unreached := by
  intro l d hd
  rw [data?_addLabel] at hd
  split at hd
  · cases hd
    rfl
  · exact h l d hd

theorem Unreached.addLabels (h : g.Unreached) (count : Nat) : (g.addLabels count).Unreached := by
  induction count generalizing g with
  | zero => exact h
  | succ n ih => exact ih h.addLabel

theorem Unreached.place {starts : Bool} (h : g.Unreached)
    (hp : place label position g = .ok starts g') : g'.Unreached := by
  obtain ⟨d, hd, -, hcases⟩ := place_ok hp
  intro l d' hd'
  rcases hcases with ⟨-, -, hdata⟩ | ⟨-, -, leader, -, -, hdata⟩
  · rw [hdata] at hd'
    split at hd'
    · cases hd'
      exact h label d hd
    · exact h l d' hd'
  · rw [hdata] at hd'
    split at hd'
    · cases hd'
      exact h label d hd
    · split at hd'
      · obtain ⟨of, hof, rfl⟩ := Option.map_eq_some_iff.1 hd'
        simp [BlockFlags.union, h l of hof, h label d hd]
      · exact h l d' hd'

theorem Unreached.update (h : g.Unreached) (label : Label) {f : LabelData → LabelData}
    (hf : ∀ d, d.flags.reachable = false → (f d).flags.reachable = false) :
    (g.update label f).Unreached := by
  intro l d hd
  rw [data?_update] at hd
  split at hd
  · obtain ⟨d', hd', rfl⟩ := Option.map_eq_some_iff.1 hd
    exact hf d' (h l d' hd')
  · exact h l d hd

theorem Unreached.markTarget (h : g.Unreached) (label : Label) : (g.markTarget label).Unreached :=
  h.update _ fun d hd => by simp [BlockFlags.union, hd]

theorem Unreached.addEdge {source successor : Label} {kind : EdgeKind} {u : Unit}
    (hg : g.Unreached) (h : addEdge source kind successor g = .ok u g') : g'.Unreached := by
  unfold LabelGraph.addEdge at h
  simp only at h
  split at h
  · cases h
    exact hg.update _ fun d hd => hd
  · cases h

theorem Unreached.resolve (h : g.Unreached) : g.resolve.Unreached := by
  intro l d hd
  rw [data?_resolve] at hd
  obtain ⟨d', hd', rfl⟩ := Option.map_eq_some_iff.1 hd
  exact h l d' hd'

end LabelGraph

end JvmClass
