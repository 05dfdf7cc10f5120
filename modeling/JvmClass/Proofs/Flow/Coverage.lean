import JvmClass.Proofs.Flow.Layout

/-!
# Edges to handlers

The blocks of a protected range are those that start in it (`LabelGraph.coveredBlocks_eq`), so that
an instruction in the range belongs to a block with an edge to the handler
(`Handlers.completeTyped_ok`).
-/

namespace JvmClass

namespace LabelGraph

variable {g g' : LabelGraph} {label l : Label} {size stop p i : Nat}

/-- Graphs that agree on where labels stand, also once they are settled, and the second of which has
the edges of the first. -/
structure Widens (g g' : LabelGraph) : Prop where
  layout : g.SameLayout g'
  offset : ∀ label, g'.offset label = g.offset label
  edges : ∀ label edge, edge ∈ g.edges label → edge ∈ g'.edges label

namespace Widens

theorem refl (g : LabelGraph) : g.Widens g := ⟨.refl g, fun _ => rfl, fun _ _ h => h⟩

theorem trans {g'' : LabelGraph} (h : g.Widens g') (h' : g'.Widens g'') : g.Widens g'' :=
  ⟨h.layout.trans h'.layout, fun label => (h'.offset label).trans (h.offset label),
    fun label edge he => h'.edges label edge (h.edges label edge he)⟩

end Widens

/-- A change of a label that keeps its place and its edges. -/
theorem widens_update (g : LabelGraph) (label : Label) {f : LabelData → LabelData}
    (hf : ∀ d, (f d).position = d.position ∧ (f d).leader = d.leader ∧
      (f d).chainIndex = d.chainIndex ∧ (f d).offset = d.offset ∧
      ∀ edge ∈ d.edges.toList, edge ∈ (f d).edges.toList) : g.Widens (g.update label f) := by
  have hlayout : g.SameLayout (g.update label f) :=
    sameLayout_update g label fun d => ⟨(hf d).1, (hf d).2.1, (hf d).2.2.1⟩
  refine ⟨hlayout, fun l => ?_, fun l edge he => ?_⟩
  · have hdata : ((g.update label f).data? l).bind (·.offset) = (g.data? l).bind (·.offset) := by
      rw [data?_update]
      split
      · cases g.data? l with
        | none => rfl
        | some d => simp [(hf d).2.2.2.1]
      · rfl
    unfold offset
    rw [hdata]
  · unfold edges at he ⊢
    rw [hlayout.blockOf, data?_update]
    cases hd : g.data? (g.blockOf l) with
    | none =>
      rw [hd] at he
      cases he
    | some d =>
      rw [hd] at he
      by_cases hl : g.blockOf l = label
      · rw [if_pos hl]
        exact (hf d).2.2.2.2 edge he
      · rw [if_neg hl]
        exact he

theorem widens_setFlags (g : LabelGraph) (label : Label) (flags : BlockFlags) :
    g.Widens (g.setFlags label flags) :=
  widens_update g _ fun _ => ⟨rfl, rfl, rfl, rfl, fun _ h => h⟩

theorem addEdge_ok {kind : EdgeKind} {successor : Label} {u : Unit}
    (h : addEdge label kind successor g = .ok u g') :
    g.Widens g' ∧ ⟨kind, successor⟩ ∈ g'.edges label := by
  unfold addEdge at h
  simp only at h
  split at h
  · rename_i hd
    cases h
    have hw : g.Widens (g.update (g.blockOf label) fun d =>
        { d with edges := d.edges.push ⟨kind, successor⟩ }) :=
      widens_update g _ fun _ => ⟨rfl, rfl, rfl, rfl, fun _ h => by simp [h]⟩
    refine ⟨hw, ?_⟩
    obtain ⟨d, hd⟩ := Option.isSome_iff_exists.1 hd
    unfold edges
    rw [hw.layout.blockOf, data?_update, if_pos rfl, hd]
    simp
  · cases h

theorem Widens.blocksBefore (h : g.Widens g') (done : List Label) (budget : Nat) (block : Label) :
    g'.blocksBefore stop done budget block = g.blocksBefore stop done budget block := by
  induction budget generalizing done block with
  | zero => rfl
  | succ budget ih =>
    unfold LabelGraph.blocksBefore
    simp only [h.offset, h.layout.nextBlock?, ih]

theorem Widens.coveredBlocks (h : g.Widens g') (start stop : Label) :
    g'.coveredBlocks start stop = g.coveredBlocks start stop := by
  unfold LabelGraph.coveredBlocks
  simp only [h.offset, h.layout.chain, h.layout.blockOf, h.blocksBefore]

/-- The final offset of every label that is placed is its position. -/
def Settled (g : LabelGraph) : Prop :=
  ∀ label p, g.position? label = some p → g.offset label = .ok p

theorem settled_resolve (g : LabelGraph) : g.resolve.Settled := by
  intro label p hp
  rw [(sameLayout_resolve g).position?] at hp
  rw [offset_resolve, hp]

theorem Tiled.nextBlock? (ht : g.Tiled size) (hl : g.chain[i]? = some l) :
    g.nextBlock? l = g.chain[i + 1]? := by
  obtain ⟨p, -, hd⟩ := ht.leaders i l hl
  rw [nextBlock?_eq, ht.blockOf_leader hl, hd]
  rfl

/-- Whether a block starts from one offset on and before another one. -/
def startsIn (g : LabelGraph) (first stop : Nat) (block : Label) : Bool :=
  match g.offset block with
  | .ok start => first ≤ start && start < stop
  | .error _ => false

theorem startsIn_eq {first : Nat} (h : g.offset l = .ok p) :
    g.startsIn first stop l = (first ≤ p && p < stop) := by
  rw [startsIn, h]

/-- From a block on, the blocks that start before the end of a range are found, in order. -/
theorem blocksBefore_eq (ht : g.Tiled size) (hs : g.Settled) {first : Nat} (done : List Label)
    {budget : Nat} {block : Label} (hi : g.chain[i]? = some block)
    (hp : g.position? block = some p) (hle : first ≤ p) (hbudget : g.chain.size ≤ i + budget) :
    g.blocksBefore stop done budget block =
      .ok (done.reverse ++ (g.blocks.drop i).filter (g.startsIn first stop)) := by
  have hlt := (Array.getElem?_eq_some_iff.1 hi).1
  induction budget generalizing i p done block with
  | zero => omega
  | succ budget ih =>
    have hdrop : g.blocks.drop i = block :: g.blocks.drop (i + 1) := by
      rw [← blocks_getElem] at hi
      obtain ⟨hlt, rfl⟩ := List.getElem?_eq_some_iff.1 hi
      exact List.drop_eq_getElem_cons hlt
    unfold blocksBefore
    rw [hs block p hp, ht.nextBlock? hi]
    simp only
    split
    · -- All later blocks start at or after the end of the range as well.
      rename_i hstop
      have hnone : (g.blocks.drop i).filter (g.startsIn first stop) = [] := by
        refine List.filter_eq_nil_iff.2 fun l hl => ?_
        obtain ⟨k, hk⟩ := List.mem_iff_getElem?.1 hl
        rw [List.getElem?_drop, blocks_getElem] at hk
        obtain ⟨q, -, hq⟩ := ht.position hk
        rw [startsIn_eq (hs l q hq)]
        have hpq : p ≤ q := by
          cases k with
          | zero =>
            rw [Nat.add_zero, hi] at hk
            cases hk
            rw [hp] at hq
            cases hq
            exact Nat.le_refl _
          | succ k => exact Nat.le_of_lt (ht.ascending i _ _ _ p q (by omega) hi hk hp hq)
        simp only [Bool.and_eq_true, decide_eq_true_eq]
        omega
      rw [hnone, List.append_nil]
    · rename_i hstop
      have hin : g.startsIn first stop block = true := by
        rw [startsIn_eq (hs block p hp)]
        simp only [Bool.and_eq_true, decide_eq_true_eq]
        omega
      rw [hdrop, List.filter_cons_of_pos hin]
      cases hnext : g.chain[i + 1]? with
      | none =>
        have hend : g.blocks.drop (i + 1) = [] :=
          List.drop_eq_nil_of_le (Array.getElem?_eq_none_iff.1 hnext)
        rw [hend]
        simp
      | some next =>
        obtain ⟨q, -, hq⟩ := ht.position hnext
        have hpq := ht.ascending i (i + 1) _ _ p q (Nat.lt_succ_self i) hi hnext hp hq
        simp only
        rw [ih (block :: done) hnext hq (by omega) (by omega)
          (Array.getElem?_eq_some_iff.1 hnext).1]
        simp

/-- The blocks of a range are those that start in it, in order. -/
theorem coveredBlocks_eq (ht : g.Tiled size) (hs : g.Settled) {start stop : Label}
    {first last : Nat} (hstart : g.position? start = some first)
    (hstop : g.offset stop = .ok last) :
    g.coveredBlocks start stop = .ok (g.blocks.filter (g.startsIn first last)) := by
  obtain ⟨⟨i, hi⟩, hb⟩ := ht.placed start first hstart
  have hbefore : (g.blocks.take i).filter (g.startsIn first last) = [] := by
    refine List.filter_eq_nil_iff.2 fun l hl => ?_
    obtain ⟨k, hk⟩ := List.mem_iff_getElem?.1 hl
    rw [List.getElem?_take] at hk
    split at hk
    · rename_i hki
      rw [blocks_getElem] at hk
      obtain ⟨q, -, hq⟩ := ht.position hk
      have hlow := ht.ascending k i _ _ q first hki hk hi hq hb
      rw [startsIn_eq (hs l q hq)]
      simp only [Bool.and_eq_true, decide_eq_true_eq]
      omega
    · cases hk
  unfold coveredBlocks
  rw [hstop]
  refine (blocksBefore_eq ht hs [] hi hb (Nat.le_refl first) (by omega)).trans ?_
  congr 1
  calc
    _ = (g.blocks.take i).filter (g.startsIn first last) ++
        (g.blocks.drop i).filter (g.startsIn first last) := by rw [hbefore]; rfl
    _ = g.blocks.filter (g.startsIn first last) := by
      rw [← List.filter_append, List.take_append_drop]

theorem mem_coveredBlocks_iff (ht : g.Tiled size) (hs : g.Settled) {start stop : Label}
    {first last : Nat} {blocks : List Label} (h : g.coveredBlocks start stop = .ok blocks)
    (hstart : g.position? start = some first) (hstop : g.offset stop = .ok last)
    (hl : g.chain[i]? = some l) (hp : g.position? l = some p) :
    l ∈ blocks ↔ first ≤ p ∧ p < last := by
  rw [coveredBlocks_eq ht hs hstart hstop] at h
  cases h
  rw [List.mem_filter, startsIn_eq (hs l p hp)]
  simp only [Bool.and_eq_true, decide_eq_true_eq, and_iff_right ((mem_blocks g l).2 ⟨i, hl⟩)]

end LabelGraph

namespace Handlers

open LabelGraph

variable {g g' : LabelGraph}

theorem addEdges_ok {kind : EdgeKind} {successor : Label} {blocks : List Label} {u : Unit}
    (h : addEdges kind successor blocks g = .ok u g') :
    g.Widens g' ∧ ∀ block ∈ blocks, ⟨kind, successor⟩ ∈ g'.edges block := by
  induction blocks generalizing g with
  | nil =>
    obtain ⟨-, rfl⟩ := Step.pure_ok.1 h
    exact ⟨.refl g, by simp⟩
  | cons block rest ih =>
    obtain ⟨_, mid, h1, h2⟩ := Step.bind_ok.1 h
    obtain ⟨hw, he⟩ := addEdge_ok h1
    obtain ⟨hw', he'⟩ := ih h2
    refine ⟨hw.trans hw', fun b hb => ?_⟩
    rcases List.mem_cons.1 hb with rfl | hb
    · exact hw'.edges b _ he
    · exact he' b hb

/-- The edges to some handlers are those to the first of them, and then the others. -/
theorem complete_cons {handler : ExceptionHandler} {rest : Handlers} {u : Unit} :
    complete (handler :: rest) g = .ok u g' ↔ ∃ blocks mid,
      g.coveredBlocks handler.start handler.stop = .ok blocks ∧
        addEdges .exception handler.handler blocks g = .ok () mid ∧
          complete rest mid = .ok u g' := by
  simp only [complete, Step.bind_ok, Step.of_ok, Step.get_ok]
  constructor
  · rintro ⟨_, _, ⟨rfl, rfl⟩, blocks, _, ⟨hblocks, rfl⟩, _, mid, hadd, hrest⟩
    exact ⟨blocks, mid, hblocks, hadd, hrest⟩
  · rintro ⟨blocks, mid, hblocks, hadd, hrest⟩
    exact ⟨_, _, ⟨rfl, rfl⟩, blocks, _, ⟨hblocks, rfl⟩, (), mid, hadd, hrest⟩

theorem completeTyped_cons {handler : ExceptionHandler} {rest : Handlers} {u : Unit} :
    completeTyped (handler :: rest) g = .ok u g' ↔ ∃ type blocks mid,
      handler.caughtType = .ok type ∧
        g.coveredBlocks handler.start handler.stop = .ok blocks ∧
          addEdges (.caught type) handler.handler blocks g = .ok () mid ∧
            completeTyped rest (mid.markTarget handler.handler) = .ok u g' := by
  simp only [completeTyped, Step.bind_ok, Step.of_ok, Step.get_ok, Step.modify_ok]
  constructor
  · rintro ⟨type, _, ⟨htype, rfl⟩, _, _, ⟨rfl, rfl⟩, blocks, _, ⟨hblocks, rfl⟩, _, mid, hadd, _, _,
      rfl, hrest⟩
    exact ⟨type, blocks, mid, htype, hblocks, hadd, hrest⟩
  · rintro ⟨type, blocks, mid, htype, hblocks, hadd, hrest⟩
    exact ⟨type, _, ⟨htype, rfl⟩, _, _, ⟨rfl, rfl⟩, blocks, _, ⟨hblocks, rfl⟩, (), mid, hadd, (), _,
      rfl, hrest⟩

theorem complete_ok {handlers : Handlers} {u : Unit} (h : complete handlers g = .ok u g') :
    g.Widens g' := by
  induction handlers generalizing g with
  | nil =>
    obtain ⟨-, rfl⟩ := Step.pure_ok.1 h
    exact .refl g
  | cons handler rest ih =>
    obtain ⟨blocks, mid, -, hadd, hrest⟩ := complete_cons.1 h
    exact (addEdges_ok hadd).1.trans (ih hrest)

/-- Every block of a range gets an edge to the handler with the type caught. -/
theorem completeTyped_ok {handlers : Handlers} {u : Unit}
    (h : completeTyped handlers g = .ok u g') :
    g.Widens g' ∧ ∀ handler ∈ handlers, ∃ type blocks, handler.caughtType = .ok type ∧
      g.coveredBlocks handler.start handler.stop = .ok blocks ∧
      ∀ block ∈ blocks, ⟨.caught type, handler.handler⟩ ∈ g'.edges block := by
  induction handlers generalizing g with
  | nil =>
    obtain ⟨-, rfl⟩ := Step.pure_ok.1 h
    exact ⟨.refl g, by simp⟩
  | cons handler rest ih =>
    obtain ⟨type, blocks, mid, htype, hblocks, hadd, hrest⟩ := completeTyped_cons.1 h
    obtain ⟨hw, he⟩ := addEdges_ok hadd
    obtain ⟨hw', he'⟩ := ih hrest
    have hmark : mid.Widens (mid.markTarget handler.handler) := widens_setFlags mid _ _
    refine ⟨hw.trans (hmark.trans hw'), fun h hmem => ?_⟩
    rcases List.mem_cons.1 hmem with rfl | hmem
    · exact ⟨type, blocks, htype, hblocks, fun block hb =>
        (hmark.trans hw').edges block _ (he block hb)⟩
    · obtain ⟨type', blocks', h1, h2, h3⟩ := he' h hmem
      rw [(hw.trans hmark).coveredBlocks] at h2
      exact ⟨type', blocks', h1, h2, h3⟩

end Handlers

end JvmClass
