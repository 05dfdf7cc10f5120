import JvmClass.Proofs.Assembly.Marking
import JvmClass.Proofs.Flow.Edges

/-!
# Bodies as blocks of instructions

Whatever is computed, the instructions of a body fall into blocks: those of a block stand one after
the other from its start to the start of the next block, only the last one jumps or passes control
on, and the edges out of the block are those of its jumps and the fall through into the next block
(`MethodBuilder.Charted`). What a block is known to do to the stack is what its instructions do.
-/

namespace JvmClass

/-- An instruction of a body: where it starts and stops, the event that told of it, and the effect
with which it is recorded. -/
structure Row where
  offset : Nat
  stop : Nat
  event : MethodEvent
  effect : Effect

namespace Row

variable {row : Row} {rows front rest : List Row} {p q : Nat}

/-- Instructions stand one after the other from one place to another. -/
inductive Laid : Nat → List Row → Nat → Prop
  | nil (p : Nat) : Laid p [] p
  | cons {p q : Nat} {row : Row} {rest : List Row} (offset : row.offset = p) (grows : p < row.stop)
    (h : Laid row.stop rest q) : Laid p (row :: rest) q

theorem Laid.le (h : Laid p rows q) : p ≤ q := by
  induction h with
  | nil => exact Nat.le_refl _
  | cons _ grows _ ih => exact Nat.le_trans (Nat.le_of_lt grows) ih

theorem Laid.eq_nil (h : Laid p rows p) : rows = [] := by
  cases h with
  | nil => rfl
  | cons _ grows h =>
    have := h.le
    omega

theorem Laid.append (h : Laid p front q) {r : Nat} (h' : Laid q rest r) :
    Laid p (front ++ rest) r := by
  induction h with
  | nil => exact h'
  | cons offset grows _ ih => exact .cons offset grows (ih h')

/-- Where the instructions before others stop, the others start. -/
theorem Laid.split (h : Laid p (front ++ rest) q) : ∃ r, Laid p front r ∧ Laid r rest q := by
  induction front generalizing p with
  | nil => exact ⟨p, .nil p, h⟩
  | cons row front ih =>
    cases h with
    | cons offset grows h =>
      obtain ⟨r, h1, h2⟩ := ih h
      exact ⟨r, .cons offset grows h1, h2⟩

theorem Laid.bounds (h : Laid p rows q) :
    ∀ row ∈ rows, p ≤ row.offset ∧ row.offset < row.stop ∧ row.stop ≤ q := by
  induction h with
  | nil =>
    intro row hr
    cases hr
  | cons offset grows h ih =>
    intro row hr
    rcases List.mem_cons.1 hr with rfl | hr
    · exact ⟨Nat.le_of_eq offset.symm, by omega, h.le⟩
    · have := ih row hr
      omega

/-- Instructions that stand in one place are the same. -/
theorem Laid.eq_of_offset (h : Laid p rows q) {row' : Row} (hr : row ∈ rows) (hr' : row' ∈ rows)
    (he : row.offset = row'.offset) : row = row' := by
  induction h with
  | nil => cases hr
  | cons offset grows h ih =>
    rcases List.mem_cons.1 hr with hfirst | hlater
    · rcases List.mem_cons.1 hr' with hfirst' | hlater'
      · exact hfirst.trans hfirst'.symm
      · have := h.bounds _ hlater'
        rw [hfirst] at he
        omega
    · rcases List.mem_cons.1 hr' with hfirst' | hlater'
      · have := h.bounds _ hlater
        rw [hfirst'] at he
        omega
      · exact ih hlater hlater'

/-- The edges to the targets of instructions. -/
def jumps (rows : List Row) : List Edge :=
  rows.flatMap fun row => row.event.targets.map (⟨.normal, ·⟩)

/-- Whether nothing falls through after instructions. -/
def closed (rows : List Row) : Bool := rows.getLast?.any (·.event.closes)

/-- The edge into the next block, unless nothing falls through. -/
def falls (rows : List Row) (next : Option Label) : List Edge :=
  if closed rows then [] else next.toList.map (⟨.normal, ·⟩)

/-- What is known of a block with some instructions. -/
def summary (keep : Bool) (rows : List Row) : BlockSummary :=
  rows.foldl (fun s row => s.add keep row.offset row.effect) {}

/-- No instruction jumps or passes control on. -/
def Straight (rows : List Row) : Prop :=
  ∀ row ∈ rows, row.event.targets = [] ∧ row.event.closes = false

theorem straight_nil : Straight [] := List.forall_mem_nil _

theorem Straight.concat (h : Straight rows) (ht : row.event.targets = [])
    (hc : row.event.closes = false) : Straight (rows ++ [row]) := by
  intro row' hr
  rcases List.mem_append.1 hr with hr | hr
  · exact h row' hr
  · rw [List.mem_singleton.1 hr]
    exact ⟨ht, hc⟩

theorem jumps_append : jumps (front ++ rest) = jumps front ++ jumps rest := List.flatMap_append

theorem jumps_singleton (row : Row) : jumps [row] = row.event.targets.map (⟨.normal, ·⟩) :=
  List.flatMap_singleton ..

theorem falls_none (rows : List Row) : falls rows none = [] := by
  unfold falls
  split <;> rfl

theorem closed_concat : closed (front ++ [row]) = row.event.closes := by
  simp [closed]

theorem summary_concat (keep : Bool) :
    summary keep (front ++ [row]) = (summary keep front).add keep row.offset row.effect := by
  simp [summary]

/-- The instructions that are kept of a block. -/
theorem instructions_summary (rows : List Row) :
    (summary true rows).instructions.toList = rows.map fun row => (row.offset, row.effect) := by
  induction rows using List.reverseRecOn with
  | nil => rfl
  | append_singleton front row ih =>
    rw [summary_concat, List.map_append, ← ih]
    simp [BlockSummary.add]

end Row

namespace LabelGraph

variable {g g' : LabelGraph} {size i : Nat} {l : Label}

/-- Where the block with a place in the chain stops. -/
def blockStop (g : LabelGraph) (size i : Nat) : Nat :=
  ((g.chain[i + 1]?).bind g.position?).getD size

theorem blockStop_last (hl : g.chain.back? = some l) :
    g.blockStop size (g.chain.size - 1) = size := by
  have := (Array.getElem?_eq_some_iff.1 (chain_of_back hl)).1
  unfold blockStop
  rw [Array.getElem?_eq_none (by omega)]
  rfl

theorem blockStop_congr (hchain : g'.chain = g.chain)
    (hpos : ∀ (i : Nat) l, g.chain[i]? = some l → g'.position? l = g.position? l) (i : Nat) :
    g'.blockStop size i = g.blockStop size i := by
  unfold blockStop
  rw [hchain]
  cases hn : g.chain[i + 1]? with
  | none => rfl
  | some next => rw [Option.bind_some, Option.bind_some, hpos _ _ hn]

end LabelGraph

namespace MethodBuilder

open Row (Laid Straight jumps closed falls summary)

variable {b b' : MethodBuilder} {u : Unit} {rowsOf : Label → List Row} {row : Row} {block : Label}

/-- The instructions of each block, and the edges that lead out of it. Instructions go to the last
block, unless nothing falls through after it. -/
structure Charted (b : MethodBuilder) (rowsOf : Label → List Row) : Prop where
  tiled : b.graph.Tiled b.code.size
  begins : b.Begins
  unlinked : b.graph.Unlinked
  chained : ∀ l, rowsOf l ≠ [] → ∃ i : Nat, b.graph.chain[i]? = some l
  laid : ∀ (i : Nat) l p, b.graph.chain[i]? = some l → b.graph.position? l = some p →
    Laid p (rowsOf l) (b.graph.blockStop b.code.size i)
  summary : ∀ l, b.blocks.getD l {} = summary b.setting.compute.frames (rowsOf l)
  edges : ∀ (i : Nat) l, b.graph.chain[i]? = some l →
    b.graph.edges l = jumps (rowsOf l) ++ falls (rowsOf l) b.graph.chain[i + 1]?
  inner : ∀ l front row rest, rowsOf l = front ++ row :: rest → rest ≠ [] →
    row.event.targets = [] ∧ row.event.closes = false
  current : ∀ l, b.current = some l → b.graph.chain.back? = some l

/-- The last block is open, unless nothing falls through after it. -/
def OpenLast (b : MethodBuilder) (rowsOf : Label → List Row) : Prop :=
  ∀ l, b.graph.chain.back? = some l → (b.current = none ↔ closed (rowsOf l) = true)

/-- A body between two events: the instructions of the block that is open, if there is one, neither
jump nor pass control on. -/
structure Chart (b : MethodBuilder) (rowsOf : Label → List Row) : Prop extends
    b.Charted rowsOf where
  openLast : b.OpenLast rowsOf
  straight : ∀ l, b.current = some l → Straight (rowsOf l)

namespace Charted

/-- The last block has nothing in it where it starts at the end of the code. -/
theorem rowsOf_end (h : b.Charted rowsOf) (hl : b.graph.chain.back? = some block)
    (hp : b.graph.position? block = some b.code.size) : rowsOf block = [] := by
  have := h.laid _ _ _ (LabelGraph.chain_of_back hl) hp
  rw [LabelGraph.blockStop_last hl] at this
  exact this.eq_nil

/-- What matters to blocks of a step that leaves the code and the blocks alone. -/
theorem congr (h : b.Charted rowsOf) (hgraph : b'.graph = b.graph) (hcode : b'.code = b.code)
    (hblocks : b'.blocks = b.blocks) (hsetting : b'.setting = b.setting)
    (hcurrent : b'.current = b.current) (hentry : b'.entry = b.entry) : b'.Charted rowsOf := by
  obtain ⟨h1, h2, h3, h4, h5, h6, h7, h8, h9⟩ := h
  constructor <;> first
    | assumption
    | (simp only [Begins, hgraph, hcode, hblocks, hsetting, hcurrent, hentry]; assumption)

/-- New labels do not matter. -/
theorem addLabels (h : b.Charted rowsOf) (count : Nat) :
    ({ b with graph := b.graph.addLabels count } : MethodBuilder).Charted rowsOf where
  tiled := h.tiled.addLabels count
  begins entry he := (LabelGraph.chain_addLabels _ _).symm ▸ h.begins entry he
  unlinked := h.unlinked.addLabels count
  chained l hl := by
    simp only [LabelGraph.chain_addLabels]
    exact h.chained l hl
  laid i l p hi hp := by
    simp only [LabelGraph.chain_addLabels, LabelGraph.position?_addLabels] at hi hp
    rw [LabelGraph.blockStop_congr (LabelGraph.chain_addLabels _ _)
      fun _ l _ => LabelGraph.position?_addLabels _ _ l]
    exact h.laid i l p hi hp
  summary := h.summary
  edges i l hi := by
    simp only [LabelGraph.chain_addLabels, LabelGraph.edges_addLabels] at hi ⊢
    exact h.edges i l hi
  inner := h.inner
  current l hl := by
    simp only [LabelGraph.chain_addLabels]
    exact h.current l hl

/-- Where a label starts a block, the only new edge is the one that leads from the open block into
it. -/
theorem falls_into (h : b.Charted rowsOf) {label : Label} {g g' : LabelGraph}
    (hplace : LabelGraph.place label b.code.size b.graph = .ok true g)
    (hg' : (∃ previous, b.current = some previous ∧
        LabelGraph.addEdge previous .normal label g = .ok () g') ∨
      (b.current = none ∧ g' = g.markTarget label)) :
    (∀ (i : Nat) l, b.graph.chain[i]? = some l → g'.edges l = b.graph.edges l ++
      if i + 1 = b.graph.chain.size then (b.current.map fun _ => ⟨.normal, label⟩).toList else []) ∧
    g'.edges label = [] := by
  obtain ⟨ht, hchain, hblock, -, hnew, -⟩ := h.tiled.starts (LabelGraph.placing hplace)
  obtain ⟨hedges, hfresh, -⟩ := LabelGraph.edges_place h.tiled h.unlinked hplace
  have hleader : ∀ (i : Nat) l, b.graph.chain[i]? = some l → g.blockOf l = l := by
    intro i l hi
    have := (Array.getElem?_eq_some_iff.1 hi).1
    refine ht.blockOf_leader (i := i) ?_
    rw [hchain, Array.getElem?_push, if_neg (by omega), hi]
  rcases hg' with ⟨previous, hprevious, hg'⟩ | ⟨hnone, rfl⟩
  · have hlast := LabelGraph.chain_of_back (h.current previous hprevious)
    refine ⟨fun i l hi => ?_, ?_⟩
    · rw [LabelGraph.edges_addEdge hg', hedges i l hi, hleader i l hi, hleader _ _ hlast, hprevious]
      have hlt := (Array.getElem?_eq_some_iff.1 hi).1
      congr 1
      by_cases he : l = previous
      · have := h.tiled.index_unique hi (he ▸ hlast)
        rw [if_pos he, if_pos (by omega)]
        rfl
      · rw [if_neg he, if_neg]
        intro hi'
        rw [← hi', Nat.add_sub_cancel, hi] at hlast
        exact he (Option.some.inj hlast)
    · rw [LabelGraph.edges_addEdge hg', hfresh rfl, hblock, hleader _ _ hlast, if_neg]
      · rfl
      · rintro rfl
        exact hnew _ hlast
  · rw [hnone]
    refine ⟨fun i l hi => ?_, ?_⟩
    · rw [LabelGraph.markTarget, LabelGraph.edges_setFlags, hedges i l hi]
      simp
    · rw [LabelGraph.markTarget, LabelGraph.edges_setFlags, hfresh rfl]

/-- A label is placed at the end of the code. -/
theorem placeLabel (h : b.Charted rowsOf) (hopen : b.OpenLast rowsOf) {label : Label}
    (hok : placeLabel label b = .ok u b') :
    b'.Chart rowsOf ∧ ∃ block, b'.current = some block ∧ rowsOf block = [] := by
  obtain ⟨g, ⟨hplace, rfl⟩ | ⟨hplace, g', hg', rfl⟩⟩ := placeLabel_ok hok
  · obtain ⟨ht, leader, hback, hchain, hblock, hend, hpos⟩ :=
      h.tiled.joins (LabelGraph.placing hplace)
    obtain ⟨hedges, -, hunlinked⟩ := LabelGraph.edges_place h.tiled h.unlinked hplace
    have hempty := h.rowsOf_end hback hend
    refine ⟨⟨⟨ht, fun e he => hchain.symm ▸ h.begins e he, hunlinked, ?_, ?_, h.summary, ?_,
      h.inner, ?_⟩, ?_, ?_⟩, leader, ?_, hempty⟩
    · simp only [hchain]
      exact h.chained
    · intro i l p hi hp
      simp only [hchain] at hi
      simp only [hpos i l hi] at hp
      rw [LabelGraph.blockStop_congr hchain hpos]
      exact h.laid i l p hi hp
    · intro i l hi
      simp only [hchain] at hi ⊢
      rw [hedges i l hi]
      exact h.edges i l hi
    · intro l hl
      cases hl
      simp only [hchain, hblock]
      exact hback
    · intro l hl
      simp only [hchain] at hl
      rw [hback] at hl
      cases hl
      simp [hempty, closed]
    · intro l hl
      cases hl
      rw [hblock, hempty]
      exact Row.straight_nil
    · simp only [hblock]
  · obtain ⟨ht, hchain, hblock, hend, hnew, hpos, hbefore⟩ :=
      h.tiled.starts (LabelGraph.placing hplace)
    obtain ⟨hedges, hfresh, hunlinked⟩ := LabelGraph.edges_place h.tiled h.unlinked hplace
    have hempty : rowsOf label = [] := by
      by_contra hne
      obtain ⟨i, hi⟩ := h.chained label hne
      exact hnew i hi
    have hlayout : g.SameLayout g' := by
      rcases hg' with ⟨previous, -, hg'⟩ | ⟨-, rfl⟩
      · exact LabelGraph.sameLayout_addEdge hg'
      · exact LabelGraph.sameLayout_setFlags _ _ _
    have hchain' : g'.chain = b.graph.chain.push label := hlayout.chain.trans hchain
    have hcases : ∀ (i : Nat) l, g'.chain[i]? = some l →
        b.graph.chain[i]? = some l ∨ i = b.graph.chain.size ∧ l = label := by
      intro i l hi
      rw [hchain', Array.getElem?_push] at hi
      split at hi
      · rename_i he
        cases hi
        exact Or.inr ⟨he, rfl⟩
      · exact Or.inl hi
    have hold : ∀ (i : Nat) l, b.graph.chain[i]? = some l → g'.chain[i]? = some l := by
      intro i l hi
      have := (Array.getElem?_eq_some_iff.1 hi).1
      rw [hchain', Array.getElem?_push, if_neg (by omega), hi]
    -- The block before the new one stops where the new one starts, at the end of the code.
    have hstop : ∀ (i : Nat) l, b.graph.chain[i]? = some l →
        g'.blockStop b.code.size i = b.graph.blockStop b.code.size i := by
      intro i l hi
      have hlt := (Array.getElem?_eq_some_iff.1 hi).1
      unfold LabelGraph.blockStop
      rw [hchain', Array.getElem?_push]
      split
      · rename_i he
        rw [Array.getElem?_eq_none (by omega), Option.bind_some, hlayout.position?, hend]
        rfl
      · cases hn : b.graph.chain[i + 1]? with
        | none => rfl
        | some next => rw [Option.bind_some, Option.bind_some, hlayout.position?, hpos _ _ hn]
    obtain ⟨hfall, hnone⟩ := falls_into h hplace hg'
    refine ⟨⟨⟨ht.sameLayout hlayout, fun e he => hold _ _ (h.begins e he), ?_, ?_, ?_, ?_, ?_,
      h.inner, ?_⟩, ?_, ?_⟩, label, ?_, hempty⟩
    · rcases hg' with ⟨previous, hprevious, hg'⟩ | ⟨-, rfl⟩
      · have hi := (LabelGraph.sameLayout_addEdge hg').chain ▸
          hold _ _ (LabelGraph.chain_of_back (h.current previous hprevious))
        exact hunlinked.addEdge hg' ((ht.blockOf_leader hi).symm ▸ hi)
      · exact hunlinked.setFlags _ _
    · intro l hl
      obtain ⟨i, hi⟩ := h.chained l hl
      exact ⟨i, hold i l hi⟩
    · intro i l p hi hp
      change g'.chain[i]? = some l at hi
      change g'.position? l = some p at hp
      rw [hlayout.position?] at hp
      rcases hcases i l hi with hi | ⟨rfl, rfl⟩
      · rw [hpos i l hi] at hp
        exact (congrArg (Laid p (rowsOf l)) (hstop i l hi)).mpr (h.laid i l p hi hp)
      · rw [hend] at hp
        cases hp
        have hlast := @LabelGraph.blockStop_last g' b.code.size l
          (by rw [hchain', Array.back?_push])
        rw [hchain', Array.size_push, Nat.add_sub_cancel] at hlast
        exact hempty ▸ (congrArg (Laid b.code.size []) hlast).mpr (.nil _)
    · intro l
      simp only [Std.HashMap.getD_alter]
      split
      · rename_i he
        obtain rfl := eq_of_beq he
        rw [Option.getD_some, ← h.summary, Std.HashMap.getD_eq_getD_getElem?]
      · exact h.summary l
    · intro i l hi
      change g'.chain[i]? = some l at hi
      show g'.edges l = jumps (rowsOf l) ++ falls (rowsOf l) g'.chain[i + 1]?
      rcases hcases i l hi with hi | ⟨rfl, rfl⟩
      · have hlt := (Array.getElem?_eq_some_iff.1 hi).1
        rw [hfall i l hi, h.edges i l hi, List.append_assoc]
        congr 1
        by_cases hlast : i + 1 = b.graph.chain.size
        · have hback : b.graph.chain.back? = some l := by
            rw [Array.back?_eq_getElem?, ← hlast]
            exact hi
          rw [Array.getElem?_eq_none (Nat.le_of_eq hlast.symm), hchain', hlast,
            Array.getElem?_push, if_pos rfl, if_pos rfl]
          unfold falls
          cases hc : b.current with
          | none =>
            rw [(hopen l hback).1 hc]
            rfl
          | some previous =>
            have : closed (rowsOf l) = false := by
              rw [← Bool.not_eq_true, ← hopen l hback, hc]
              simp
            simp [this]
        · rw [hchain', Array.getElem?_push, if_neg hlast, if_neg hlast, List.append_nil]
      · rw [hempty, hnone, hchain', Array.getElem?_eq_none (by simp)]
        simp [jumps, falls]
    · intro l hl
      cases hl
      show g'.chain.back? = _
      rw [hchain', hlayout.blockOf, hblock, Array.back?_push]
    · intro l hl
      change g'.chain.back? = some l at hl
      rw [hchain', Array.back?_push] at hl
      cases hl
      simp [hempty, closed]
    · intro l hl
      cases hl
      rw [hlayout.blockOf, hblock, hempty]
      exact Row.straight_nil
    · simp only [hlayout.blockOf, hblock]

/-- The end of an instruction in the open block: it is recorded, and its jumps lead out of the
block. -/
theorem append (h : b.Charted rowsOf) (row : Row) (hcurrent : b.current = some block)
    (hstraight : Straight (rowsOf block)) (hoffset : row.offset = b.code.size)
    (hstop : row.stop = b'.code.size) (hgrows : b.code.size < b'.code.size)
    (hlayout : b.graph.SameLayout b'.graph) (hunlinked : b'.graph.Unlinked)
    (hedges : ∀ (i : Nat) l, b.graph.chain[i]? = some l → b'.graph.edges l = b.graph.edges l ++
      if l = block then row.event.targets.map (⟨.normal, ·⟩) else [])
    (hblocks : b'.blocks = b.blocks.alter block fun summary =>
      some ((summary.getD {}).add b.setting.compute.frames row.offset row.effect))
    (hsetting : b'.setting = b.setting) (hcurrent' : b'.current = b.current)
    (hentry : b'.entry = b.entry) :
    b'.Charted fun l => rowsOf l ++ if l = block then [row] else [] := by
  have hback := h.current block hcurrent
  have hlast := LabelGraph.chain_of_back hback
  refine ⟨(h.tiled.sameLayout hlayout).mono (Nat.le_of_lt hgrows), ?_, hunlinked, ?_, ?_, ?_, ?_,
    ?_, by rw [hcurrent', hlayout.chain]; exact h.current⟩
  · unfold Begins
    rw [hentry, hlayout.chain]
    exact h.begins
  · intro l hl
    rw [hlayout.chain]
    by_cases he : l = block
    · exact ⟨_, he ▸ hlast⟩
    · rw [if_neg he, List.append_nil] at hl
      exact h.chained l hl
  · intro i l p hi hp
    rw [hlayout.chain] at hi
    rw [hlayout.position?] at hp
    rw [LabelGraph.blockStop_congr hlayout.chain fun _ l _ => hlayout.position? l]
    have hold := h.laid i l p hi hp
    by_cases he : l = block
    · subst he
      obtain rfl := h.tiled.index_unique hi hlast
      rw [LabelGraph.blockStop_last hback] at hold ⊢
      rw [if_pos rfl]
      exact hold.append (.cons hoffset (hstop ▸ hgrows) (hstop ▸ .nil _))
    · rw [if_neg he, List.append_nil]
      unfold LabelGraph.blockStop at hold ⊢
      cases hn : b.graph.chain[i + 1]? with
      | none =>
        have hsize := (Array.getElem?_eq_some_iff.1 hi).1
        have := Array.getElem?_eq_none_iff.1 hn
        rw [show i = b.graph.chain.size - 1 by omega, hlast] at hi
        exact absurd (Option.some.inj hi).symm he
      | some next =>
        obtain ⟨q, -, hq⟩ := h.tiled.position hn
        rw [hn, Option.bind_some, hq] at hold
        rwa [Option.bind_some, hq]
  · intro l
    rw [hblocks, hsetting, Std.HashMap.getD_alter]
    by_cases he : l = block
    · rw [he, if_pos (beq_self_eq_true block), if_pos rfl, Row.summary_concat, ← h.summary,
        Option.getD_some, Std.HashMap.getD_eq_getD_getElem?]
    · rw [if_neg (by simpa using Ne.symm he), if_neg he, List.append_nil]
      exact h.summary l
  · intro i l hi
    rw [hlayout.chain] at hi ⊢
    rw [hedges i l hi, h.edges i l hi]
    by_cases he : l = block
    · subst he
      obtain rfl := h.tiled.index_unique hi hlast
      have hsize := (Array.getElem?_eq_some_iff.1 hi).1
      rw [if_pos rfl, if_pos rfl, Array.getElem?_eq_none (by omega), Row.falls_none, Row.falls_none,
        Row.jumps_append, List.append_nil, List.append_nil, Row.jumps_singleton]
    · rw [if_neg he, if_neg he, List.append_nil, List.append_nil]
  · intro l front row' rest hl hrest
    by_cases he : l = block
    · subst he
      rw [if_pos rfl] at hl
      obtain ⟨init, last, rfl⟩ := (List.eq_nil_or_concat rest).resolve_left hrest
      rw [List.concat_eq_append, ← List.cons_append, ← List.append_assoc] at hl
      refine hstraight row' ?_
      rw [List.append_inj_left' hl rfl]
      simp
    · rw [if_neg he, List.append_nil] at hl
      exact h.inner l front row' rest hl hrest

end Charted

/-- The edges that jumps add. -/
theorem jumpToAll_edges {targets : List Label} {size i : Nat} (h : jumpToAll targets b = .ok u b')
    (ht : b.graph.Tiled size) (hu : b.graph.Unlinked) (hcurrent : b.current = some block)
    (hi : b.graph.chain[i]? = some block) :
    b'.graph.Unlinked ∧ ∀ (j : Nat) l, b.graph.chain[j]? = some l →
      b'.graph.edges l = b.graph.edges l ++
        if l = block then targets.map (⟨.normal, ·⟩) else [] := by
  induction targets generalizing b with
  | nil =>
    obtain ⟨-, rfl⟩ := Step.pure_ok.1 h
    exact ⟨hu, fun j l _ => by simp⟩
  | cons target rest ih =>
    obtain ⟨_, mid, hjump, hrest⟩ := Step.bind_ok.1 h
    obtain ⟨g, ⟨hnone, -⟩ | ⟨open_, hopen, hedge⟩, rfl⟩ := jumpTo_graph hjump
    · rw [hnone] at hcurrent
      cases hcurrent
    · rw [hcurrent] at hopen
      cases hopen
      have hlayout := (LabelGraph.sameLayout_addEdge hedge).trans
        (LabelGraph.sameLayout_setFlags g target ⟨true, false⟩)
      have hself := ht.blockOf_leader hi
      obtain ⟨hunlinked, hedges⟩ := ih hrest (ht.sameLayout hlayout)
        ((hu.addEdge hedge (hself.symm ▸ hi)).setFlags target ⟨true, false⟩) hcurrent
        (hlayout.chain ▸ hi)
      refine ⟨hunlinked, fun j l hj => ?_⟩
      rw [hedges j l (hlayout.chain ▸ hj)]
      show (g.setFlags target ⟨true, false⟩).edges l ++ _ = _
      rw [LabelGraph.edges_setFlags, LabelGraph.edges_addEdge hedge, ht.blockOf_leader hj, hself,
        List.append_assoc]
      congr 1
      split <;> simp

namespace Chart

theorem addLabels (h : b.Chart rowsOf) (count : Nat) :
    ({ b with graph := b.graph.addLabels count } : MethodBuilder).Chart rowsOf where
  toCharted := h.toCharted.addLabels count
  openLast l hl := h.openLast l (by rwa [LabelGraph.chain_addLabels] at hl)
  straight := h.straight

/-- What matters to blocks of a step that leaves the code and the blocks alone. -/
theorem congr (h : b.Chart rowsOf) (hgraph : b'.graph = b.graph) (hcode : b'.code = b.code)
    (hblocks : b'.blocks = b.blocks) (hsetting : b'.setting = b.setting)
    (hcurrent : b'.current = b.current) (hentry : b'.entry = b.entry) : b'.Chart rowsOf where
  toCharted := h.toCharted.congr hgraph hcode hblocks hsetting hcurrent hentry
  openLast := by
    unfold OpenLast
    rw [hgraph, hcurrent]
    exact h.openLast
  straight := by
    rw [hcurrent]
    exact h.straight

theorem quiet (h : b.Chart rowsOf) (hq : b.Quiet b') (hcode : b'.code = b.code) :
    b'.Chart rowsOf :=
  h.congr hq.graph hcode hq.blocks hq.setting hq.current hq.entry

theorem placeLabel (h : b.Chart rowsOf) {label : Label}
    (hok : MethodBuilder.placeLabel label b = .ok u b') : b'.Chart rowsOf :=
  (h.toCharted.placeLabel h.openLast hok).1

end Chart

theorem Charted.splitBlock (h : b.Charted rowsOf) (hopen : b.OpenLast rowsOf)
    (hok : MethodBuilder.splitBlock b = .ok u b') :
    b'.Chart rowsOf ∧ ∃ block, b'.current = some block ∧ rowsOf block = [] := by
  simp only [MethodBuilder.splitBlock, newLabel, Step.bind_ok, Step.get_ok, Step.modify_ok,
    Step.pure_ok] at hok
  obtain ⟨label, _, ⟨_, _, ⟨rfl, rfl⟩, _, _, rfl, rfl, rfl⟩, hplace⟩ := hok
  refine (h.addLabels 1).placeLabel (fun l hl => hopen l ?_) hplace
  rwa [LabelGraph.chain_addLabels] at hl

theorem Chart.startInstruction (h : b.Chart rowsOf) {offset : Nat}
    (hok : MethodBuilder.startInstruction b = .ok offset b') :
    b'.Chart rowsOf ∧ ∃ block, b'.current = some block := by
  obtain ⟨-, ⟨block, hb, rfl⟩ | ⟨-, hsplit⟩⟩ := startInstruction_ok hok
  · exact ⟨h, block, hb⟩
  · exact (h.toCharted.splitBlock h.openLast hsplit).imp_right fun ⟨block, hb, _⟩ => ⟨block, hb⟩

theorem maxLocals_splitBlock (h : splitBlock b = .ok u b') : b'.maxLocals = b.maxLocals := by
  simp only [splitBlock, newLabel, Step.bind_ok, Step.get_ok, Step.modify_ok, Step.pure_ok] at h
  obtain ⟨label, _, ⟨_, _, ⟨rfl, rfl⟩, _, _, rfl, rfl, rfl⟩, hplace⟩ := h
  obtain ⟨g, ⟨-, rfl⟩ | ⟨-, g', -, rfl⟩⟩ := placeLabel_ok hplace
  · rfl
  · rfl

theorem maxLocals_startInstruction {offset : Nat} (h : startInstruction b = .ok offset b') :
    b'.maxLocals = b.maxLocals := by
  obtain ⟨-, ⟨-, -, rfl⟩ | ⟨-, hsplit⟩⟩ := startInstruction_ok h
  · rfl
  · exact maxLocals_splitBlock hsplit

/-- An instruction is the next one of some block. -/
theorem Chart.instruction (h : b.Chart rowsOf) (hc : b.setting.compute.computesMaxs = true)
    {event : MethodEvent} (hi : Instruction event b b') :
    ∃ block effect, Effects b.code.size event (.ok effect) ∧ event.slots ≤ b'.maxLocals ∧
      b.maxLocals ≤ b'.maxLocals ∧ b.code.size < b'.code.size ∧ b'.Chart fun l => rowsOf l ++
        if l = block then [⟨b.code.size, b'.code.size, event, effect⟩] else [] := by
  obtain @⟨offset, effect, started, written, recorded, done, start, write, record, jumps, grows,
    -, -, effects, room, closes, falls⟩ := hi
  obtain ⟨hstarted, block, hcurrent⟩ := h.startInstruction start
  obtain ⟨hoffset, happends⟩ := appends_startInstruction start
  have hsize : started.code.size = b.code.size := congrArg Array.size happends.code
  obtain ⟨e, rfl, hrecord⟩ := record_computes
    (by rw [write.setting, happends.setting, hc]) record
  obtain rfl := hrecord block (by rw [write.current, hcurrent])
  obtain ⟨hextends, -⟩ := jumpToAll_ok jumps
  have hlast := LabelGraph.chain_of_back (hstarted.current block hcurrent)
  have hgraph := write.graph
  obtain ⟨hunlinked, hedges⟩ := jumpToAll_edges jumps
    (hgraph ▸ hstarted.tiled : written.graph.Tiled started.code.size) (hgraph ▸ hstarted.unlinked)
    (write.current.trans hcurrent) (hgraph ▸ hlast : written.graph.chain[_]? = some block)
  have hlayout : started.graph.SameLayout done.graph := hgraph ▸ hextends.layout
  have hsetting : done.setting = started.setting := hextends.setting.trans write.setting
  have hopen : done.current = some block :=
    hextends.current.trans (write.current.trans hcurrent)
  have hdone := hstarted.toCharted.append ⟨b.code.size, done.code.size, event, e⟩
    hcurrent (hstarted.straight block hcurrent) hsize.symm rfl grows hlayout hunlinked
    (fun i l hl => (hedges i l (hgraph ▸ hl)).trans (congrArg (·.edges l ++ _) hgraph))
    (by rw [hextends.blocks, ← hoffset, ← write.setting, ← write.blocks]) hsetting
    (hopen.trans hcurrent.symm) (hextends.entry.trans write.entry)
  have hback : done.graph.chain.back? = some block := hdone.current block hopen
  have hroom : event.slots ≤ done.maxLocals := Nat.le_trans room hextends.room
  have hkept : b.maxLocals ≤ done.maxLocals := by
    rw [← maxLocals_startInstruction start]
    exact Nat.le_trans write.room hextends.room
  have hgrows : b.code.size < done.code.size := hsize ▸ grows
  refine ⟨block, e, hoffset ▸ effects, ?_⟩
  cases hevent : event.closes with
  | true =>
    obtain rfl := Step.modify_ok.1 (closes hevent)
    refine ⟨hroom, hkept, hgrows, ⟨⟨hdone.tiled, hdone.begins, hdone.unlinked, hdone.chained,
      hdone.laid, hdone.summary, hdone.edges, hdone.inner, nofun⟩, fun l hl => ?_, nofun⟩⟩
    cases hback.symm.trans hl
    simp only [if_pos, Row.closed_concat, hevent]
  | false =>
    have hstays : done.OpenLast fun l => rowsOf l ++
        if l = block then [⟨b.code.size, done.code.size, event, e⟩] else [] := by
      intro l hl
      cases hback.symm.trans hl
      simp only [if_pos, Row.closed_concat, hevent, hopen]
      simp
    rcases falls hevent with ⟨rfl, htargets⟩ | hsplit
    · refine ⟨hroom, hkept, hgrows, ⟨hdone, hstays, fun l hl => ?_⟩⟩
      cases hopen.symm.trans hl
      rw [if_pos rfl]
      exact (hstarted.straight block hcurrent).concat htargets hevent
    · obtain ⟨hchart, -⟩ := hdone.splitBlock hstays hsplit
      have hsize' : b'.code.size = done.code.size :=
        congrArg Array.size (appends_splitBlock hsplit).code
      rw [hsize', maxLocals_splitBlock hsplit]
      exact ⟨hroom, hkept, hgrows, hchart⟩

/-- The instructions of a block. -/
def inBlock (rows : List (Label × Row)) (l : Label) : List Row :=
  (rows.filter (·.1 = l)).map Prod.snd

theorem mem_inBlock {rows : List (Label × Row)} {l : Label} {row : Row} :
    row ∈ inBlock rows l ↔ (l, row) ∈ rows := by
  simp [inBlock]

theorem inBlock_concat (rows : List (Label × Row)) (block : Label) (row : Row) :
    inBlock (rows ++ [(block, row)]) =
      fun l => inBlock rows l ++ if l = block then [row] else [] := by
  funext l
  unfold inBlock
  rw [List.filter_append, List.map_append]
  congr 1
  by_cases he : block = l
  · simp [he]
  · simp [he, Ne.symm he]

/-- A chart, before whose first block there is nothing. -/
structure Begun (stage : Nat) (b : MethodBuilder) (rowsOf : Label → List Row) : Prop extends
    b.Chart rowsOf where
  unstarted : stage = 0 → b.code.size = 0 ∧ b.graph.chain = #[] ∧ b.current = none

theorem begun_ofSetting (setting : MethodSetting) (pool : ConstantPool) :
    Begun 0 (ofSetting setting pool) (inBlock []) where
  tiled := LabelGraph.Tiled.empty
  begins := nofun
  unlinked := LabelGraph.unlinked_empty
  chained l hl := absurd rfl hl
  laid i l p hi := by cases hi
  summary l := Std.HashMap.getD_empty
  edges i l hi := by cases hi
  inner l front row rest hl := by cases front <;> cases hl
  current := nofun
  openLast l hl := by cases hl
  straight := nofun
  unstarted _ := ⟨rfl, rfl, rfl⟩

theorem Begun.beginCode {rowsOf : Label → List Row} (h : Begun 0 b rowsOf)
    (hok : beginCode b = .ok u b') :
    Begun 1 b' rowsOf ∧ b'.code = b.code ∧ b'.maxLocals = b.maxLocals ∧ b'.setting = b.setting := by
  obtain ⟨hsize, hchain, hcurrent⟩ := h.unstarted rfl
  have hempty : ∀ l, rowsOf l = [] := by
    intro l
    by_contra hne
    obtain ⟨i, hi⟩ := h.chained l hne
    rw [hchain] at hi
    cases hi
  simp only [MethodBuilder.beginCode, newLabel, Step.bind_ok, Step.get_ok, Step.modify_ok,
    Step.pure_ok, onGraph, Step.on_ok] at hok
  obtain ⟨entry, _, ⟨_, _, ⟨rfl, rfl⟩, _, _, rfl, rfl, rfl⟩, starts, _, ⟨g, hg, rfl⟩, rfl⟩ := hok
  have ht := h.tiled.addLabel
  rw [hsize] at ht
  cases starts with
  | false =>
    obtain ⟨-, leader, hback, -⟩ := ht.joins (LabelGraph.placing hg)
    rw [show b.graph.addLabel.chain = #[] from hchain] at hback
    cases hback
  | true =>
    obtain ⟨ht', hchain', -, hend, -⟩ := ht.starts (LabelGraph.placing hg)
    obtain ⟨-, hfresh, hunlinked⟩ := LabelGraph.edges_place ht h.unlinked.addLabel hg
    have hfirst : g.chain = #[b.graph.nextLabel] := by
      rw [hchain', show b.graph.addLabel.chain = #[] from hchain]
      rfl
    have honly : ∀ (i : Nat) l, g.chain[i]? = some l → i = 0 ∧ l = b.graph.nextLabel := by
      intro i l hi
      rw [hfirst] at hi
      obtain ⟨hlt, hi⟩ := Array.getElem?_eq_some_iff.1 hi
      obtain rfl : i = 0 := Nat.lt_one_iff.1 hlt
      exact ⟨rfl, hi.symm⟩
    refine ⟨⟨⟨⟨hsize.symm ▸ ht', fun e he => ?_, hunlinked, fun l hl => absurd (hempty l) hl,
      fun i l p hi hp => ?_, h.summary, fun i l hi => ?_, h.inner, fun l hl => ?_⟩, fun l hl => ?_,
      fun l _ => ?_⟩, fun hstage => absurd hstage Nat.one_ne_zero⟩, rfl, rfl, rfl⟩
    · cases he
      exact hfirst ▸ rfl
    · change g.chain[i]? = some l at hi
      change g.position? l = some p at hp
      obtain ⟨rfl, rfl⟩ := honly i l hi
      rw [hend] at hp
      cases hp
      show Row.Laid 0 _ (g.blockStop b.code.size 0)
      have hstop : g.blockStop b.code.size 0 = 0 := by
        unfold LabelGraph.blockStop
        rw [hfirst]
        exact hsize
      rw [hempty, hstop]
      exact .nil 0
    · change g.chain[i]? = some l at hi
      show g.edges l = _ ++ Row.falls _ g.chain[i + 1]?
      obtain ⟨rfl, rfl⟩ := honly i l hi
      rw [hempty, hfresh rfl, hfirst]
      rfl
    · cases hl
      exact hfirst ▸ rfl
    · rw [hempty]
      exact ⟨fun hnone => absurd hnone (Option.some_ne_none _),
        fun hclosed => absurd hclosed Bool.false_ne_true⟩
    · rw [hempty]
      exact Row.straight_nil

/-- What a run adds to the instructions of a body. -/
structure Charting (events : List MethodEvent) (b b' : MethodBuilder)
    (rows more : List (Label × Row)) : Prop where
  chart : b'.Chart (inBlock (rows ++ more))
  told : more.map (fun x => (x.2.offset, x.2.event)) = told events b
  laid : Row.Laid b.code.size (more.map Prod.snd) b'.code.size
  effects : ∀ x ∈ more, Effects x.2.offset x.2.event (.ok x.2.effect)
  slots : ∀ x ∈ more, x.2.event.slots ≤ b'.maxLocals
  room : b.maxLocals ≤ b'.maxLocals

/-- An event that writes no instruction. -/
theorem Begun.feed_between {stage : Nat} {event : MethodEvent} {rowsOf : Label → List Row}
    (h : Begun stage b rowsOf) (hi : isInstruction event = false)
    (hstage : ∀ n, event.stage = some n → stage ≤ n ∧ n ≤ 3) (hok : feed event b = .ok u b') :
    Begun (stageAfterEvent stage event) b' rowsOf ∧ b.maxLocals ≤ b'.maxLocals := by
  have hcode : b'.code = b.code := (appends_feed hi (fun n hn => (hstage n hn).2) hok).code
  by_cases hq : isQuiet event = true
  · have hquiet := quiet_feed hq hok
    refine ⟨⟨h.quiet hquiet hcode, fun he => ?_⟩, hquiet.room⟩
    rw [hcode, hquiet.graph, hquiet.current]
    exact h.unstarted (stageAfterEvent_eq_zero he).2
  cases event with
  | newLabels count =>
    obtain rfl := Step.modify_ok.1 hok
    refine ⟨⟨h.addLabels count, fun he => ?_⟩, Nat.le_refl _⟩
    rw [LabelGraph.chain_addLabels]
    exact h.unstarted he
  | code =>
    obtain rfl := Nat.le_zero.1 (hstage 0 rfl).1
    obtain ⟨hbegun, -, hlocals, -⟩ := h.beginCode hok
    exact ⟨hbegun, Nat.le_of_eq hlocals.symm⟩
  | handler start stop handler catchType =>
    obtain rfl := Step.modify_ok.1 hok
    exact ⟨⟨h.toChart.congr rfl rfl rfl rfl rfl rfl, nofun⟩, Nat.le_refl _⟩
  | label label =>
    refine ⟨⟨h.placeLabel hok, nofun⟩, ?_⟩
    obtain ⟨g, ⟨-, rfl⟩ | ⟨-, g', -, rfl⟩⟩ := placeLabel_ok hok
    · exact Nat.le_refl _
    · exact Nat.le_refl _
  | maxs stack locals => exact absurd (hstage 4 rfl).2 (by decide)
  | finish => exact absurd (hstage 5 rfl).2 (by decide)
  | annotated | «attribute» | frame | lineNumber | localVariable | codeAttribute =>
    exact absurd rfl hq
  | _ => cases hi

/-- A run in the order of stages up to the end of the code. -/
theorem Begun.run {stage : Nat} {events : List MethodEvent} {rows : List (Label × Row)}
    (h : Begun stage b (inBlock rows)) (hc : b.setting.compute.computesMaxs = true)
    (horder : inOrder stage events = true)
    (hlast : ∀ event ∈ events, ∀ n, event.stage = some n → n ≤ 3)
    (hok : ClassBuilder.feedMethod events b = .ok u b') :
    ∃ more, Charting events b b' rows more := by
  induction events generalizing b stage rows with
  | nil =>
    obtain ⟨-, rfl⟩ := Step.pure_ok.1 hok
    exact ⟨[], (List.append_nil rows).symm ▸ h.toChart, rfl, .nil _, List.forall_mem_nil _,
      List.forall_mem_nil _, Nat.le_refl _⟩
  | cons event rest ih =>
    obtain ⟨_, mid, hfeed, hrest⟩ := Step.bind_ok.1 hok
    obtain ⟨hstage, horder⟩ := inOrder_cons.1 horder
    have hlater := fun e he => hlast e (List.mem_cons_of_mem event he)
    by_cases hi : isInstruction event = true
    · obtain ⟨pieces, hwrites, -⟩ := writes_feed hi hfeed
      obtain ⟨block, effect, heffect, hslots, hroom, hgrows, hchart⟩ :=
        h.toChart.instruction hc (instruction_feed hi hfeed)
      rw [← inBlock_concat] at hchart
      have hstarted : stageAfterEvent stage event ≠ 0 := fun he => by
        have := (stageAfterEvent_eq_zero he).1
        rw [stage_of_isInstruction hi] at this
        cases this
      obtain ⟨more, hmore⟩ := ih ⟨hchart, fun he => absurd he hstarted⟩ (hwrites.setting ▸ hc)
        horder hlater hrest
      have hrows := hmore.chart
      rw [List.append_assoc, List.singleton_append] at hrows
      refine ⟨_ :: more, hrows, ?_, .cons rfl hgrows hmore.laid, ?_, ?_,
        Nat.le_trans hroom hmore.room⟩
      · rw [told_cons hfeed, if_pos hi, List.map_cons, hmore.told]
      · exact List.forall_mem_cons.2 ⟨heffect, hmore.effects⟩
      · exact List.forall_mem_cons.2 ⟨Nat.le_trans hslots hmore.room, hmore.slots⟩
    · have hi := Bool.eq_false_iff.2 hi
      have hends := hlast event List.mem_cons_self
      have hsame := appends_feed hi hends hfeed
      obtain ⟨hbegun, hroom⟩ :=
        h.feed_between hi (fun n hn => ⟨hstage n hn, hends n hn⟩) hfeed
      obtain ⟨more, hmore⟩ := ih hbegun (hsame.setting ▸ hc) horder hlater hrest
      refine ⟨more, hmore.chart, ?_, ?_, hmore.effects, hmore.slots,
        Nat.le_trans hroom hmore.room⟩
      · rw [told_cons hfeed, if_neg (by simp [hi]), hmore.told]
      · have hsize : mid.code.size = b.code.size := congrArg Array.size hsame.code
        exact hsize ▸ hmore.laid

/-- The instructions of a run from the first event on. -/
theorem charting_of_run {setting : MethodSetting} {pool : ConstantPool} {events : List MethodEvent}
    (hc : setting.compute.computesMaxs = true) (horder : inOrder 0 events = true)
    (hlast : ∀ event ∈ events, ∀ n, event.stage = some n → n ≤ 3)
    (hok : ClassBuilder.feedMethod events (ofSetting setting pool) = .ok u b') :
    ∃ rows, Charting events (ofSetting setting pool) b' [] rows :=
  (begun_ofSetting setting pool).run hc horder hlast hok

/-- Where frames are computed, what is simulated of a block are its instructions. -/
theorem Charted.instructions {rowsOf : Label → List Row} (h : b.Charted rowsOf)
    (hf : b.setting.compute.frames = true) {flow : FlowSetting} (hblocks : flow.blocks = b.blocks)
    (l : Label) :
    flow.instructions l = (rowsOf l).map fun row => (row.offset, row.effect) := by
  have hsummary := h.summary l
  rw [hf] at hsummary
  rw [← Row.instructions_summary, ← hsummary, FlowSetting.instructions, hblocks,
    Std.HashMap.getD_eq_getD_getElem?]
  cases b.blocks[l]? <;> rfl

/-- The instructions of a block stand where the block does. -/
theorem Charted.spans {rowsOf : Label → List Row} (h : b.Charted rowsOf) {g : LabelGraph}
    (hchain : g.chain = b.graph.chain)
    (hoffset : ∀ label, g.offset label = b.graph.resolve.offset label) {l : Label} {row : Row}
    (hrow : row ∈ rowsOf l) : ∃ start stop, g.Spans b.code.size g.blocks l start stop ∧
      start ≤ row.offset ∧ row.stop ≤ stop := by
  obtain ⟨i, hi⟩ := h.chained l (List.ne_nil_of_mem hrow)
  obtain ⟨p, -, hp⟩ := h.tiled.position hi
  have hplaced : ∀ {l q}, b.graph.position? l = some q → g.offset l = .ok q := by
    intro l q hq
    rw [hoffset, LabelGraph.offset_resolve, hq]
  obtain ⟨hle, -, hstop⟩ := (h.laid i l p hi hp).bounds row hrow
  refine ⟨p, _, LabelGraph.Spans.iff_getElem.2 ⟨i, ?_, hplaced hp, ?_⟩, hle, hstop⟩
  · rw [LabelGraph.blocks_getElem, hchain, hi]
  · rw [LabelGraph.blocks_getElem, hchain]
    unfold LabelGraph.blockStop
    cases hn : b.graph.chain[i + 1]? with
    | none => exact Or.inl ⟨rfl, rfl⟩
    | some next =>
      obtain ⟨q, -, hq⟩ := h.tiled.position hn
      refine Or.inr ⟨next, rfl, ?_⟩
      rw [Option.bind_some, hq]
      exact hplaced hq

end MethodBuilder

end JvmClass
