import JvmClass.Proofs.Assembly.Replacing
import JvmClass.Proofs.Flow.Calls
import JvmClass.Proofs.Flow.Exploration

/-!
# Reachable blocks

The walk from a block finds exactly the blocks to which edges lead from it
(`LabelGraph.mem_reachable_iff`). The computation of frames, which follows edges for another reason
and in another order, gives inputs to the same blocks (`MethodBuilder.reachable_agrees`). In whatever
order a body has been told, its labels are grouped into blocks (`MethodBuilder.grouped_run`). The
entry may then be an alias, the only one that can have an input, and its block counts; in a body that
has been told in order the entry is a block itself.
-/

namespace JvmClass

namespace LabelGraph

variable {g : LabelGraph} {α : Type} {along : Label → α → Edge → α} {entry block next : Label}
  {start value : α}

/-- Values are carried along edges only. -/
theorem Carries.reaches (h : g.Carries along entry start block value) : g.Reaches entry block := by
  induction h with
  | entry => exact .entry
  | step _ edge_mem ih => exact ih.step (List.mem_map.2 ⟨_, edge_mem, rfl⟩)

/-- To every block to which edges lead, some value is carried. -/
theorem Reaches.carries (along : Label → α → Edge → α) (start : α) (h : g.Reaches entry block) :
    ∃ value, g.Carries along entry start block value := by
  induction h with
  | entry => exact ⟨start, .entry⟩
  | step _ edge ih =>
    obtain ⟨value, hcarries⟩ := ih
    obtain ⟨e, he, rfl⟩ := List.mem_map.1 edge
    exact ⟨_, hcarries.step he⟩

/-- The walk finds the blocks to which edges lead, and no others. -/
theorem mem_reachable_iff : block ∈ g.reachable entry ↔ g.Reaches (g.blockOf entry) block := by
  rw [Std.HashMap.mem_iff_isSome_getElem?, Option.isSome_iff_exists]
  constructor
  · rintro ⟨value, hv⟩
    exact (carries_of_explore hv).reaches
  · intro h
    obtain ⟨value, hcarries⟩ := h.carries (fun _ _ _ => ()) ()
    exact hcarries.found

namespace Grouped

variable (hg : g.Grouped)
include hg

theorem successors_blockOf (l : Label) : g.successors (g.blockOf l) = g.successors l := by
  unfold successors edges
  rw [hg.blockOf_blockOf]

theorem blockOf_of_successor (h : next ∈ g.successors block) : g.blockOf next = next := by
  obtain ⟨e, -, rfl⟩ := List.mem_map.1 h
  exact hg.blockOf_blockOf _

/-- Edges lead from a block to the blocks of those labels to which they lead from an alias of it. -/
theorem reaches_blockOf_iff :
    g.Reaches (g.blockOf entry) block ↔ ∃ l, g.Reaches entry l ∧ g.blockOf l = block := by
  constructor
  · intro h
    induction h with
    | entry => exact ⟨entry, .entry, rfl⟩
    | @step block next _ edge ih =>
      obtain ⟨l, hl, rfl⟩ := ih
      rw [hg.successors_blockOf] at edge
      exact ⟨next, hl.step edge, hg.blockOf_of_successor edge⟩
  · rintro ⟨l, hl, rfl⟩
    induction hl with
    | entry => exact .entry
    | step _ edge ih =>
      rw [hg.blockOf_of_successor edge]
      refine ih.step ?_
      rwa [hg.successors_blockOf]

end Grouped

end LabelGraph

namespace FlowSetting

variable {flow : FlowSetting} {entry block : Label} {f : Frame} {r : Inputs}

theorem mem_frames_iff (hf : f.Regular) (h : flow.inputs entry f = .ok r) :
    block ∈ r.frames ↔ flow.graph.Reaches entry block := by
  rw [Std.HashMap.mem_iff_isSome_getElem?, Option.isSome_iff_exists]
  exact inputs_iff_reaches hf h block

/-- The blocks of the labels that get inputs are the reachable ones. -/
theorem mem_reachable_iff_frames (hg : flow.graph.Grouped) (hf : f.Regular)
    (h : flow.inputs entry f = .ok r) :
    block ∈ flow.graph.reachable entry ↔ ∃ label ∈ r.frames, flow.graph.blockOf label = block := by
  rw [LabelGraph.mem_reachable_iff, hg.reaches_blockOf_iff]
  simp only [mem_frames_iff hf h]

end FlowSetting

namespace MethodBuilder

variable {b b' : MethodBuilder} {u : Unit} {event : MethodEvent} {label : Label}

/-! ### Labels are grouped into blocks in whatever order a body is told -/

theorem grouped_placeLabel (hg : b.graph.Grouped) (h : placeLabel label b = .ok u b') :
    b'.graph.Grouped := by
  obtain ⟨g, ⟨hplace, rfl⟩ | ⟨hplace, g', hedge, rfl⟩⟩ := placeLabel_ok h
  · exact hg.afterPlacing (LabelGraph.placing hplace)
  · have hstarts := hg.afterPlacing (LabelGraph.placing hplace)
    obtain ⟨previous, -, hadd⟩ | ⟨-, rfl⟩ := hedge
    · exact hstarts.sameLayout (LabelGraph.sameLayout_addEdge hadd)
    · exact hstarts.sameLayout (LabelGraph.sameLayout_setFlags _ _ _)

theorem grouped_splitBlock (hg : b.graph.Grouped) (h : splitBlock b = .ok u b') :
    b'.graph.Grouped := by
  simp only [splitBlock, newLabel, Step.bind_ok, Step.get_ok, Step.modify_ok, Step.pure_ok] at h
  obtain ⟨label, _, ⟨_, _, ⟨rfl, rfl⟩, _, _, rfl, rfl, rfl⟩, hplace⟩ := h
  exact grouped_placeLabel hg.addLabel hplace

theorem Instruction.grouped (hi : Instruction event b b') (hg : b.graph.Grouped) :
    b'.graph.Grouped := by
  cases hi with
  | @mk offset effect started written recorded done start write record jumps _ ends =>
    have hstarted : started.graph.Grouped := by
      obtain ⟨-, ⟨_, -, rfl⟩ | ⟨-, hsplit⟩⟩ := startInstruction_ok start
      · exact hg
      · exact grouped_splitBlock hg hsplit
    have hdone : done.graph.Grouped := by
      obtain ⟨blocks, rfl⟩ := record_eq record
      refine LabelGraph.Grouped.sameLayout ?_ (jumpToAll_ok jumps).1.layout
      show written.graph.Grouped
      rw [write.graph]
      exact hstarted
    obtain rfl | rfl | hsplit := ends.cases
    · exact hdone
    · exact hdone
    · exact grouped_splitBlock hdone hsplit

theorem grouped_beginCode (hg : b.graph.Grouped) (h : beginCode b = .ok u b') :
    b'.graph.Grouped := by
  simp only [beginCode, newLabel, Step.bind_ok, Step.get_ok, Step.modify_ok, Step.pure_ok, onGraph,
    Step.on_ok] at h
  obtain ⟨entry, _, ⟨_, _, ⟨rfl, rfl⟩, _, _, rfl, rfl, rfl⟩, starts, _, ⟨g, hplace, rfl⟩, rfl⟩ := h
  exact hg.addLabel.afterPlacing (LabelGraph.placing hplace)

/-- An event before the end of a body. -/
theorem grouped_feed (hg : b.graph.Grouped) (hn : ∀ n, event.stage = some n → n ≤ 3)
    (h : feed event b = .ok u b') : b'.graph.Grouped := by
  by_cases hi : isInstruction event = true
  · exact (instruction_feed hi h).grouped hg
  by_cases hq : isQuiet event = true
  · rw [(quiet_feed hq h).graph]
    exact hg
  cases event with
  | newLabels count =>
    obtain rfl := Step.modify_ok.1 h
    exact hg.addLabels count
  | code => exact grouped_beginCode hg h
  | label label => exact grouped_placeLabel hg h
  | handler start stop handler catchType =>
    obtain rfl := Step.modify_ok.1 h
    exact hg
  | maxs stack locals => exact absurd (hn 4 rfl) (by decide)
  | finish => exact absurd (hn 5 rfl) (by decide)
  | annotated | «attribute» | frame | lineNumber | localVariable | codeAttribute =>
    exact absurd rfl hq
  | _ => exact absurd rfl hi

theorem grouped_run {events : List MethodEvent} (hg : b.graph.Grouped)
    (hn : ∀ event ∈ events, ∀ n, event.stage = some n → n ≤ 3)
    (h : ClassBuilder.feedMethod events b = .ok u b') : b'.graph.Grouped := by
  induction events generalizing b with
  | nil =>
    obtain ⟨-, rfl⟩ := Step.pure_ok.1 h
    exact hg
  | cons event rest ih =>
    obtain ⟨_, mid, h1, h2⟩ := Step.bind_ok.1 h
    exact ih (grouped_feed hg (hn event List.mem_cons_self) h1)
      (fun e he => hn e (List.mem_cons_of_mem event he)) h2

theorem Analyses.grouped {body : MethodBuilder} {entry : Label} {flow : FlowSetting}
    (ha : body.Analyses entry flow) (hg : body.graph.Grouped) : flow.graph.Grouped :=
  (hg.sameLayout (LabelGraph.sameLayout_resolve _)).sameLayout
    (Handlers.completeTyped_ok ha.graph).1.layout

/-- Reachability is exact, and both computations of it agree. In every graph, from every label, the
walk finds exactly the blocks to which edges lead from the block of the label. Of a body that has
been told in whatever order, whenever its frames can be computed, the blocks of the labels with an
input are those that the walk finds from the entry. Where the body has been told in order, the
labels with an input are these blocks themselves. -/
theorem reachable_agrees :
    (∀ (g : LabelGraph) (entry block : Label),
      block ∈ g.reachable entry ↔ g.Reaches (g.blockOf entry) block) ∧
    ∀ (setting : MethodSetting) (pool : ConstantPool) (events : List MethodEvent)
        (body : MethodBuilder) (entry : Label) (flow : FlowSetting) (r : Inputs),
      (∀ event ∈ events, ∀ n, event.stage = some n → n ≤ 3) →
      ClassBuilder.feedMethod events (ofSetting setting pool) = .ok () body →
      body.Analyses entry flow →
      flow.inputs entry body.entryFrame = .ok r →
      (∀ block, block ∈ flow.graph.reachable entry ↔
        ∃ label ∈ r.frames, flow.graph.blockOf label = block) ∧
      (setting.compute.frames = true → inOrder 0 events = true →
        ∀ block, block ∈ r.frames ↔ block ∈ flow.graph.reachable entry) := by
  refine ⟨fun g entry block => LabelGraph.mem_reachable_iff, ?_⟩
  intro setting pool events body entry flow r hearly hbody ha hr
  have hregular : body.entryFrame.Regular := Frame.regular_entry _ _ _ _
  have hg := ha.grouped (grouped_run LabelGraph.Grouped.empty hearly hbody)
  refine ⟨fun block => FlowSetting.mem_reachable_iff_frames hg hregular hr, ?_⟩
  intro hframes horder block
  obtain ⟨hc, -, -, hbegins, hunreached⟩ := coherent_of_run hframes horder hearly hbody
  have hz := ha.analyzed hc hbegins hunreached
  rw [LabelGraph.mem_reachable_iff, hz.tiled.blockOf_leader hz.first]
  exact FlowSetting.mem_frames_iff hregular hr

/-- In the body that jumps over an instruction, both computations find the first block and the last
one, and not the block between them. -/
theorem reachable_agrees_jumpsOver :
    (∀ event ∈ jumpsOver, ∀ n, event.stage = some n → n ≤ 3) ∧ inOrder 0 jumpsOver = true ∧
    ∃ body flow r,
      ClassBuilder.feedMethod jumpsOver (ofSetting constructorOfC .empty) = .ok () body ∧
      body.Analyses ⟨2⟩ flow ∧
      flow.inputs ⟨2⟩ body.entryFrame = .ok r ∧
      (∀ block, block ∈ r.frames ↔ block ∈ flow.graph.reachable ⟨2⟩) ∧
      ⟨2⟩ ∈ flow.graph.reachable ⟨2⟩ ∧ ⟨1⟩ ∈ flow.graph.reachable ⟨2⟩ ∧
      ⟨0⟩ ∉ flow.graph.reachable ⟨2⟩ := by
  obtain ⟨-, code, graph, blocks, hrun, -, hgraph, h2, h1⟩ := jumpsOver_run
  obtain ⟨r, hr, -, hf2, hf1, hf0⟩ := jumpsFlow_inputs h2 h1
  have hearly : ∀ event ∈ jumpsOver, ∀ n, event.stage = some n → n ≤ 3 := by
    simp [jumpsOver, MethodEvent.stage]
  have horder : inOrder 0 jumpsOver = true := by decide
  have ha : (jumpsBody code graph blocks).Analyses ⟨2⟩ (jumpsFlow blocks) := by
    refine ⟨rfl, ?_, rfl, rfl, rfl⟩
    show Handlers.completeTyped _ graph.resolve = _
    rw [hgraph]
    exact jumpsGraph_complete
  have hframe : (jumpsBody code graph blocks).entryFrame = constructsFrame [] := by
    show Frame.entry ⟨"C"⟩ (!(default : AccessFlags .ofMethod).hasReceiver) true ⟨[], none⟩ = _
    decide
  have hsame := ((reachable_agrees.2 _ _ _ _ _ _ r hearly hrun ha (by rw [hframe]; exact hr)).2
    rfl horder)
  refine ⟨hearly, horder, _, _, r, hrun, ha, by rw [hframe]; exact hr, hsame, ?_, ?_, ?_⟩
  · rw [← hsame, Std.HashMap.mem_iff_isSome_getElem?, hf2]
    rfl
  · rw [← hsame, Std.HashMap.mem_iff_isSome_getElem?, hf1]
    rfl
  · rw [← hsame, Std.HashMap.mem_iff_isSome_getElem?, hf0]
    decide

end MethodBuilder

end JvmClass
