import JvmClass.Proofs.Assembly.DeadCode

/-!
# Computing frames

At the end of a body whose frames are computed, the blocks that are reached from the entry get their
inputs, and all blocks are gone through in order (`MethodBuilder.Framed`). The frames that are found
and the handlers that are left are stored then (`MethodBuilder.Framing`).
-/

namespace JvmClass.MethodBuilder

variable {b b' : MethodBuilder} {u : Unit}

/-- Where frames are computed, blocks are gone through once their inputs are known. -/
theorem limits_frames {entry : Label} {stack locals : UInt16} {lim : Limits}
    (hf : b.setting.compute.frames = true) (h : limits entry stack locals b = .ok lim b') :
    ∃ flow inputs graph plan walked pool maxStack,
      Handlers.completeTyped b.handlers.toList b.graph = .ok () flow.graph ∧
      flow.blocks = b.blocks ∧ flow.hierarchy = b.setting.hierarchy ∧
      flow.thisClass = b.setting.thisClass ∧
      FlowSetting.inputs flow entry b.entryFrame = .ok inputs ∧
      graph = inputs.frames.fold (fun g block _ => g.markReachable block) flow.graph ∧
      placeFrames inputs.frames {} graph.blocks { b with graph } = .ok plan walked ∧
      stackMapTable b.entryFrame.layout
        (plan.frames.reverse.map fun frame => (frame.1, frame.2.layout)) walked.pool =
        .ok lim.stackMap pool ∧ b' = { walked with pool } ∧
      maxStack = (if plan.replaced then max inputs.maxStack 1 else inputs.maxStack) ∧
      maxStack < 65536 ∧ lim.maxStack = UInt16.ofNat maxStack ∧ lim.maxLocals = walked.maxLocals := by
  simp only [limits, Step.bind_ok, Step.get_ok] at h
  obtain ⟨_, _, ⟨rfl, rfl⟩, h⟩ := h
  rw [if_pos hf] at h
  simp only [Step.bind_ok, Step.get_ok, onGraph, Step.on_ok, computeFrames, Step.of_ok,
    Step.modify_ok] at h
  obtain ⟨_, _, ⟨graph, hgraph, rfl⟩, ⟨maxStack, stackMap⟩, framed, h, hlim⟩ := h
  obtain ⟨_, _, ⟨rfl, rfl⟩, inputs, _, ⟨hinputs, rfl⟩, _, _, rfl, _, _, ⟨rfl, rfl⟩, plan, walked,
    hplan, h⟩ := h
  rw [Step.guard_ok] at h
  obtain ⟨hlimit, h⟩ := h
  obtain ⟨attributes, _, hask, h⟩ := Step.bind_ok.1 h
  obtain ⟨he, rfl⟩ := Step.pure_ok.1 h
  cases he
  obtain ⟨pool, hmap, rfl⟩ := Step.on_ok.1 hask
  obtain ⟨_, _, hget, hlim⟩ := hlim
  obtain ⟨rfl, rfl⟩ := hget
  obtain ⟨rfl, rfl⟩ := Step.pure_ok.1 hlim
  exact ⟨_, inputs, _, plan, walked, pool, _, hgraph, rfl, rfl, rfl, hinputs, rfl, hplan, hmap, rfl,
    rfl, Nat.not_le.1 hlimit, rfl, rfl⟩

/-- A place lies in a block that is not reached. -/
def DeadAt (size : Nat) (flow : FlowSetting) (entry : Label) (place : Nat) : Prop :=
  flow.graph.LiesIn size flow.graph.blocks (¬ flow.graph.Reaches entry ·) place

/-- What becomes of a body when its blocks are gone through, given its control flow, and the frames
that are found. -/
structure Framed (flow : FlowSetting) (entry : Label) (b b' : MethodBuilder)
    (frames : List (Nat × Layout NamedType)) : Prop where
  size : b'.code.size = b.code.size
  replaced : ∀ block start stop,
    flow.graph.Spans b.code.size flow.graph.blocks block start stop →
    ¬ flow.graph.Reaches entry block → start < stop →
    Spells b'.code start (deadBytes (stop - start)) ∧ (start, Frame.unreachable.layout) ∈ frames
  kept : ∀ i, ¬ DeadAt b.code.size flow entry i → b'.code[i]? = b.code[i]?
  marked : ∀ block start stop,
    flow.graph.Spans b.code.size flow.graph.blocks block start stop →
    flow.graph.Reaches entry block → (flow.graph.flags block).target = true →
    ∃ layout, (start, layout) ∈ frames
  offset : ∀ label p, flow.graph.offset label = .ok p → b'.graph.offset label = .ok p
  back : ∀ label p, b'.graph.offset label = .ok p → p < b.code.size →
    flow.graph.offset label = .ok p
  handler : ∀ k ∈ b'.handlers.toList, ∃ k' ∈ b.handlers.toList, k.handler = k'.handler
  uncovered : ∀ place, DeadAt b.code.size flow entry place →
    Handlers.covering b'.graph place b'.handlers.toList = []
  covering : ∀ place, ¬ DeadAt b.code.size flow entry place →
    Handlers.covering b'.graph place b'.handlers.toList =
      Handlers.covering flow.graph place b.handlers.toList

/-- Going through the blocks with their inputs, which are the blocks that are reached. -/
theorem framed_of_walks {flow : FlowSetting} {entry : Label} {graph : LabelGraph}
    {inputs : Std.HashMap Label Frame} {plan : FramePlan} (hw : flow.graph.Widens graph)
    (hadvances : flow.graph.Advances graph) (ho : flow.graph.Ordered b.code.size flow.graph.blocks)
    (hr : Handlers.Ranged flow.graph b.handlers.toList)
    (hdead : ∀ block, inputs[block]? = none ↔ ¬ flow.graph.Reaches entry block)
    (h : Walks inputs flow.graph.blocks {} { b with graph } plan b') :
    Framed flow entry b b' (plan.frames.reverse.map fun frame => (frame.1, frame.2.layout)) := by
  have hg : flow.graph.blocks ≠ [] → ({ b with graph } : MethodBuilder).graph = graph := fun _ => rfl
  have hspans : ∀ {block start stop},
      flow.graph.Spans b.code.size flow.graph.blocks block start stop →
      graph.Spans b.code.size flow.graph.blocks block start stop := fun hs => hs.congr hw.offset
  have hlies : ∀ {place}, DeadAt b.code.size flow entry place ↔
      graph.LiesIn b.code.size flow.graph.blocks (inputs[·]? = none) place := by
    refine fun {place} => ⟨?_, ?_⟩
    · rintro ⟨block, start, stop, hs, hd, hin⟩
      exact ⟨block, start, stop, hspans hs, (hdead block).2 hd, hin⟩
    · rintro ⟨block, start, stop, hs, hd, hin⟩
      exact ⟨block, start, stop, hs.congr fun l => (hw.offset l).symm, (hdead block).1 hd, hin⟩
  have ho' := ho.congr hw.offset
  have hr' := hr.mono fun l p hp => (hw.offset l).trans hp
  obtain ⟨hinside, houtside⟩ := h.code hg rfl ho'
  obtain ⟨-, hframes⟩ := h.frames hg rfl ho'
  have hcovering := h.covering hg rfl ho' hr'
  refine
    { size := h.size_eq
      replaced := fun block start stop hs hd hlt => ⟨?_, ?_⟩
      kept := fun i hi => houtside i fun hl => hi (hlies.2 hl)
      marked := fun block start stop hs hreach hflag => ?_
      offset := fun l p hl => h.offset.1 l p ((hw.offset l).trans hl)
      back := fun l p hl hlt => (hw.offset l).symm.trans (h.offset.2 l p hl hlt)
      handler := h.handler
      uncovered := fun place hd => (hcovering place).1 (hlies.1 hd)
      covering := fun place hl => ?_ }
  · have hle := ho'.stop_le (hspans hs)
    have hlength := length_deadBytes hlt
    refine Spells.of_getElem ?_ fun i hi => ?_
    · rw [hlength, h.size_eq]
      show start + (stop - start) ≤ b.code.size
      omega
    · rw [hlength] at hi
      rw [hinside block start stop (hspans hs) ((hdead block).2 hd) (start + i) (by omega)
        (by omega), Nat.add_sub_cancel_left]
  · exact List.mem_map.2 ⟨_, List.mem_reverse.2
      ((hframes block start stop (hspans hs)).1 ((hdead block).2 hd) hlt), rfl⟩
  · obtain ⟨frame, hinput⟩ := Option.ne_none_iff_exists'.1 fun hn => (hdead block).1 hn hreach
    exact ⟨frame.layout, List.mem_map.2 ⟨_, List.mem_reverse.2 ((hframes block start stop
      (hspans hs)).2 frame hinput (hadvances.flagged _ hflag)), rfl⟩⟩
  · refine ((hcovering place).2 fun hd => hl (hlies.2 hd)).trans ?_
    exact Handlers.covering_congr hr (fun l p hp => (hw.offset l).trans hp) place

/-- Filling in branch distances keeps the size of the code. -/
theorem size_patch {fixups : List Fixup} (h : patch fixups b = .ok u b') :
    b'.code.size = b.code.size := by
  induction fixups generalizing b with
  | nil =>
    obtain ⟨-, rfl⟩ := Step.pure_ok.1 h
    rfl
  | cons fixup rest ih =>
    simp only [patch, Step.bind_ok, Step.get_ok, Step.of_ok] at h
    obtain ⟨_, _, ⟨rfl, rfl⟩, target, _, ⟨-, rfl⟩, bytes, _, ⟨-, rfl⟩, _, _, hwrite, hrest⟩ := h
    obtain rfl := write_ok hwrite
    exact (ih hrest).trans (Bytes.size_overwrite ..)

/-- The graph in which frames are computed: it has the layout of the body, with all offsets settled,
and starts with the entry. -/
structure Analyzed (body : MethodBuilder) (entry : Label) (graph : LabelGraph) : Prop where
  tiled : graph.Tiled body.code.size
  resolved : graph.Resolved
  unreached : graph.Unreached
  first : graph.chain[0]? = some entry
  offset : ∀ label, graph.offset label = body.graph.resolve.offset label
  ranged : Handlers.Ranged graph body.handlers.toList
  advances : body.graph.Advances graph
  marked : body.graph.Marked → graph.MarkedPlaced
  handlers : ∀ handler ∈ body.handlers.toList, ∀ p, graph.position? handler.handler = some p →
    (graph.flags handler.handler).target = true

theorem Analyses.analyzed {body : MethodBuilder} {entry : Label} {flow : FlowSetting}
    (ha : body.Analyses entry flow) (hc : body.Coherent) (hbegins : body.Begins)
    (hu : body.graph.Unreached) : Analyzed body entry flow.graph := by
  have hlayout := LabelGraph.sameLayout_resolve body.graph
  have ht := hc.tiled.sameLayout hlayout
  have hr := LabelGraph.resolved_resolve body.graph
  obtain ⟨hw, hcovered⟩ := Handlers.completeTyped_ok ha.graph
  obtain ⟨hadvances, hunreached, hmarked, hhandlers⟩ := Handlers.marked_completeTyped ht ha.graph
  refine ⟨ht.sameLayout hw.layout, hr.widens hw, hunreached hu.resolve, ?_, hw.offset, fun h hh => ?_,
    (LabelGraph.advances_resolve _).trans hadvances, fun hm => hmarked hm.resolve.placed, hhandlers⟩
  · rw [hw.layout.chain]
    exact hbegins entry ha.entry
  · obtain ⟨-, blocks, -, hblocks, -⟩ := hcovered h hh
    obtain ⟨⟨p, hp⟩, q, hq⟩ := LabelGraph.offsets_of_coveredBlocks ht hr hblocks
    exact ⟨⟨p, (hw.offset _).trans hp⟩, q, (hw.offset _).trans hq⟩

/-- Some block is not reached and not empty. -/
def HasDead (size : Nat) (flow : FlowSetting) (entry : Label) : Prop :=
  ∃ place, DeadAt size flow entry place

/-- What frames and maximums say: frames are the inputs of blocks, or stand in place of dead code, for
which there is room on the stack. -/
structure Measured (flow : FlowSetting) (entry : Label) (body : MethodBuilder)
    (frames : List (Nat × Layout NamedType)) (inputs : Inputs) (maxStack maxLocals : UInt16) :
    Prop where
  computed : flow.inputs entry body.entryFrame = .ok inputs
  sources : ∀ x ∈ frames, ∃ frame, x.2 = frame.layout ∧
    Sourced inputs.frames flow.graph body.code.size flow.graph.blocks (x.1, frame)
  stack : HasDead body.code.size flow entry → maxStack.toNat = max inputs.maxStack 1
  stackReached : ¬ HasDead body.code.size flow entry → maxStack.toNat = inputs.maxStack
  locals : maxLocals.toNat = body.maxLocals

/-- What comes of a body whose frames are computed: the exception table, the frames and the
attribute that stores them. -/
structure Framing (body patched limited final : MethodBuilder) (entry : Label) (flow : FlowSetting)
    (table : Bytes) (frames : List (Nat × Layout NamedType)) : Prop where
  fits : body.code.size < 65536
  filled : patch body.fixups.toList { body with graph := body.graph.resolve } = .ok () patched
  analyses : body.Analyses entry flow
  framed : Framed flow entry patched limited frames
  ascending : (frames.map Prod.fst).Pairwise (· < ·)
  ends : ∃ name maxStack maxLocals others stackMap,
    final.body = some (name, .code maxStack maxLocals limited.code table (others ++ stackMap)) ∧
    ∀ image : ClassImage, image.Holds final.pool →
      HoldsFrames image body.entryFrame.layout.locals frames stackMap
  graph : final.graph = limited.graph
  tabled : ∃ entries : List TableEntry,
    Scan.runAt table 0 (Scan.counted ClassImage.readTableEntry) = .ok entries ∧
    List.Forall₂ (ExceptionHandler.StoredAs final.graph final.pool)
      (limited.handlers.toList.filter (Handlers.holdsCode final.graph)) entries
  measured : ∃ inputs, ∀ name maxStack maxLocals code table attributes,
    final.body = some (name, .code maxStack maxLocals code table attributes) →
      Measured flow entry body frames inputs maxStack maxLocals

theorem framing_of_finish {body final : MethodBuilder} {stack locals : UInt16} (hc : body.Coherent)
    (hf : body.setting.compute.frames = true) (hbegins : body.Begins)
    (hu : body.graph.Unreached) (h : finishBody stack locals body = .ok u final) :
    ∃ patched limited entry flow table frames,
      Framing body patched limited final entry flow table frames := by
  obtain ⟨patched, limited, entry, lim, table, hfinish⟩ := finishBody_ok h
  obtain ⟨code, hpatched⟩ := hfinish.patched_eq
  have hsize : patched.code.size = body.code.size :=
    size_patch (b := { body with graph := body.graph.resolve }) hfinish.patch
  have hentry : patched.entryFrame = body.entryFrame := by rw [hpatched]; rfl
  obtain ⟨flow, inputs, graph, plan, walked, pool, maxStack, hcomplete, hblocks, hhierarchy, hthis,
    hinputs, hgraph, hplace, hmap, rfl, hmax, hlimit, hstack, hlocals⟩ :=
    limits_frames (by rw [hpatched]; exact hf) hfinish.limits
  rw [hentry] at hinputs hmap
  have ha : body.Analyses entry flow := by
    rw [hpatched] at hcomplete hblocks hhierarchy hthis
    exact ⟨hfinish.begun, hcomplete, hblocks, hhierarchy, hthis⟩
  have hz := ha.analyzed hc hbegins hu
  -- The blocks without an input are those that are not reached.
  have hdead : ∀ block, inputs.frames[block]? = none ↔ ¬ flow.graph.Reaches entry block := by
    intro block
    rw [← FlowSetting.inputs_iff_reaches (Frame.regular_entry _ _ _ _) hinputs block]
    simp [Option.eq_none_iff_forall_ne_some]
  have hw : flow.graph.Widens graph ∧ flow.graph.Advances graph := by
    rw [hgraph, LabelGraph.fold_markReachable]
    have := LabelGraph.foldl_markReachable (g := flow.graph) (inputs.frames.toList.map Prod.fst)
    exact ⟨this.1, this.2.1⟩
  have hchain : graph.blocks = flow.graph.blocks := congrArg Array.toList hw.1.layout.chain
  have hwalk : Walks inputs.frames flow.graph.blocks {} { patched with graph } plan walked := by
    rw [hchain] at hplace
    refine walks_of_placeFrames (hz.resolved.widens hw.1) (fun block hb hnone => ?_) hplace
    obtain ⟨i, hi⟩ := List.getElem?_of_mem hb
    rw [LabelGraph.blocks_getElem] at hi
    show (graph.flags block).reachable = false
    rw [hgraph]
    exact FlowSetting.flags_unreached hz.tiled hz.first hz.unreached
      (Frame.regular_entry _ _ _ _) hinputs (hz.tiled.blockOf_leader hi) hnone
  have hframed := framed_of_walks hw.1 hw.2 (hsize ▸ hz.tiled.ordered hz.resolved)
    (by rw [hpatched]; exact hz.ranged) hdead hwalk
  obtain ⟨name, others, hbody⟩ := hfinish.body
  obtain ⟨tabled, htable, hlater⟩ := hfinish.tabled
  obtain ⟨q, rfl, hgrows, entries, hall, hreads⟩ := exceptionTable_ok htable
  refine ⟨patched, { walked with pool }, entry, flow, table, _, hfinish.size, hfinish.patch, ha,
    ⟨hframed.size, hframed.replaced, hframed.kept, hframed.marked, hframed.offset, hframed.back,
      hframed.handler, hframed.uncovered, hframed.covering⟩, ascending_stackMapTable hmap,
    ⟨name, _, _, others, _, hbody, fun image hi => ?_⟩, hfinish.graph, ⟨entries, hreads, ?_⟩,
    inputs, fun name' maxStack' maxLocals' code' table' attributes' hbody' => ?_⟩
  · exact (gives_stackMapTable _ _).answer hmap (hi.of_grows (hgrows.trans hlater))
  · rw [hfinish.graph]
    exact hall.imp fun _ _ h => h.grows hlater
  · rw [hbody] at hbody'
    cases hbody'
    have hg : flow.graph.blocks ≠ [] → ({ patched with graph } : MethodBuilder).graph = graph :=
      fun _ => rfl
    have hordered := (hz.tiled.ordered hz.resolved).congr hw.1.offset
    have hreplaced : plan.replaced = true ↔ HasDead body.code.size flow entry := by
      rw [hwalk.replaced_iff hg hsize hordered]
      simp only [Bool.false_eq_true, false_or]
      refine exists_congr fun place => ⟨?_, ?_⟩
      · rintro ⟨block, start, stop, hs, hd, hin⟩
        exact ⟨block, start, stop, hs.congr fun l => (hw.1.offset l).symm, (hdead block).1 hd, hin⟩
      · rintro ⟨block, start, stop, hs, hd, hin⟩
        exact ⟨block, start, stop, hs.congr hw.1.offset, (hdead block).2 hd, hin⟩
    have hlocals' : walked.maxLocals = body.maxLocals := by
      rw [hwalk.maxLocals_eq, hpatched]
    refine ⟨hinputs, fun x hx => ?_, fun hd => ?_, fun hd => ?_, ?_⟩
    · obtain ⟨⟨start, frame⟩, hmem, rfl⟩ := List.mem_map.1 hx
      refine ⟨frame, rfl, ?_⟩
      cases (hwalk.sources hg hsize _ (List.mem_reverse.1 hmem)).resolve_left nofun with
      | input offset input => exact .input ((hw.1.offset _).symm.trans offset) input
      | dead span input nonempty =>
        exact .dead (span.congr fun l => (hw.1.offset l).symm) input nonempty
    · rw [hstack, UInt16.toNat_ofNat_of_lt' hlimit, hmax, if_pos (hreplaced.2 hd)]
    · rw [hstack, UInt16.toNat_ofNat_of_lt' hlimit, hmax, if_neg fun h => hd (hreplaced.1 h)]
    · rw [UInt16.toNat_ofNat_of_lt' hfinish.locals, hlocals, hlocals']

end JvmClass.MethodBuilder
