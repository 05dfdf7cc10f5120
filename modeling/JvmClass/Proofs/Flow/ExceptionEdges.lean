import JvmClass.Proofs.Flow.Calls
import JvmClass.Proofs.Flow.Edges

/-!
# Exception edges follow the protected ranges

When all labels are settled and the blocks start one after another, handlers whose ranges have their
ends in the code can be added to the graph, whatever calls made it. Every block then has, after the
edges that it had, one edge to each handler whose range it starts in, in the order of the handlers,
and no other edge is added (`Handlers.edges_follow_ranges`).
-/

namespace JvmClass

namespace LabelGraph

variable {g : LabelGraph} {l : Label}

theorem addEdge_succeeds (hg : g.Grouped) (hl : l ∈ g.blocks) (kind : EdgeKind)
    (successor : Label) : ∃ g', addEdge l kind successor g = .ok () g' := by
  obtain ⟨i, hi⟩ := (mem_blocks g l).1 hl
  obtain ⟨p, hp⟩ := hg.leaders i l hi
  have hdata : (g.data? l).isSome = true := by
    rw [← Option.isSome_map, show (g.data? l).map _ = _ from hp]
    rfl
  unfold addEdge
  simp only [hg.blockOf_leader hi, hdata, if_true]
  exact ⟨_, rfl⟩

end LabelGraph

namespace Handlers

open LabelGraph

variable {g : LabelGraph} {handlers : Handlers} {size : Nat}

theorem addEdges_succeeds (ht : g.Tiled size) (kind : EdgeKind) (successor : Label)
    {blocks : List Label} (hblocks : ∀ block ∈ blocks, block ∈ g.blocks) :
    ∃ g', addEdges kind successor blocks g = .ok () g' := by
  induction blocks generalizing g with
  | nil => exact ⟨g, rfl⟩
  | cons block rest ih =>
    have hblock := hblocks block List.mem_cons_self
    obtain ⟨mid, hadd⟩ := addEdge_succeeds ht.grouped hblock kind successor
    have hlayout := sameLayout_addEdge hadd
    obtain ⟨g', hrest⟩ := ih (ht.sameLayout hlayout)
      fun b hb => hlayout.blocks ▸ hblocks b (List.mem_cons_of_mem _ hb)
    exact ⟨g', Step.bind_ok.2 ⟨_, mid, hadd, hrest⟩⟩

/-- The edges of the first of some handlers can be added, and the rest go on from a graph that is
laid out in the same way. -/
theorem first_succeeds {h : ExceptionHandler} {rest : Handlers} (ht : g.Tiled size)
    (hr : g.Resolved) (hranged : Ranged g (h :: rest)) (kind : EdgeKind) :
    ∃ blocks mid, g.coveredBlocks h.start h.stop = .ok blocks ∧
      addEdges kind h.handler blocks g = .ok () mid ∧ g.Widens mid := by
  obtain ⟨hstart, hstop⟩ := hranged h List.mem_cons_self
  have hchained : ∀ block ∈ g.blocks.filter (coversBlock g h), block ∈ g.blocks :=
    fun block hb => (List.mem_filter.1 hb).1
  obtain ⟨mid, hadd⟩ := addEdges_succeeds ht kind h.handler hchained
  exact ⟨_, mid, coveredBlocks_ranged ht hr hstart hstop, hadd, (addEdges_ok hadd).1⟩

theorem Ranged.rest {h : ExceptionHandler} {rest : Handlers} (hranged : Ranged g (h :: rest))
    {g' : LabelGraph} (hg : ∀ label, g'.offset label = g.offset label) : Ranged g' rest :=
  Ranged.mono (fun k hk => hranged k (List.mem_cons_of_mem _ hk))
    fun label _ hp => (hg label).trans hp

theorem complete_succeeds (ht : g.Tiled size) (hr : g.Resolved) (hranged : Ranged g handlers) :
    ∃ g', complete handlers g = .ok () g' := by
  induction handlers generalizing g with
  | nil => exact ⟨g, rfl⟩
  | cons h rest ih =>
    obtain ⟨blocks, mid, hblocks, hadd, hw⟩ := first_succeeds ht hr hranged .exception
    obtain ⟨g', hrest⟩ := ih (ht.sameLayout hw.layout) (hr.widens hw) (hranged.rest hw.offset)
    exact ⟨g', complete_cons.2 ⟨blocks, mid, hblocks, hadd, hrest⟩⟩

theorem completeTyped_succeeds (ht : g.Tiled size) (hr : g.Resolved) (hranged : Ranged g handlers)
    {caught : ExceptionHandler → VType} (hcaught : ∀ h ∈ handlers, h.caughtType = .ok (caught h)) :
    ∃ g', completeTyped handlers g = .ok () g' := by
  induction handlers generalizing g with
  | nil => exact ⟨g, rfl⟩
  | cons h rest ih =>
    obtain ⟨blocks, mid, hblocks, hadd, hw⟩ := first_succeeds ht hr hranged (.caught (caught h))
    have hw' := hw.trans (widens_setFlags mid h.handler ⟨true, false⟩)
    obtain ⟨g', hrest⟩ := ih (ht.sameLayout hw'.layout) (hr.widens hw') (hranged.rest hw'.offset)
      fun k hk => hcaught k (List.mem_cons_of_mem _ hk)
    exact ⟨g', completeTyped_cons.2
      ⟨caught h, blocks, mid, hcaught h List.mem_cons_self, hblocks, hadd, hrest⟩⟩

/-- A graph with the edges to handlers added: every block has them after the edges that it had, and
all labels are where they were. -/
structure Completed (g : LabelGraph) (kind : ExceptionHandler → EdgeKind) (handlers : Handlers)
    (g' : LabelGraph) : Prop where
  layout : g.SameLayout g'
  offset : ∀ label, g'.offset label = g.offset label
  edges : ∀ label, g'.edges label = g.edges label ++ edgesOf g kind handlers (g.blockOf label)

/-- Handlers with their ranges in the code can be added to a graph whose labels are settled and
whose blocks start one after another, with or without the types that they catch: every block gets
one edge to each handler whose range it starts in. -/
theorem edges_follow_ranges (calls : List Call) (handlers : Handlers)
    (hr : (ofCalls calls).Resolved) (ha : (ofCalls calls).Ascending)
    (hranged : Ranged (ofCalls calls) handlers) :
    (∃ g, complete handlers (ofCalls calls) = .ok () g ∧
        Completed (ofCalls calls) (fun _ => .exception) handlers g) ∧
      ∀ caught : ExceptionHandler → VType, (∀ h ∈ handlers, h.caughtType = .ok (caught h)) →
        ∃ g, completeTyped handlers (ofCalls calls) = .ok () g ∧
          Completed (ofCalls calls) (fun h => .caught (caught h)) handlers g := by
  obtain ⟨size, ht⟩ := (grouped_ofCalls calls).tiled_of_ascending ha
  refine ⟨?_, fun caught hcaught => ?_⟩
  · obtain ⟨g, h⟩ := complete_succeeds ht hr hranged
    have hw := complete_ok h
    exact ⟨g, h, hw.layout, hw.offset, edges_complete ht hr h⟩
  · obtain ⟨g, h⟩ := completeTyped_succeeds ht hr hranged hcaught
    have hw := (completeTyped_ok h).1
    exact ⟨g, h, hw.layout, hw.offset, edges_completeTyped ht hr hcaught h⟩

/-- Four labels of which the first two share a block, with an edge that was added through the second
before either had its place, and one label that is never placed. -/
def sharedBlock : List Call :=
  [.addLabel, .addLabel, .addLabel, .addLabel, .addLabel, .addEdge ⟨1⟩ .normal ⟨2⟩, .place ⟨0⟩ 0,
    .place ⟨1⟩ 0, .place ⟨2⟩ 4, .place ⟨3⟩ 9, .resolve]

/-- Two ranges of which one holds the other and starts at the label that shares its block. -/
theorem edges_follow_ranges_nested :
    ∃ g, completeTyped [⟨⟨1⟩, ⟨3⟩, ⟨3⟩, none⟩, ⟨⟨2⟩, ⟨3⟩, ⟨4⟩, some "a/B"⟩] (ofCalls sharedBlock) =
        .ok () g ∧
      g.edges ⟨0⟩ = [⟨.normal, ⟨2⟩⟩, ⟨.caught (.instanceOf ClassName.throwable), ⟨3⟩⟩] ∧
      g.edges ⟨2⟩ = [⟨.caught (.instanceOf ClassName.throwable), ⟨3⟩⟩,
        ⟨.caught (.instanceOf ⟨"a/B"⟩), ⟨4⟩⟩] ∧
      g.edges ⟨3⟩ = [] := by
  have hr : (ofCalls sharedBlock).Resolved := resolved_resolve _
  obtain ⟨-, htyped⟩ := edges_follow_ranges sharedBlock
    [⟨⟨1⟩, ⟨3⟩, ⟨3⟩, none⟩, ⟨⟨2⟩, ⟨3⟩, ⟨4⟩, some "a/B"⟩] hr (by decide +kernel)
    (by
      intro h hh
      simp only [List.mem_cons, List.not_mem_nil, or_false] at hh
      have hstop := (hr ⟨3⟩ 9).2 (by decide +kernel)
      rcases hh with rfl | rfl
      · exact ⟨⟨0, (hr ⟨1⟩ 0).2 (by decide +kernel)⟩, 9, hstop⟩
      · exact ⟨⟨4, (hr ⟨2⟩ 4).2 (by decide +kernel)⟩, 9, hstop⟩)
  obtain ⟨g, hg, hcompleted⟩ := htyped
    (fun h => .instanceOf ⟨h.catchType.getD "java/lang/Throwable"⟩)
    (by
      intro h hh
      simp only [List.mem_cons, List.not_mem_nil, or_false] at hh
      rcases hh with rfl | rfl
      · rfl
      · rfl)
  refine ⟨g, hg, ?_, ?_, ?_⟩
  · rw [hcompleted.edges]
    decide +kernel
  · rw [hcompleted.edges]
    decide +kernel
  · rw [hcompleted.edges]
    decide +kernel

end Handlers

end JvmClass
