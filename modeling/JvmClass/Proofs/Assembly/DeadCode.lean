import JvmClass.Proofs.Assembly.Marking
import JvmClass.Proofs.Flow.DeadBlocks

/-!
# Replacing dead code

When frames are computed the blocks are gone through in order (`MethodBuilder.Walks`): a block that is
reached gets its frame if it is marked, and one that is not is replaced, without any handler over it
(`MethodBuilder.Replaces`). Blocks do not overlap, so that what happens to one leaves the others alone.
-/

namespace JvmClass.MethodBuilder

open LabelGraph (Spans Ordered)

variable {b b' : MethodBuilder} {u : Unit} {start stop : Nat}

theorem length_deadBytes (h : start < stop) : (deadBytes (stop - start)).length = stop - start := by
  unfold deadBytes
  rw [List.length_append, List.length_replicate, List.length_singleton]
  omega

/-- The end of a block: the next block, or a label that is made at the end of the code. -/
theorem blockEnd_ok {next : Option Label} {label : Label} (h : blockEnd next b = .ok label b') :
    (next = some label ∧ b' = b) ∨ (next = none ∧ label = b.graph.nextLabel ∧
      ∃ g starts, LabelGraph.place label b.code.size b.graph.addLabel = .ok starts g ∧
        b' = { b with graph := g.resolve }) := by
  cases next with
  | some next =>
    obtain ⟨rfl, rfl⟩ := Step.pure_ok.1 h
    exact Or.inl ⟨rfl, rfl⟩
  | none =>
    simp only [blockEnd, newLabel, Step.bind_ok, Step.get_ok, Step.modify_ok, Step.pure_ok, onGraph,
      Step.on_ok] at h
    obtain ⟨_, _, ⟨_, _, ⟨rfl, rfl⟩, _, _, rfl, rfl, rfl⟩, _, _, ⟨rfl, rfl⟩, starts, _,
      ⟨g, hg, rfl⟩, _, _, rfl, rfl, rfl⟩ := h
    exact Or.inr ⟨rfl, rfl, g, starts, hg, rfl⟩

/-- A block is replaced: its code throws, and no handler covers it. -/
structure Replaces (start stop : Nat) (b b' : MethodBuilder) : Prop where
  rest : ∃ code graph handlers, b' = { b with code, graph, handlers }
  code : b'.code = b.code.overwrite start (deadBytes (stop - start))
  offset : ∀ label p, b.graph.offset label = .ok p → b'.graph.offset label = .ok p
  back : ∀ label p, b'.graph.offset label = .ok p → p < b.code.size → b.graph.offset label = .ok p
  removed : Handlers.Removed b'.graph start stop b.handlers.toList b'.handlers.toList

theorem replaceDead_ok {block : Label} {next : Option Label} (hr : b.graph.Resolved)
    (hstart : b.graph.offset block = .ok start) (hlt : start < stop)
    (hstop : (next = none ∧ stop = b.code.size) ∨
      ∃ label, next = some label ∧ b.graph.offset label = .ok stop)
    (h : replaceDead block next start stop b = .ok u b') :
    Replaces start stop b b' ∧ (next ≠ none → b'.graph = b.graph) := by
  simp only [replaceDead, Step.bind_ok, Step.get_ok] at h
  obtain ⟨_, _, hwrite, label, ended, hend, _, _, ⟨rfl, rfl⟩, h⟩ := h
  obtain ⟨handlers, hremove, rfl⟩ := Step.on_ok.1 h
  obtain rfl := write_ok hwrite
  rcases blockEnd_ok hend with ⟨rfl, rfl⟩ | ⟨rfl, rfl, g, starts, hplace, rfl⟩
  · obtain ⟨_, hstop⟩ | ⟨_, hlabel, hstop⟩ := hstop
    · contradiction
    · cases hlabel
      exact ⟨⟨⟨_, _, _, rfl⟩, rfl, fun _ _ h => h, fun _ _ h _ => h,
        Handlers.removed_removeRange hstart hstop (Nat.le_of_lt hlt) hremove⟩, fun _ => rfl⟩
  · obtain ⟨-, rfl⟩ | ⟨_, hlabel, -⟩ := hstop
    · -- The label that is made gets the end of the code, and the others keep their offsets.
      have hposition : ∀ l, g.resolve.position? l =
          if l = b.graph.nextLabel then some b.code.size else b.graph.position? l := by
        intro l
        have hsize : (b.code.overwrite start (deadBytes (b.code.size - start))).size = b.code.size :=
          Bytes.size_overwrite ..
        rw [(LabelGraph.sameLayout_resolve g).position?,
          position?_placing (LabelGraph.placing hplace), LabelGraph.position?_addLabel]
        exact congrArg (fun p => if l = b.graph.nextLabel then some p else _) hsize
      have hnew : b.graph.position? b.graph.nextLabel = none := by
        rw [LabelGraph.position?, show b.graph.data? b.graph.nextLabel = none from
          Array.getElem?_size ..]
        rfl
      have hoffset : ∀ l p, b.graph.offset l = .ok p → g.resolve.offset l = .ok p := by
        intro l p hl
        rw [LabelGraph.resolved_resolve, hposition]
        rw [hr] at hl
        rw [if_neg (LabelGraph.ne_of_unplaced hl hnew), hl]
      refine ⟨⟨⟨_, _, _, rfl⟩, rfl, hoffset, fun l p hl hlt => ?_, ?_⟩, fun hn => absurd rfl hn⟩
      · change g.resolve.offset l = .ok p at hl
        rw [LabelGraph.resolved_resolve, hposition] at hl
        split at hl
        · cases hl
          omega
        · exact (hr l p).2 hl
      · exact Handlers.removed_removeRange (hoffset _ _ hstart)
          ((LabelGraph.resolved_resolve g _ _).2 (by rw [hposition, if_pos rfl]))
          (Nat.le_of_lt hlt) hremove
    · cases hlabel

/-- Blocks of a list are gone through one after another, in a body whose labels stand as in a graph
up to the last of them. -/
inductive Walks (inputs : Std.HashMap Label Frame) :
    List Label → FramePlan → MethodBuilder → FramePlan → MethodBuilder → Prop
  | nil (plan : FramePlan) (b : MethodBuilder) : Walks inputs [] plan b plan b
  | reached {block : Label} {rest : List Label} {plan plan' : FramePlan} {b b' : MethodBuilder}
    {frame : Frame} {start : Nat} (offset : b.graph.offset block = .ok start)
    (input : inputs[block]? = some frame)
    (h : Walks inputs rest { plan with
      frames := if (b.graph.flags block).target then (start, frame) :: plan.frames
        else plan.frames } b plan' b') : Walks inputs (block :: rest) plan b plan' b'
  | dead {block : Label} {rest : List Label} {plan plan' : FramePlan} {b mid b' : MethodBuilder}
    {start stop : Nat} (span : b.graph.Spans b.code.size (block :: rest) block start stop)
    (input : inputs[block]? = none) (nonempty : start < stop) (replaces : Replaces start stop b mid)
    (graph : rest ≠ [] → mid.graph = b.graph)
    (h : Walks inputs rest ⟨(start, Frame.unreachable) :: plan.frames, true⟩ mid plan' b') :
    Walks inputs (block :: rest) plan b plan' b'
  | empty {block : Label} {rest : List Label} {plan plan' : FramePlan} {b b' : MethodBuilder}
    {start stop : Nat} (span : b.graph.Spans b.code.size (block :: rest) block start stop)
    (input : inputs[block]? = none) (empty : ¬ start < stop) (h : Walks inputs rest plan b plan' b') :
    Walks inputs (block :: rest) plan b plan' b'

/-- Where a frame comes from: it is the input of a block, or stands where a dead block starts that is
not empty. -/
inductive Sourced (inputs : Std.HashMap Label Frame) (g : LabelGraph) (size : Nat)
    (blocks : List Label) : Nat × Frame → Prop
  | input {block : Label} {frame : Frame} {start : Nat} (offset : g.offset block = .ok start)
    (input : inputs[block]? = some frame) : Sourced inputs g size blocks (start, frame)
  | dead {block : Label} {start stop : Nat} (span : g.Spans size blocks block start stop)
    (input : inputs[block]? = none) (nonempty : start < stop) :
    Sourced inputs g size blocks (start, Frame.unreachable)

theorem Sourced.later {inputs : Std.HashMap Label Frame} {g : LabelGraph} {size : Nat}
    {block : Label} {blocks : List Label} {x : Nat × Frame} (h : Sourced inputs g size blocks x) :
    Sourced inputs g size (block :: blocks) x := by
  cases h with
  | input offset input => exact .input offset input
  | dead span input nonempty => exact .dead (.later span) input nonempty

/-- What is done for a block: if it is reached it gets a frame where it needs one, and else it may be
replaced. -/
theorem placeFrames_cons {inputs : Std.HashMap Label Frame} {plan plan' : FramePlan} {block : Label}
    {rest : List Label} (h : placeFrames inputs plan (block :: rest) b = .ok plan' b') :
    ∃ start stop, b.graph.offset block = .ok start ∧
      b.graph.Spans b.code.size (block :: rest) block start stop ∧
      ((rest.head? = none ∧ stop = b.code.size) ∨
        ∃ label, rest.head? = some label ∧ b.graph.offset label = .ok stop) ∧
      (inputs[block]?).elim
        (if start < stop && !(b.graph.flags block).reachable then do
          replaceDead block rest.head? start stop
          placeFrames inputs ⟨(start, Frame.unreachable) :: plan.frames, true⟩ rest
        else placeFrames inputs plan rest)
        (fun frame => placeFrames inputs { plan with
          frames := if (b.graph.flags block).target then (start, frame) :: plan.frames
            else plan.frames } rest) b = .ok plan' b' := by
  simp only [placeFrames, Step.bind_ok, Step.get_ok, Step.of_ok] at h
  obtain ⟨_, _, ⟨rfl, rfl⟩, start, _, ⟨hstart, rfl⟩, h⟩ := h
  cases rest with
  | nil =>
    obtain ⟨stop, _, hstop, h⟩ := Step.bind_ok.1 h
    obtain ⟨rfl, rfl⟩ := Step.pure_ok.1 hstop
    refine ⟨start, _, hstart, .last hstart, Or.inl ⟨rfl, rfl⟩, ?_⟩
    cases hinput : inputs[block]? <;> rw [hinput] at h <;> exact h
  | cons next rest =>
    obtain ⟨stop, _, hstop, h⟩ := Step.bind_ok.1 h
    obtain ⟨hnext, rfl⟩ := Step.of_ok.1 hstop
    refine ⟨start, stop, hstart, .inner hstart hnext, Or.inr ⟨next, rfl, hnext⟩, ?_⟩
    cases hinput : inputs[block]? <;> rw [hinput] at h <;> exact h

/-- The blocks without an input are those that are not marked as reachable. -/
theorem walks_of_placeFrames {inputs : Std.HashMap Label Frame} {blocks : List Label}
    {plan plan' : FramePlan} (hr : b.graph.Resolved)
    (hflags : ∀ block ∈ blocks, inputs[block]? = none → (b.graph.flags block).reachable = false)
    (h : placeFrames inputs plan blocks b = .ok plan' b') : Walks inputs blocks plan b plan' b' := by
  induction blocks generalizing plan b with
  | nil =>
    obtain ⟨rfl, rfl⟩ := Step.pure_ok.1 h
    exact .nil plan b
  | cons block rest ih =>
    obtain ⟨start, stop, hstart, hspan, hends, h⟩ := placeFrames_cons h
    have hrest := fun l hl => hflags l (List.mem_cons_of_mem _ hl)
    cases hinput : inputs[block]? with
    | some frame =>
      rw [hinput] at h
      exact .reached hstart hinput (ih hr hrest h)
    | none =>
      rw [hinput] at h
      simp only [hflags block List.mem_cons_self hinput, Bool.not_false, Bool.and_true,
        decide_eq_true_eq] at h
      split at h
      · rename_i hlt
        obtain ⟨_, done, hreplace, h⟩ := Step.bind_ok.1 h
        obtain ⟨hreplaces, hgraph⟩ := replaceDead_ok hr hstart hlt hends hreplace
        have hsame : rest ≠ [] → done.graph = b.graph := fun hne =>
          hgraph (by simpa using hne)
        refine .dead hspan hinput hlt hreplaces hsame ?_
        cases rest with
        | nil =>
          obtain ⟨rfl, rfl⟩ := Step.pure_ok.1 h
          exact .nil _ _
        | cons next rest =>
          have hgraph := hsame (List.cons_ne_nil _ _)
          exact ih (hgraph ▸ hr) (hgraph ▸ hrest) h
      · exact .empty hspan hinput ‹_› (ih hr hrest h)

theorem Replaces.size (h : Replaces start stop b b') : b'.code.size = b.code.size := by
  rw [h.code, Bytes.size_overwrite]

theorem Replaces.getElem? (h : Replaces start stop b b') (hlt : start < stop)
    (hle : stop ≤ b.code.size) (i : Nat) : b'.code[i]? =
      if start ≤ i ∧ i < stop then (deadBytes (stop - start))[i - start]? else b.code[i]? := by
  have hlength := length_deadBytes hlt
  rw [h.code, Bytes.getElem?_overwrite (by omega), hlength]
  simp only [Nat.add_sub_cancel' (Nat.le_of_lt hlt)]

namespace Walks

variable {inputs : Std.HashMap Label Frame} {blocks : List Label} {plan plan' : FramePlan}
  {g : LabelGraph} {size : Nat}

theorem size_eq (h : Walks inputs blocks plan b plan' b') : b'.code.size = b.code.size := by
  induction h with
  | nil => rfl
  | reached _ _ _ ih => exact ih
  | dead _ _ _ replaces _ _ ih => exact ih.trans replaces.size
  | empty _ _ _ _ ih => exact ih

/-- A dead block consists of the bytes that replace it, and other bytes stay. -/
theorem code (h : Walks inputs blocks plan b plan' b') (hg : blocks ≠ [] → b.graph = g)
    (hsize : b.code.size = size) (ho : g.Ordered size blocks) :
    (∀ block start stop, g.Spans size blocks block start stop → inputs[block]? = none →
      ∀ i, start ≤ i → i < stop → b'.code[i]? = (deadBytes (stop - start))[i - start]?) ∧
    ∀ i, ¬ g.LiesIn size blocks (inputs[·]? = none) i → b'.code[i]? = b.code[i]? := by
  induction h with
  | nil => exact ⟨fun block start stop hs => (List.not_mem_nil hs.mem).elim, fun i _ => rfl⟩
  | reached _ input _ ih =>
    obtain ⟨hinside, houtside⟩ := ih (fun _ => hg (List.cons_ne_nil _ _)) hsize ho.tail
    refine ⟨fun block start stop hs hd => ?_, fun i hi => houtside i fun hl => hi hl.later⟩
    rcases hs.cons_cases with rfl | hs
    · rw [input] at hd
      cases hd
    · exact hinside block start stop hs hd
  | @dead block rest _ _ b mid _ start stop span input nonempty replaces graph _ ih =>
    obtain rfl := hg (List.cons_ne_nil _ _)
    subst hsize
    obtain ⟨hinside, houtside⟩ := ih graph replaces.size ho.tail
    have hmid := replaces.getElem? nonempty (ho.stop_le span)
    refine ⟨fun other start' stop' hs hd i hle hlt => ?_, fun i hi => ?_⟩
    · rcases ho.cons_cases span hs with ⟨rfl, rfl, rfl⟩ | hs
      · rw [houtside i (ho.not_liesIn span hlt), hmid, if_pos ⟨hle, hlt⟩]
      · exact hinside other start' stop' hs hd i hle hlt
    · rw [houtside i fun hl => hi hl.later, hmid, if_neg fun hin => hi ⟨_, _, _, span, input, hin⟩]
  | empty span _ empty _ ih =>
    obtain rfl := hg (List.cons_ne_nil _ _)
    subst hsize
    obtain ⟨hinside, houtside⟩ := ih (fun _ => rfl) rfl ho.tail
    refine ⟨fun block start stop hs hd i hle hlt => ?_, fun i hi => houtside i fun hl => hi hl.later⟩
    rcases ho.cons_cases span hs with ⟨rfl, rfl, rfl⟩ | hs
    · omega
    · exact hinside block start stop hs hd i hle hlt

/-- Labels that have an offset keep it, and the only one that is made stands at the end. -/
theorem offset (h : Walks inputs blocks plan b plan' b') :
    (∀ label p, b.graph.offset label = .ok p → b'.graph.offset label = .ok p) ∧
      ∀ label p, b'.graph.offset label = .ok p → p < b.code.size → b.graph.offset label = .ok p := by
  induction h with
  | nil => exact ⟨fun _ _ h => h, fun _ _ h _ => h⟩
  | reached _ _ _ ih => exact ih
  | dead _ _ _ replaces _ _ ih =>
    refine ⟨fun l p hl => ih.1 l p (replaces.offset l p hl), fun l p hl hlt => ?_⟩
    exact replaces.back l p (ih.2 l p hl (replaces.size ▸ hlt)) hlt
  | empty _ _ _ _ ih => exact ih

theorem handler (h : Walks inputs blocks plan b plan' b') :
    ∀ k ∈ b'.handlers.toList, ∃ k' ∈ b.handlers.toList, k.handler = k'.handler := by
  induction h with
  | nil => exact fun k hk => ⟨k, hk, rfl⟩
  | reached _ _ _ ih => exact ih
  | dead _ _ _ replaces _ _ ih =>
    intro k hk
    obtain ⟨k₁, hk₁, h₁⟩ := ih k hk
    obtain ⟨k₂, hk₂, h₂⟩ := replaces.removed.handler k₁ hk₁
    exact ⟨k₂, hk₂, h₁.trans h₂⟩
  | empty _ _ _ _ ih => exact ih

/-- No handler covers a dead block, and other places are covered as they were. -/
theorem covering (h : Walks inputs blocks plan b plan' b') (hg : blocks ≠ [] → b.graph = g)
    (hsize : b.code.size = size) (ho : g.Ordered size blocks)
    (hr : Handlers.Ranged b.graph b.handlers.toList) (place : Nat) :
    (g.LiesIn size blocks (inputs[·]? = none) place →
      Handlers.covering b'.graph place b'.handlers.toList = []) ∧
    (¬ g.LiesIn size blocks (inputs[·]? = none) place →
      Handlers.covering b'.graph place b'.handlers.toList =
        Handlers.covering b.graph place b.handlers.toList) := by
  induction h with
  | nil =>
    refine ⟨fun ⟨block, start, stop, hs, _⟩ => (List.not_mem_nil hs.mem).elim, fun _ => rfl⟩
  | reached _ input _ ih =>
    obtain ⟨hinside, houtside⟩ := ih (fun _ => hg (List.cons_ne_nil _ _)) hsize ho.tail hr
    refine ⟨?_, fun hn => houtside fun hl => hn hl.later⟩
    rintro ⟨block, start, stop, hs, hd, hin⟩
    rcases hs.cons_cases with rfl | hs
    · rw [input] at hd
      cases hd
    · exact hinside ⟨block, start, stop, hs, hd, hin⟩
  | @dead block rest _ _ b mid _ start stop span input nonempty replaces graph _ ih =>
    obtain rfl := hg (List.cons_ne_nil _ _)
    subst hsize
    obtain ⟨hinside, houtside⟩ := ih graph replaces.size ho.tail replaces.removed.ranged
    have hmid := replaces.removed.covering place
    rw [Handlers.covering_congr hr replaces.offset] at hmid
    refine ⟨?_, fun hn => ?_⟩
    · rintro ⟨other, start', stop', hs, hd, hle, hlt⟩
      rcases ho.cons_cases span hs with ⟨rfl, rfl, rfl⟩ | hs
      · rw [houtside (ho.not_liesIn span hlt), hmid, if_pos ⟨hle, hlt⟩]
      · exact hinside ⟨other, start', stop', hs, hd, hle, hlt⟩
    · rw [houtside fun hl => hn hl.later, hmid, if_neg fun hin => hn ⟨_, _, _, span, input, hin⟩]
  | empty span _ empty _ ih =>
    obtain rfl := hg (List.cons_ne_nil _ _)
    subst hsize
    obtain ⟨hinside, houtside⟩ := ih (fun _ => rfl) rfl ho.tail hr
    refine ⟨?_, fun hn => houtside fun hl => hn hl.later⟩
    rintro ⟨other, start', stop', hs, hd, hle, hlt⟩
    rcases ho.cons_cases span hs with ⟨rfl, rfl, rfl⟩ | hs
    · omega
    · exact hinside ⟨other, start', stop', hs, hd, hle, hlt⟩

/-- Every dead block that is not empty has its frame, and so has every marked block that is
reached. -/
theorem frames (h : Walks inputs blocks plan b plan' b') (hg : blocks ≠ [] → b.graph = g)
    (hsize : b.code.size = size) (ho : g.Ordered size blocks) :
    (∀ x ∈ plan.frames, x ∈ plan'.frames) ∧
      ∀ block start stop, g.Spans size blocks block start stop →
        (inputs[block]? = none → start < stop → (start, Frame.unreachable) ∈ plan'.frames) ∧
        ∀ frame, inputs[block]? = some frame → (g.flags block).target = true →
          (start, frame) ∈ plan'.frames := by
  induction h with
  | nil => exact ⟨fun _ h => h, fun block start stop hs => (List.not_mem_nil hs.mem).elim⟩
  | @reached block rest plan plan' b b' frame start offset input _ ih =>
    obtain rfl := hg (List.cons_ne_nil _ _)
    obtain ⟨hkeep, hframes⟩ := ih (fun _ => rfl) hsize ho.tail
    refine ⟨fun x hx => hkeep x ?_, fun other start' stop' hs => ?_⟩
    · dsimp only
      split
      · exact List.mem_cons_of_mem _ hx
      · exact hx
    · rcases hs.cons_cases with rfl | hs'
      · refine ⟨fun hd => ?_, fun frame' hinput hflag => ?_⟩
        · rw [input] at hd
          cases hd
        · rw [input] at hinput
          cases hinput
          have hstart := hs.offset
          rw [offset] at hstart
          cases hstart
          refine hkeep _ ?_
          rw [if_pos hflag]
          exact List.mem_cons_self
      · exact hframes other start' stop' hs'
  | @dead block rest _ _ b mid _ start stop span input nonempty replaces graph _ ih =>
    obtain rfl := hg (List.cons_ne_nil _ _)
    subst hsize
    obtain ⟨hkeep, hframes⟩ := ih graph replaces.size ho.tail
    refine ⟨fun x hx => hkeep x (List.mem_cons_of_mem _ hx), fun other start' stop' hs => ?_⟩
    rcases ho.cons_cases span hs with ⟨rfl, rfl, rfl⟩ | hs
    · refine ⟨fun _ _ => hkeep _ List.mem_cons_self, fun frame hinput => ?_⟩
      rw [input] at hinput
      cases hinput
    · exact hframes other start' stop' hs
  | empty span input empty _ ih =>
    obtain rfl := hg (List.cons_ne_nil _ _)
    subst hsize
    obtain ⟨hkeep, hframes⟩ := ih (fun _ => rfl) rfl ho.tail
    refine ⟨hkeep, fun other start' stop' hs => ?_⟩
    rcases ho.cons_cases span hs with ⟨rfl, rfl, rfl⟩ | hs
    · refine ⟨fun _ hlt => absurd hlt empty, fun frame hinput => ?_⟩
      rw [input] at hinput
      cases hinput
    · exact hframes other start' stop' hs

/-- Every frame that is added has a source. -/
theorem sources (h : Walks inputs blocks plan b plan' b') (hg : blocks ≠ [] → b.graph = g)
    (hsize : b.code.size = size) :
    ∀ x ∈ plan'.frames, x ∈ plan.frames ∨ Sourced inputs g size blocks x := by
  induction h with
  | nil => exact fun x hx => Or.inl hx
  | @reached block rest plan plan' b b' frame start offset input _ ih =>
    obtain rfl := hg (List.cons_ne_nil _ _)
    intro x hx
    rcases ih (fun _ => rfl) hsize x hx with hx | hx
    · dsimp only at hx
      split at hx
      · rcases List.mem_cons.1 hx with rfl | hx
        · exact Or.inr (.input offset input)
        · exact Or.inl hx
      · exact Or.inl hx
    · exact Or.inr hx.later
  | @dead block rest _ _ b mid _ start stop span input nonempty replaces graph _ ih =>
    obtain rfl := hg (List.cons_ne_nil _ _)
    subst hsize
    intro x hx
    rcases ih graph replaces.size x hx with hx | hx
    · rcases List.mem_cons.1 hx with rfl | hx
      · exact Or.inr (.dead span input nonempty)
      · exact Or.inl hx
    · exact Or.inr hx.later
  | empty _ _ _ _ ih =>
    obtain rfl := hg (List.cons_ne_nil _ _)
    exact fun x hx => (ih (fun _ => rfl) hsize x hx).imp_right Sourced.later

/-- A block is replaced exactly if one is dead and not empty. -/
theorem replaced_iff (h : Walks inputs blocks plan b plan' b') (hg : blocks ≠ [] → b.graph = g)
    (hsize : b.code.size = size) (ho : g.Ordered size blocks) :
    plan'.replaced = true ↔ plan.replaced = true ∨
      ∃ i, g.LiesIn size blocks (inputs[·]? = none) i := by
  induction h with
  | nil => exact ⟨Or.inl, fun h => h.resolve_right fun ⟨_, _, _, _, hs, _⟩ => nomatch hs.mem⟩
  | reached _ input _ ih =>
    rw [ih (fun _ => hg (List.cons_ne_nil _ _)) hsize ho.tail]
    refine or_congr_right (exists_congr fun i => ⟨fun hl => hl.later, ?_⟩)
    rintro ⟨block, start, stop, hs, hd, hin⟩
    rcases hs.cons_cases with rfl | hs
    · rw [input] at hd
      cases hd
    · exact ⟨block, start, stop, hs, hd, hin⟩
  | @dead block rest _ _ b mid _ start stop span input nonempty replaces graph _ ih =>
    obtain rfl := hg (List.cons_ne_nil _ _)
    subst hsize
    refine iff_of_true ((ih graph replaces.size ho.tail).2 (Or.inl rfl)) (Or.inr ⟨start, ?_⟩)
    exact ⟨block, start, stop, span, input, Nat.le_refl _, nonempty⟩
  | empty span _ empty _ ih =>
    obtain rfl := hg (List.cons_ne_nil _ _)
    subst hsize
    rw [ih (fun _ => rfl) rfl ho.tail]
    refine or_congr_right (exists_congr fun i => ⟨fun hl => hl.later, ?_⟩)
    rintro ⟨block, start, stop, hs, hd, hin⟩
    rcases ho.cons_cases span hs with ⟨rfl, rfl, rfl⟩ | hs
    · exact absurd (Nat.lt_of_le_of_lt hin.1 hin.2) empty
    · exact ⟨block, start, stop, hs, hd, hin⟩

/-- The number of locals stays as it is. -/
theorem maxLocals_eq (h : Walks inputs blocks plan b plan' b') : b'.maxLocals = b.maxLocals := by
  induction h with
  | nil => rfl
  | reached _ _ _ ih => exact ih
  | dead _ _ _ replaces _ _ ih =>
    obtain ⟨code, graph, handlers, rfl⟩ := replaces.rest
    exact ih
  | empty _ _ _ _ ih => exact ih

end Walks

end JvmClass.MethodBuilder
