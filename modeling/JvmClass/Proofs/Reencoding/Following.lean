import JvmClass.Proofs.Assembly.Lockstep
import JvmClass.Proofs.Constant.Growth
import JvmClass.Proofs.Flow.ExceptionEdges

/-!
# A body told again

What a body stores is told by events that call its labels by other names. A second body that takes
up those events does what the first one did (`MethodBuilder.Follows`): it writes the same bytes and
puts the same requests to a pool that answers them as the pool of the first body did. Nothing is
computed, so that it does not matter which blocks the two have.
-/

namespace JvmClass

namespace LabelGraph

variable {g g' : LabelGraph} {label : Label} {p : Nat}

/-- A label that is not placed can be. -/
theorem place_succeeds {place : Place} (h : g.place? label = some place)
    (hunplaced : place.position = none) (p : Nat) :
    ∃ starts g', LabelGraph.place label p g = .ok starts g' := by
  unfold place? at h
  obtain ⟨d, hd, rfl⟩ := Option.map_eq_some_iff.1 h
  have hnone : d.position = none := hunplaced
  unfold LabelGraph.place
  simp only [hd, hnone, Option.isSome_none, Bool.false_eq_true, if_false]
  split <;> exact ⟨_, _, rfl⟩

/-- The block of a label that has been placed is one of the graph. -/
theorem Placing.grouped {starts : Bool} (h : Placing g label p starts g') (hg : g.Grouped) :
    g'.Grouped ∧ g'.blockOf label ∈ g'.blocks ∧ ∀ l ∈ g.blocks, l ∈ g'.blocks := by
  cases starts with
  | false =>
    obtain ⟨hg', leader, hlast, hchain, hblock, -⟩ := hg.joins h
    have hblocks : g'.blocks = g.blocks := congrArg Array.toList hchain
    refine ⟨hg', ?_, fun l hl => hblocks ▸ hl⟩
    rw [hblock, hblocks]
    exact Array.mem_toList_iff.2 (Array.mem_of_back? hlast)
  | true =>
    obtain ⟨hg', hchain, hblock, -⟩ := hg.starts h
    have hblocks : g'.blocks = g.blocks ++ [label] := by
      simp [LabelGraph.blocks, hchain]
    rw [hblock, hblocks]
    exact ⟨hg', by simp, fun l hl => List.mem_append_left _ hl⟩

end LabelGraph

namespace MethodBuilder

variable {b b' c c' : MethodBuilder} {u : Unit}

/-- A body whose control flow can always be recorded. -/
structure Steady (c : MethodBuilder) : Prop where
  grouped : c.graph.Grouped
  current : ∀ block, c.current = some block → block ∈ c.graph.blocks
  begun : c.entry.isSome = true

/-- What a body has apart from its blocks and the edges between them. -/
def data (b : MethodBuilder) : MethodBuilder :=
  { b with entry := none, graph := default, blocks := ∅, current := none, maxLocals := 0 }

/-- Nothing but blocks, edges and flags changes, and labels stay where they are. -/
structure Aside (c c' : MethodBuilder) : Prop where
  data : c'.data = c.data
  place : ∀ label place, c.graph.place? label = some place → c'.graph.place? label = some place

namespace Aside

theorem refl (c : MethodBuilder) : c.Aside c := ⟨rfl, fun _ _ h => h⟩

theorem trans {d : MethodBuilder} (h : c.Aside c') (h' : c'.Aside d) : c.Aside d :=
  ⟨h'.data.trans h.data, fun label place hl => h'.place label place (h.place label place hl)⟩

theorem code (h : c.Aside c') : c'.code = c.code := by
  have hcode := congrArg MethodBuilder.code h.data
  exact hcode

end Aside

theorem Steady.relayout (h : c.Steady) (hdata : c'.data = c.data)
    (hl : c.graph.SameLayout c'.graph) (hcurrent : c'.current = c.current)
    (hentry : c'.entry = c.entry) : c'.Steady ∧ c.Aside c' := by
  refine ⟨⟨h.grouped.sameLayout hl, fun block hblock => ?_, hentry ▸ h.begun⟩, hdata,
    fun label _ hp => (hl.place label).trans hp⟩
  rw [hl.blocks]
  exact h.current block (hcurrent ▸ hblock)

theorem data_placeLabel {label : Label} (h : placeLabel label b = .ok u b') :
    b'.data = b.data := by
  obtain ⟨g, ⟨-, rfl⟩ | ⟨-, g', -, rfl⟩⟩ := placeLabel_ok h <;> rfl

/-- A label that is not placed can be placed at the end of the code. -/
theorem placeLabel_succeeds {label : Label} {place : LabelGraph.Place} (h : c.Steady)
    (hplace : c.graph.place? label = some place) (hunplaced : place.position = none) :
    ∃ c', placeLabel label c = .ok () c' ∧ c'.Steady := by
  obtain ⟨starts, g, hg⟩ := LabelGraph.place_succeeds hplace hunplaced c.code.size
  obtain ⟨hgrouped, hblock, hblocks⟩ := (LabelGraph.placing hg).grouped h.grouped
  have hrun : ∀ c', placeLabel label c = .ok () c' ↔ _ := fun c' => by
    simp only [placeLabel, Step.bind_ok, Step.get_ok, onGraph, Step.on_ok]
    exact Iff.rfl
  cases starts with
  | false =>
    refine ⟨{ c with graph := g, current := some (g.blockOf label) }, (hrun _).2 ?_,
      hgrouped, ?_, h.begun⟩
    · exact ⟨_, _, ⟨rfl, rfl⟩, false, _, ⟨g, hg, rfl⟩, rfl⟩
    · rintro block ⟨⟩
      exact hblock
  | true =>
    cases hcurrent : c.current with
    | none =>
      have hl : g.SameLayout (g.markTarget label) := LabelGraph.sameLayout_setFlags _ _ _
      refine ⟨{ c with
          graph := g.markTarget label
          blocks := c.blocks.alter label fun summary => some (summary.getD {})
          current := some ((g.markTarget label).blockOf label) }, (hrun _).2 ?_,
        hgrouped.sameLayout hl, ?_, h.begun⟩
      · refine ⟨_, _, ⟨rfl, rfl⟩, true, _, ⟨g, hg, rfl⟩, ?_⟩
        simp only [if_true, Step.bind_ok, Step.get_ok]
        refine ⟨_, _, ⟨rfl, rfl⟩, ?_⟩
        simp only [hcurrent]
        rfl
      · rintro block ⟨⟩
        rw [hl.blocks, hl.blockOf]
        exact hblock
    | some previous =>
      obtain ⟨g', hg'⟩ := LabelGraph.addEdge_succeeds hgrouped
        (hblocks previous (h.current previous hcurrent)) .normal label
      have hl := LabelGraph.sameLayout_addEdge hg'
      refine ⟨{ c with
          graph := g'
          blocks := c.blocks.alter label fun summary => some (summary.getD {})
          current := some (g'.blockOf label) }, (hrun _).2 ?_,
        hgrouped.sameLayout hl, ?_, h.begun⟩
      · refine ⟨_, _, ⟨rfl, rfl⟩, true, _, ⟨g, hg, rfl⟩, ?_⟩
        simp only [if_true, Step.bind_ok, Step.get_ok]
        refine ⟨_, _, ⟨rfl, rfl⟩, ?_⟩
        simp only [hcurrent]
        exact Step.bind_ok.2 ⟨(), _, Step.on_ok.2 ⟨g', hg', rfl⟩, rfl⟩
      · rintro block ⟨⟩
        rw [hl.blocks, hl.blockOf]
        exact hblock

theorem data_splitBlock (h : splitBlock b = .ok u b') : b'.data = b.data := by
  simp only [splitBlock, newLabel, Step.bind_ok, Step.get_ok, Step.modify_ok, Step.pure_ok] at h
  obtain ⟨_, _, ⟨_, _, ⟨rfl, rfl⟩, _, _, rfl, rfl, rfl⟩, h⟩ := h
  exact (data_placeLabel h).trans rfl

theorem splitBlock_succeeds (h : c.Steady) :
    ∃ c', splitBlock c = .ok () c' ∧ c'.Steady ∧ c.Aside c' := by
  have hadded : Steady { c with graph := c.graph.addLabel } :=
    ⟨h.grouped.addLabel, h.current, h.begun⟩
  obtain ⟨c', hplace, hc'⟩ := placeLabel_succeeds hadded
    (LabelGraph.place?_addLabel_nextLabel c.graph) rfl
  have hrun : splitBlock c = .ok () c' := by
    simp only [splitBlock, newLabel, Step.bind_ok, Step.get_ok, Step.modify_ok, Step.pure_ok]
    exact ⟨_, _, ⟨_, _, ⟨rfl, rfl⟩, (), _, rfl, rfl, rfl⟩, hplace⟩
  exact ⟨c', hrun, hc', data_splitBlock hrun, (stays_splitBlock hrun).place⟩

theorem data_startInstruction {offset : Nat} (h : startInstruction b = .ok offset b') :
    b'.data = b.data := by
  obtain ⟨-, ⟨block, -, rfl⟩ | ⟨-, hsplit⟩⟩ := startInstruction_ok h
  · rfl
  · exact data_splitBlock hsplit

theorem startInstruction_succeeds (h : c.Steady) :
    ∃ c', startInstruction c = .ok c.code.size c' ∧ c'.Steady ∧ c.Aside c' := by
  have hbegun : c.entry.isNone = false := by
    rw [← Option.not_isSome, h.begun]
    rfl
  cases hcurrent : c.current with
  | some block =>
    refine ⟨c, ?_, h, .refl c⟩
    simp only [startInstruction, Step.bind_ok, Step.get_ok]
    refine ⟨_, _, ⟨rfl, rfl⟩, ?_⟩
    simp only [hbegun, Bool.false_eq_true, if_false, Step.bind_ok, Step.get_ok]
    refine ⟨_, _, ⟨rfl, rfl⟩, ?_⟩
    simp only [hcurrent, Option.isNone_some, Bool.false_eq_true, if_false, Step.bind_ok,
      Step.get_ok, Step.pure_ok]
    exact ⟨_, _, ⟨rfl, rfl⟩, rfl, rfl⟩
  | none =>
    obtain ⟨c', hsplit, hc', haside⟩ := splitBlock_succeeds h
    refine ⟨c', ?_, hc', haside⟩
    simp only [startInstruction, Step.bind_ok, Step.get_ok]
    refine ⟨_, _, ⟨rfl, rfl⟩, ?_⟩
    simp only [hbegun, Bool.false_eq_true, if_false, Step.bind_ok, Step.get_ok]
    refine ⟨_, _, ⟨rfl, rfl⟩, ?_⟩
    simp only [hcurrent, Option.isNone_none, if_true, Step.bind_ok, Step.get_ok, Step.pure_ok]
    exact ⟨_, _, hsplit, _, _, ⟨rfl, rfl⟩, congrArg Array.size haside.code, rfl⟩

theorem data_jumpTo {target : Label} (h : jumpTo target b = .ok u b') : b'.data = b.data := by
  obtain ⟨graph, -, rfl⟩ := jumpTo_eq h
  rfl

theorem jumpTo_succeeds (h : c.Steady) (target : Label) :
    ∃ c', jumpTo target c = .ok () c' ∧ c'.Steady ∧ c.Aside c' := by
  suffices hrun : ∃ c', jumpTo target c = .ok () c' by
    obtain ⟨c', hrun⟩ := hrun
    obtain ⟨graph, hl, rfl⟩ := jumpTo_eq hrun
    exact ⟨_, hrun, h.relayout rfl hl rfl rfl⟩
  have hmark (d : MethodBuilder) : ∃ c', (modify fun b =>
      { b with graph := b.graph.markTarget target } : Assemble Unit) d = .ok () c' := ⟨_, rfl⟩
  cases hcurrent : c.current with
  | none =>
    simp only [jumpTo, Step.bind_ok, Step.get_ok]
    obtain ⟨c', hc'⟩ := hmark c
    refine ⟨c', c, c, ⟨rfl, rfl⟩, ?_⟩
    rw [hcurrent]
    exact hc'
  | some block =>
    obtain ⟨g, hg⟩ := LabelGraph.addEdge_succeeds h.grouped
      (h.current block hcurrent) .normal target
    obtain ⟨c', hc'⟩ := hmark { c with graph := g }
    simp only [jumpTo, Step.bind_ok, Step.get_ok]
    refine ⟨c', c, c, ⟨rfl, rfl⟩, ?_⟩
    rw [hcurrent]
    exact Step.bind_ok.2 ⟨(), { c with graph := g }, Step.on_ok.2 ⟨g, hg, rfl⟩, hc'⟩

/-- Labels of two bodies that stand for the same offset: the graph of the first one has settled its
labels, and those of the second one are given to offsets. -/
def Same (g : LabelGraph) (places : Places) (l l' : Label) : Prop :=
  ∃ o, g.offset l = .ok o ∧ places.get? o = some l'

/-- Branch distances that are to be the same. -/
structure FixupSame (g : LabelGraph) (places : Places) (x y : Fixup) : Prop where
  source : y.source = x.source
  place : y.place = x.place
  target : Same g places x.target y.target
  wide : y.wide = x.wide

structure HandlerSame (g : LabelGraph) (places : Places) (x y : ExceptionHandler) : Prop where
  start : Same g places x.start y.start
  stop : Same g places x.stop y.stop
  handler : Same g places x.handler y.handler
  catchType : y.catchType = x.catchType

structure LineSame (g : LabelGraph) (places : Places) (x y : UInt16 × Label) : Prop where
  line : y.1 = x.1
  start : Same g places x.2 y.2

structure VariableSame (g : LabelGraph) (places : Places) (x y : VariableRange Label) : Prop where
  name : y.name = x.name
  descriptor : y.descriptor = x.descriptor
  start : Same g places x.start y.start
  stop : Same g places x.stop y.stop
  slot : y.slot = x.slot

/-- Types that are the same but for the label of an object that is not initialized. -/
inductive TypeSame (g : LabelGraph) (places : Places) : LabelledType → LabelledType → Prop
  | uninitialized {l l' : Label} (same : Same g places l l') :
    TypeSame g places (.uninitialized l) (.uninitialized l')
  | other {t : LabelledType} (initialized : ∀ l, t ≠ .uninitialized l) : TypeSame g places t t

structure FrameSame (g : LabelGraph) (places : Places) (x y : Nat × Layout LabelledType) :
    Prop where
  offset : y.1 = x.1
  locals : List.Forall₂ (TypeSame g places) x.2.locals y.2.locals
  stack : List.Forall₂ (TypeSame g places) x.2.stack y.2.stack

/-- What a body has that does not name labels. -/
def rest (b : MethodBuilder) : MethodBuilder :=
  { b.data with pool := default, handlers := #[], lines := #[], vars := #[], givenFrames := #[]
                fixups := #[] }

/-- A body has something with labels for every line, handler and the like of another one. -/
structure Alike (g : LabelGraph) (places : Places) (b c : MethodBuilder) : Prop where
  rest : c.rest = b.rest
  fixups : List.Forall₂ (FixupSame g places) b.fixups.toList c.fixups.toList
  handlers : List.Forall₂ (HandlerSame g places) (b.handlers.toList.filter (Handlers.holdsCode g))
    c.handlers.toList
  lines : List.Forall₂ (LineSame g places) b.lines.toList c.lines.toList
  vars : List.Forall₂ (VariableSame g places) b.vars.toList c.vars.toList
  frames : List.Forall₂ (FrameSame g places) b.givenFrames.toList c.givenFrames.toList

/-- `c` is the second body where `b` is the first one: what differs are labels, of which those of
`c` stand where `places` says once they are placed. -/
structure Following (g : LabelGraph) (places : Places) (final : ConstantPool)
    (b c : MethodBuilder) : Prop where
  alike : b.Alike g places c
  pool : ConstantPool.Mirrors final b.pool c.pool
  steady : c.Steady
  plainly : b.setting.compute = ⟨false, false⟩
  named : ∀ o label, places.get? o = some label → ∃ place, c.graph.place? label = some place ∧
    (place.position = none ∨ place.position = some o)

section Sides

variable {g : LabelGraph} {places : Places} {final : ConstantPool}

theorem Alike.code (h : b.Alike g places c) : c.code = b.code := by
  have hcode := congrArg MethodBuilder.code h.rest
  exact hcode

theorem Alike.setting (h : b.Alike g places c) : c.setting = b.setting := by
  have hsetting := congrArg MethodBuilder.setting h.rest
  exact hsetting

theorem eq_of_data (h : b'.data = b.data) :
    b' = { b with
      entry := b'.entry, graph := b'.graph, blocks := b'.blocks, current := b'.current
      maxLocals := b'.maxLocals } := by
  cases b
  cases b'
  simp only [data, mk.injEq] at h ⊢
  simp [h]

theorem Alike.of_data (h : b.Alike g places c) (hb : b'.data = b.data) (hc : c'.data = c.data) :
    b'.Alike g places c' := by
  rw [eq_of_data hb, eq_of_data hc]
  exact ⟨h.rest, h.fixups, h.handlers, h.lines, h.vars, h.frames⟩

theorem pool_of_data (h : b'.data = b.data) : b'.pool = b.pool := by
  have hpool := congrArg MethodBuilder.pool h
  exact hpool

theorem setting_of_data (h : b'.data = b.data) : b'.setting = b.setting := by
  have hsetting := congrArg MethodBuilder.setting h
  exact hsetting

/-- Both bodies change their blocks. -/
theorem Following.aside (h : b.Following g places final c) (hb : b'.data = b.data)
    (hc : c.Aside c') (hsteady : c'.Steady) : b'.Following g places final c' where
  alike := h.alike.of_data hb hc.data
  pool := by
    rw [pool_of_data hb, pool_of_data hc.data]
    exact h.pool
  steady := hsteady
  plainly := by
    rw [setting_of_data hb]
    exact h.plainly
  named o label hl := by
    obtain ⟨place, hplace, hposition⟩ := h.named o label hl
    exact ⟨place, hc.place label place hplace, hposition⟩

/-- What instructions do not change: all but the code, the pool and the control flow. -/
def outer (b : MethodBuilder) : MethodBuilder :=
  { b.data with pool := default, code := #[], fixups := #[] }

/-- The first body comes from one step to another. -/
structure Proceeds (b b' : MethodBuilder) : Prop where
  grows : b.pool.Grows b'.pool
  outer : b'.outer = b.outer

theorem Proceeds.refl (b : MethodBuilder) : b.Proceeds b := ⟨.refl _, rfl⟩

theorem Proceeds.trans {d : MethodBuilder} (h : b.Proceeds b') (h' : b'.Proceeds d) :
    b.Proceeds d := ⟨h.grows.trans h'.grows, h'.outer.trans h.outer⟩

theorem proceeds_of_data (h : b'.data = b.data) : b.Proceeds b' := by
  refine ⟨?_, by unfold outer; rw [h]⟩
  rw [pool_of_data h]
  exact .refl _

/-- What a step of the first body does, a step of the second one does as well, with the same answer.
The pool of the first body grows, and that of the second one answers like any pool that it grows
to. -/
def Follows {α : Type} (g : LabelGraph) (places : Places) (final : ConstantPool)
    (step step' : Assemble α) : Prop :=
  ∀ ⦃b a b'⦄, step b = .ok a b' → b.Proceeds b' ∧
    ∀ ⦃c⦄, b'.pool.Grows final → b.Following g places final c →
      ∃ c', step' c = .ok a c' ∧ b'.Following g places final c' ∧
        ∀ label place, c.graph.place? label = some place → c'.graph.place? label = some place

end Sides

section Combinators

variable {g : LabelGraph} {places : Places} {final : ConstantPool} {α β : Type}
  {step step' : Assemble α} {k k' : α → Assemble β}

theorem follows_pure (a : α) : Follows g places final (pure a) (pure a) := by
  intro b a' b' h
  obtain ⟨rfl, rfl⟩ := Step.pure_ok.1 h
  exact ⟨.refl _, fun c _ hc => ⟨c, rfl, hc, fun _ _ hl => hl⟩⟩

theorem follows_throw (e : ClassError) : Follows g places final (throw e) step' :=
  fun _ _ _ h => (Step.throw_ok.1 h).elim

theorem follows_of (x : Except ClassError α) :
    Follows g places final (Step.of x) (Step.of x) := by
  intro b a b' h
  obtain ⟨hx, rfl⟩ := Step.of_ok.1 h
  exact ⟨.refl _, fun c _ hc => ⟨c, Step.of_ok.2 ⟨hx, rfl⟩, hc, fun _ _ hl => hl⟩⟩

theorem Follows.bind (h : Follows g places final step step')
    (hk : ∀ a, Follows g places final (k a) (k' a)) :
    Follows g places final (step >>= k) (step' >>= k') := by
  intro b d b' hrun
  obtain ⟨a, mid, hstep, hrest⟩ := Step.bind_ok.1 hrun
  obtain ⟨hproceeds, hfollow⟩ := h hstep
  obtain ⟨hproceeds', hfollow'⟩ := hk a hrest
  refine ⟨hproceeds.trans hproceeds', fun c hfinal hc => ?_⟩
  obtain ⟨cmid, hc1, hmid, hplaces⟩ := hfollow (hproceeds'.grows.trans hfinal) hc
  obtain ⟨c', hc2, hc', hplaces'⟩ := hfollow' hfinal hmid
  exact ⟨c', Step.bind_ok.2 ⟨a, cmid, hc1, hc2⟩, hc',
    fun label place hl => hplaces' label place (hplaces label place hl)⟩

/-- Steps that depend on the setting, which is the same for both. -/
theorem follows_get {k k' : MethodBuilder → Assemble α}
    (hk : ∀ b c, c.setting = b.setting → Follows g places final (k b) (k' c)) :
    Follows g places final (get >>= k) (get >>= k') := by
  intro b a b' hrun
  obtain ⟨_, _, hget, hrest⟩ := Step.bind_ok.1 hrun
  obtain ⟨rfl, rfl⟩ := Step.get_ok.1 hget
  refine ⟨(hk b b rfl hrest).1, fun c hfinal hc => ?_⟩
  obtain ⟨c', hc', hfollow⟩ := (hk b c hc.alike.setting hrest).2 hfinal hc
  exact ⟨c', Step.bind_ok.2 ⟨c, c, rfl, hc'⟩, hfollow⟩

theorem follows_ite {d : Prop} [Decidable d] {other other' : Assemble α}
    (h : Follows g places final step step') (h' : Follows g places final other other') :
    Follows g places final (if d then step else other) (if d then step' else other') := by
  split
  · exact h
  · exact h'

theorem follows_guard {d d' : Prop} [Decidable d] [Decidable d'] (hd : d' ↔ d) {e : ClassError}
    {k k' : PUnit → Assemble α} (h : Follows g places final (k ()) (k' ())) :
    Follows g places final (if d then (throw e : Assemble PUnit) >>= k else k PUnit.unit)
      (if d' then (throw e : Assemble PUnit) >>= k' else k' PUnit.unit) := by
  intro b a b' hrun
  obtain ⟨hnot, hrest⟩ := Step.guard_ok.1 hrun
  obtain ⟨hproceeds, hfollow⟩ := h hrest
  refine ⟨hproceeds, fun c hfinal hc => ?_⟩
  obtain ⟨c', hc', hfollows⟩ := hfollow hfinal hc
  exact ⟨c', Step.guard_ok.2 ⟨fun h => hnot (hd.1 h), hc'⟩, hfollows⟩

theorem follows_when {d : Prop} [Decidable d] {step step' : Assemble PUnit}
    {k k' : PUnit → Assemble α} (h : Follows g places final step step')
    (hk : Follows g places final (k ()) (k' ())) :
    Follows g places final (if d then step >>= k else k PUnit.unit)
      (if d then step' >>= k' else k' PUnit.unit) :=
  follows_ite (h.bind fun _ => hk) hk

/-- Steps on the blocks of each body. -/
theorem follows_aside {step step' : Assemble Unit}
    (h : ∀ (b : MethodBuilder) u b', step b = .ok u b' → b'.data = b.data)
    (h' : ∀ c : MethodBuilder, c.Steady →
      ∃ c', step' c = .ok () c' ∧ c'.Steady ∧ c.Aside c') :
    Follows g places final step step' := by
  intro b u b' hrun
  have hdata := h b u b' hrun
  refine ⟨proceeds_of_data hdata, fun c _ hc => ?_⟩
  obtain ⟨c', hc', hsteady, haside⟩ := h' c hc.steady
  exact ⟨c', hc', hc.aside hdata haside hsteady, haside.place⟩

theorem follows_ask {request : ConstantPool.Request α} (hr : ConstantPool.Stable request) :
    Follows g places final (ask request) (ask request) := by
  intro b a b' hrun
  obtain ⟨pool, hanswer, rfl⟩ := Step.on_ok.1 hrun
  refine ⟨⟨(hr _ _ _ hanswer).1.grows, rfl⟩, fun c hfinal hc => ?_⟩
  obtain ⟨pool', hagain, hmirrors⟩ := hr.again hanswer hfinal hc.pool
  exact ⟨{ c with pool := pool' }, Step.on_ok.2 ⟨pool', hagain, rfl⟩,
    ⟨⟨hc.alike.rest, hc.alike.fixups, hc.alike.handlers, hc.alike.lines, hc.alike.vars,
      hc.alike.frames⟩, hmirrors, ⟨hc.steady.grouped, hc.steady.current, hc.steady.begun⟩,
      hc.plainly, hc.named⟩, fun _ _ hl => hl⟩

theorem follows_write (f : Bytes → Bytes) :
    Follows g places final (write f) (write f) := by
  intro b u b' hrun
  obtain rfl := write_ok hrun
  refine ⟨⟨.refl _, rfl⟩, fun c _ hc => ⟨{ c with code := f c.code }, rfl, ⟨⟨?_, hc.alike.fixups,
    hc.alike.handlers, hc.alike.lines, hc.alike.vars, hc.alike.frames⟩, hc.pool,
    ⟨hc.steady.grouped, hc.steady.current, hc.steady.begun⟩, hc.plainly, hc.named⟩,
    fun _ _ hl => hl⟩⟩
  have hrest : ∀ d : MethodBuilder, MethodBuilder.rest { d with code := f d.code } =
      { d.rest with code := f d.rest.code } := fun _ => rfl
  rw [hrest, hrest, hc.alike.rest]

end Combinators

section Primitives

variable {g : LabelGraph} {places : Places} {final : ConstantPool}

theorem follows_startInstruction :
    Follows g places final startInstruction startInstruction := by
  intro b offset b' hrun
  have hdata := data_startInstruction hrun
  obtain ⟨rfl, -⟩ := stays_startInstruction hrun
  refine ⟨proceeds_of_data hdata, fun c _ hc => ?_⟩
  obtain ⟨c', hc', hsteady, haside⟩ := startInstruction_succeeds hc.steady
  rw [hc.alike.code] at hc'
  exact ⟨c', hc', hc.aside hdata haside hsteady, haside.place⟩

theorem follows_splitBlock : Follows g places final splitBlock splitBlock :=
  follows_aside (fun _ _ _ => data_splitBlock) fun _ => splitBlock_succeeds

theorem follows_jumpTo (target target' : Label) :
    Follows g places final (jumpTo target) (jumpTo target') :=
  follows_aside (fun _ _ _ => data_jumpTo) fun _ hc => jumpTo_succeeds hc target'

theorem follows_jumpToAll {targets targets' : List Label}
    (h : targets'.length = targets.length) :
    Follows g places final (jumpToAll targets) (jumpToAll targets') := by
  induction targets generalizing targets' with
  | nil =>
    obtain rfl := List.eq_nil_of_length_eq_zero h
    exact follows_pure ()
  | cons target rest ih =>
    obtain ⟨target', rest', rfl⟩ := List.exists_cons_of_length_eq_add_one h
    exact (follows_jumpTo target target').bind fun _ => ih (Nat.succ.inj h)

theorem follows_endBlock : Follows g places final endBlock endBlock := by
  refine follows_aside (fun b _ b' hb => ?_) fun c hc => ?_
  · obtain rfl := Step.modify_ok.1 hb
    rfl
  · exact ⟨{ c with current := none }, rfl, ⟨hc.grouped, fun _ h =>
      (Option.some_ne_none _ h.symm).elim, hc.begun⟩, rfl, fun _ _ hl => hl⟩

theorem follows_touchLocal (slot : UInt16) (width : Nat) :
    Follows g places final (touchLocal slot width) (touchLocal slot width) := by
  refine follows_aside (fun b _ b' hb => ?_) fun c hc => ?_
  · obtain rfl := Step.modify_ok.1 hb
    rfl
  · exact ⟨_, rfl, ⟨hc.grouped, hc.current, hc.begun⟩, rfl, fun _ _ hl => hl⟩

/-- Nothing is computed, so that nothing is recorded. -/
theorem follows_record (offset : Nat) (effect effect' : Except ClassError Effect) :
    Follows g places final (record offset effect) (record offset effect') := by
  intro b u b' hrun
  obtain ⟨blocks, rfl⟩ := record_eq hrun
  refine ⟨proceeds_of_data rfl, fun c _ hc => ⟨c, ?_, hc.aside rfl (.refl c) hc.steady,
    fun _ _ hl => hl⟩⟩
  have hplainly : c.setting.compute.computesMaxs = false := by
    rw [hc.alike.setting, hc.plainly]
    rfl
  refine Step.bind_ok.2 ⟨c, c, rfl, ?_⟩
  simp only [hplainly, Bool.false_eq_true, if_false]
  rfl

theorem follows_splitAfterStore : Follows g places final splitAfterStore splitAfterStore := by
  intro b u b' hrun
  have hdata : b'.data = b.data := by
    rcases splitAfterStore_ok hrun with rfl | hsplit
    · rfl
    · exact data_splitBlock hsplit
  refine ⟨proceeds_of_data hdata, fun c _ hc => ⟨c, ?_,
    hc.aside hdata (.refl c) hc.steady, fun _ _ hl => hl⟩⟩
  have hplainly : c.setting.compute.frames = false := by rw [hc.alike.setting, hc.plainly]
  refine Step.bind_ok.2 ⟨c, c, rfl, ?_⟩
  simp only [hplainly, Bool.false_and, Bool.false_eq_true, if_false]
  rfl

theorem follows_putFixup (source : Nat) {target target' : Label} (wide : Bool)
    (h : Same g places target target') :
    Follows g places final (putFixup source target wide) (putFixup source target' wide) := by
  refine Follows.bind ?_ fun _ => follows_write _
  intro b u b' hrun
  obtain rfl := Step.modify_ok.1 hrun
  refine ⟨⟨.refl _, rfl⟩, fun c _ hc => ⟨_, rfl, ⟨⟨hc.alike.rest, ?_, hc.alike.handlers,
    hc.alike.lines, hc.alike.vars, hc.alike.frames⟩, hc.pool, ⟨hc.steady.grouped, hc.steady.current,
    hc.steady.begun⟩, hc.plainly, hc.named⟩, fun _ _ hl => hl⟩⟩
  rw [Array.toList_push, Array.toList_push]
  exact List.rel_append hc.alike.fixups
    (.cons ⟨rfl, congrArg Array.size hc.alike.code, h, rfl⟩ .nil)

theorem follows_putTargets (source : Nat) {targets targets' : List Label}
    (h : List.Forall₂ (Same g places) targets targets') :
    Follows g places final (putTargets source targets) (putTargets source targets') := by
  induction h with
  | nil => exact follows_pure ()
  | cons hfirst _ ih => exact (follows_putFixup source true hfirst).bind fun _ => ih

theorem follows_putCases (source : Nat) (keys : List Int32) {targets targets' : List Label}
    (h : List.Forall₂ (Same g places) targets targets') :
    Follows g places final (putCases source (keys.zip targets))
      (putCases source (keys.zip targets')) := by
  induction h generalizing keys with
  | nil =>
    cases keys <;> exact follows_pure ()
  | cons hfirst _ ih =>
    cases keys with
    | nil => exact follows_pure ()
    | cons key keys =>
      exact (follows_write _).bind fun _ => (follows_putFixup source true hfirst).bind fun _ =>
        ih keys

end Primitives

end MethodBuilder

end JvmClass
