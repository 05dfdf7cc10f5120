import JvmClass.Proofs.Reencoding.Repeating

/-!
# The second course of a body

A body that was read back is told to a second method. It goes the course of the first one, label by
label, and completes with the same attribute (`ClassImage.Course.again`).
-/

namespace JvmClass

open ClassBuilder (feedMethod feedMethod_append)

namespace MethodBuilder

variable {g : LabelGraph} {places : Places} {final : ConstantPool} {b b' c c' : MethodBuilder}
  {u : Unit}

/-- Both bodies take up variables. -/
theorem Following.vars (h : b.Following g places final c) {vars vars' : List (VariableRange Label)}
    (hsame : List.Forall₂ (VariableSame g places) vars vars') (n n' : Nat) :
    Following g places final { b with vars := b.vars ++ vars.toArray, maxLocals := n }
      { c with vars := c.vars ++ vars'.toArray, maxLocals := n' } := by
  refine ⟨⟨h.alike.rest, h.alike.fixups, h.alike.handlers, h.alike.lines, ?_, h.alike.frames⟩,
    h.pool, ⟨h.steady.grouped, h.steady.current, h.steady.begun⟩, h.plainly, h.named⟩
  simp only [Array.toList_append]
  exact List.rel_append h.alike.vars hsame

/-- Both bodies take up attributes. -/
theorem Following.codeAttributes (h : b.Following g places final c)
    (attributes : List RawAttribute) :
    Following g places final { b with codeAttributes := b.codeAttributes ++ attributes.toArray }
      { c with codeAttributes := c.codeAttributes ++ attributes.toArray } := by
  refine ⟨⟨?_, h.alike.fixups, h.alike.handlers, h.alike.lines, h.alike.vars, h.alike.frames⟩,
    h.pool, ⟨h.steady.grouped, h.steady.current, h.steady.begun⟩, h.plainly, h.named⟩
  have hrest : ∀ d : MethodBuilder, MethodBuilder.rest
      { d with codeAttributes := d.codeAttributes ++ attributes.toArray } =
      { d.rest with codeAttributes := d.rest.codeAttributes ++ attributes.toArray } := fun _ => rfl
  rw [hrest, hrest, h.alike.rest]

end MethodBuilder

namespace ClassImage

open MethodBuilder

variable {image image' : ClassImage} {named named' : NamedBody} {rows : List Row}
  {b opened written ended closed : MethodBuilder} {final pool pool' : ConstantPool}
  {frames : List (Nat × Layout NamedType)} {body body' : StoredBody} {tables tables' : BodyTables}
  {stack locals : UInt16}

/-- The handlers that are stored are named as those that were told. -/
theorem handlers_same {g : LabelGraph} {t : Places} {handlers : List ExceptionHandler}
    {entries : List TableEntry} {ranges : List HandlerRange}
    (hstored : List.Forall₂ (ExceptionHandler.Stored g image') handlers entries)
    (hcalled : List.Forall₂ (image'.HandlerCalled t) entries ranges) :
    List.Forall₂ (HandlerSame g t) handlers (ranges.map HandlerRange.toHandler) := by
  rw [List.forall₂_map_right_iff]
  refine (forall₂_comp hstored hcalled).imp ?_
  rintro handler range ⟨entry, hs, hc⟩
  exact ⟨⟨_, hs.start, hc.start⟩, ⟨_, hs.stop, hc.stop⟩, ⟨_, hs.handler, hc.handler⟩,
    Except.ok.inj (hc.catchType.symm.trans hs.catchType)⟩

/-- The variables that are stored are named as those that were told. -/
theorem vars_same {g : LabelGraph} {t : Places} {vars vars' : List (VariableRange Label)}
    {stored : List StoredVariable} (hstored : List.Forall₂ (VariableRead g image') vars stored)
    (hcalled : List.Forall₂ (image'.VariableCalled t) stored vars') :
    List.Forall₂ (VariableSame g t) vars vars' := by
  refine (forall₂_comp hstored hcalled).imp ?_
  rintro v v' ⟨entry, hs, hc⟩
  exact ⟨Except.ok.inj (hc.name.symm.trans hs.name),
    Except.ok.inj (hc.descriptor.symm.trans hs.descriptor), ⟨_, hs.start, hc.start⟩,
    ⟨_, hs.stop, hc.stop⟩, hc.slot.trans hs.slot⟩

/-- The second body opens like the first one. -/
theorem Course.opens_again (h : Course image named b rows opened written ended closed)
    (hblank : b.Blank) (hplainly : b.setting.compute = ⟨false, false⟩) {g : LabelGraph}
    (hsound : named'.places.Sound body')
    (hhandlers : List.Forall₂ (HandlerSame g named'.places)
      ((named.handlers.map HandlerRange.toHandler).filter (Handlers.holdsCode g))
      (named'.handlers.map HandlerRange.toHandler))
    (hmirrors : ConstantPool.Mirrors final b.pool pool') : ∃ c,
      feedMethod (eventsAhead named') { b with pool := pool' } = .ok () c ∧
      opened.Following g named'.places final c ∧
      ∀ o label, named'.places.get? o = some label →
        ∃ place, c.graph.place? label = some place ∧ place.position = none := by
  have hbare := hblank.bare
  let labelled : MethodBuilder :=
    { b with pool := pool', graph := b.graph.addLabels named'.places.count }
  have hgraph : labelled.graph = LabelGraph.empty.addLabels named'.places.count := by
    show b.graph.addLabels _ = _
    rw [hbare.graph]
  obtain ⟨begun, hbegin, hsteady⟩ := beginCode_succeeds (c := labelled)
    (by rw [hgraph]; exact LabelGraph.Grouped.empty.addLabels _)
    (by rw [hgraph, LabelGraph.chain_addLabels]; rfl)
  have hdata := data_beginCode hbegin
  have hunplaced (o : Nat) (label : Label) (hl : named'.places.get? o = some label) :
      ∃ place, begun.graph.place? label = some place ∧ place.position = none := by
    have hplace := LabelGraph.place?_addLabels_new (g := LabelGraph.empty)
      (hsound.bounded o label hl)
    have hnumber : LabelGraph.empty.size + label.number = label.number := Nat.zero_add _
    rw [hnumber, ← hgraph] at hplace
    exact ⟨_, (stays_beginCode hbegin).place _ _ hplace, rfl⟩
  let c : MethodBuilder := { begun with
    handlers := begun.handlers ++ (named'.handlers.map HandlerRange.toHandler).toArray }
  have hopens := h.opens
  simp only [MethodBuilder.data, MethodBuilder.mk.injEq] at hopens hdata
  refine ⟨c, Step.bind_ok.2 ⟨(), labelled, rfl, Step.bind_ok.2 ⟨(), begun, hbegin,
    feed_handlers _ _⟩⟩, ⟨⟨?_, ?_, ?_, ?_, ?_, ?_⟩, ?_, ?_, ?_, ?_⟩, hunplaced⟩
  · simp only [MethodBuilder.rest, MethodBuilder.data, c, hopens, hdata, labelled]
  · simp only [c, hopens, hdata, labelled, hbare.fixups]
    exact .nil
  · simp only [c, hopens, hdata, labelled, hbare.handlers, Array.empty_append]
    exact hhandlers
  · simp only [c, hopens, hdata, labelled, hbare.lines]
    exact .nil
  · simp only [c, hopens, hdata, labelled, hbare.vars]
    exact .nil
  · simp only [c, hopens, hdata, labelled, hbare.frames]
    exact .nil
  · simp only [c, hopens, hdata, labelled]
    exact hmirrors
  · exact ⟨hsteady.grouped, hsteady.current, hsteady.begun⟩
  · rw [hopens.1, hplainly]
  · intro o label hl
    obtain ⟨place, hplace, hnone⟩ := hunplaced o label hl
    exact ⟨place, hplace, .inl hnone⟩

theorem offset_of_position {g : LabelGraph} {label : Label} {p : Nat}
    (h : g.position? label = some p) : g.resolve.offset label = .ok p := by
  rw [LabelGraph.offset_resolve, h]

/-- The lines and frames that are read back are those of the rows. -/
theorem ReadBack.describe (h : image'.ReadBack rows closed final stack locals frames body' tables')
    (hcloses : Closes named rows b written closed) (hplaced : Course.Placed named rows closed) :
    Describe named closed.graph.resolve rows tables' := by
  refine ⟨fun row hrow label hl => offset_of_position (hplaced.rows row hrow label hl), ?_, ?_, ?_⟩
  · rw [← h.offsets]
    exact (List.pairwise_map.2 h.ordered).imp Nat.ne_of_lt
  · rw [← hcloses.lines]
    exact h.rereads.lines
  · rw [← hcloses.frames, h.rereads.stackMap, List.forall₂_map_right_iff]
    exact forall₂_of_mapM h.frames

/-- The instructions that are read back are told as the rows were. -/
theorem ReadBack.rows_again
    (h : image'.ReadBack rows closed final stack locals frames body' tables')
    (hi : image'.Holds final) (hcloses : Closes named rows b written closed)
    (hplaced : Course.Placed named rows closed) (hcalled : image'.Called body' tables' named') :
    List.Forall₂ (fun row x => x.1 = row.offset ∧
      RowSame closed.graph.resolve named named' row.place row.offset ∧ ∃ event,
        image'.instructionEvent x.2 = .ok event ∧
        Retells closed.graph.resolve named'.places row.before row.event event)
      rows named'.instructions := by
  have hdescribe := h.describe hcloses hplaced
  have hall := (List.forall₂_and_left _ _).2 ⟨fun row hrow => hdescribe.rowSame hcalled hrow,
    forall₂_comp h.instructions hcalled.instructions⟩
  refine hall.imp ?_
  rintro row x ⟨hrow, i, ⟨hoffset, hreads⟩, rfl, hcalls⟩
  exact ⟨hoffset, hoffset ▸ hrow, hreads.retells hi hcalls⟩

theorem Called.offsets (h : image'.Called body' tables' named') :
    named'.instructions.map Prod.fst = body'.instructions.toList.map Prod.fst := by
  have hall := h.instructions
  generalize body'.instructions.toList = is, named'.instructions = js at hall
  induction hall with
  | nil => rfl
  | cons hfirst _ ih => rw [List.map_cons, List.map_cons, hfirst.1, ih]

/-- The second body ends like the first one. -/
theorem Course.ends_again {label label' : Option Label} {g : LabelGraph} {c ended : MethodBuilder}
    (hrun : feedMethod (label.toList.map .label) b = .ok () ended)
    (hc : b.Following g named'.places final c) (hsound : named'.places.Sound body')
    (hlabel : named'.places.get? b.code.size = label')
    (hwaiting : Waiting named'.places c b.code.size) : ∃ c',
      feedMethod (label'.toList.map .label) c = .ok () c' ∧
      ended.Following g named'.places final c' ∧ Settled named'.places c' b.code.size ∧
      ∀ o, o ≠ b.code.size → Settled named'.places c o → Settled named'.places c' o := by
  have hended : ended.Following g named'.places final c := by
    cases label with
    | none =>
      obtain ⟨-, rfl⟩ := Step.pure_ok.1 hrun
      exact hc
    | some label =>
      obtain ⟨_, mid, hplace, hend⟩ := Step.bind_ok.1 hrun
      obtain ⟨-, rfl⟩ := Step.pure_ok.1 hend
      exact hc.label_left hplace
  have hsize : ended.code.size = b.code.size := by
    have hcode := congrArg MethodBuilder.code (data_endLabel hrun)
    exact congrArg Array.size hcode
  cases label' with
  | none =>
    exact ⟨c, rfl, hended, fun l hl => absurd (hlabel.symm.trans hl) nofun, fun _ _ ho => ho⟩
  | some l =>
    obtain ⟨place, hplace, hunplaced⟩ := hwaiting l hlabel
    obtain ⟨c', hrun', hfollow, hothers, hat⟩ := hended.label_right
      (fun o o' label => hsound.injective o o' label) (hsize ▸ hlabel) hplace hunplaced
    rw [hsize] at hat
    refine ⟨c', Step.bind_ok.2 ⟨(), c', hrun', rfl⟩, hfollow, fun label hl => ?_,
      fun o hne ho label hl => ?_⟩
    · cases hlabel.symm.trans hl
      exact hat
    · rw [hothers label fun he => hne (hsound.injective o _ label hl (he ▸ hlabel))]
      exact ho label hl

/-- **A body told again completes with the same attribute.** -/
theorem Course.again {code : Bytes} {a : Attribute}
    (h : Course image named b rows opened written ended closed) (hblank : b.Blank)
    (hplainly : b.setting.compute = ⟨false, false⟩)
    (hcompletes : closed.Completes stack locals code frames a pool) (hfinal : pool.Grows final)
    (hread : image'.ReadBack rows closed final stack locals frames body' tables')
    (hi : image'.Holds final) (hcalled : image'.Called body' tables' named')
    (hmirrors : ConstantPool.Mirrors final b.pool pool') : ∃ told c,
      Tellings image' named' named'.instructions told ∧
      feedMethod (eventsAhead named' ++ (told.map Prod.snd ++ eventsBehind named'))
        { b with pool := pool' } = .ok () c ∧
      c.rest = (closed.completed a pool).rest ∧ ConstantPool.Mirrors final pool c.pool := by
  have hcloses := h.closed_ok hblank hplainly
  have hplaced := h.placed hblank hplainly
  have hsound := hcalled.sound
  have hhandlers := handlers_same hread.rereads.handlers hcalled.handlers
  rw [hcloses.handlers] at hhandlers
  have hgrows := ((stable_codeRequest _ _ _ _ _ _) _ _ _ hcompletes.request).1.grows.trans hfinal
  have hordered := List.pairwise_append.1 hread.ascending
  have hoffsets : named'.instructions.map Prod.fst = body'.starts := hcalled.offsets
  have hsize : body'.size = written.code.size := by rw [hread.rereads.size, hcloses.code]
  have hbelow : ∀ o ∈ named'.instructions.map Prod.fst, o < written.code.size := fun o ho =>
    hsize ▸ hordered.2.2 o (hoffsets ▸ ho) _ (List.mem_singleton_self _)
  -- Opening, and the rows.
  obtain ⟨c₁, hrun₁, hfollow₁, hfree⟩ := h.opens_again hblank hplainly hsound hhandlers hmirrors
  obtain ⟨told, c₂, htold, hrun₂, hfollow₂, hsettled₂, hstays₂⟩ := h.wrote.follows
    (hcloses.pool ▸ hgrows) (hread.rows_again hi hcloses hplaced hcalled)
    (fun o o' label => hsound.injective o o' label)
    (by rw [hoffsets]; exact hordered.1.imp Nat.ne_of_lt) hfollow₁ fun o _ label hl =>
    hfree o label hl
  -- The end of the code.
  have hwaiting : Waiting named'.places c₂ written.code.size := by
    intro label hl
    obtain ⟨place, hplace, hnone⟩ := hfree _ label hl
    refine ⟨place, hstays₂ label place hplace fun o ho he => ?_, hnone⟩
    exact absurd (hsound.injective o _ label he hl) (hbelow o ho).ne
  have hstop : named'.places.get? written.code.size = named'.places.get? named'.size := by
    rw [hcalled.size, hsize]
  obtain ⟨c₃, hrun₃, hfollow₃, hsettled₃, hothers₃⟩ :=
    Course.ends_again h.ends hfollow₂ hsound hstop hwaiting
  -- Variables and attributes.
  obtain ⟨n, hrun₄⟩ := feed_variables named'.vars c₃
  have hvars := vars_same hread.rereads.vars hcalled.vars
  rw [hcloses.vars] at hvars
  have hattributes : named'.attributes = named.attributes := by
    rw [hcalled.attributes, hread.rereads.attributes, hcloses.codeAttributes]
  have hclosed := h.closes
  obtain ⟨c₄, hc₄, hfollow₄⟩ : ∃ c₄, feedMethod (named'.attributes.map .codeAttribute) { c₃ with
      vars := c₃.vars ++ named'.vars.toArray, maxLocals := n } = .ok () c₄ ∧
      closed.Following closed.graph.resolve named'.places final c₄ ∧ c₄.graph = c₃.graph := by
    refine ⟨_, feed_codeAttributes.2 ⟨?_, rfl⟩, ?_, rfl⟩
    · rw [hattributes]
      show ∀ a ∈ named.attributes, a.check c₃.setting.copiedPool = .ok ()
      have hsetting := congrArg MethodBuilder.setting hclosed
      change closed.setting = ended.setting at hsetting
      rw [hfollow₃.alike.setting, ← hsetting, hcloses.setting]
      exact h.accepts
    · have hfollow := (hfollow₃.vars hvars ended.maxLocals n).codeAttributes named'.attributes
      refine hfollow.aside ?_ (.refl _) hfollow.steady
      rw [hattributes]
      exact hclosed
  obtain ⟨hfollow₄, hgraph⟩ := hfollow₄
  -- Every label has been placed where it is to be.
  have hplacedAll (o : Nat) (label : Label) (hl : named'.places.get? o = some label) :
      c₄.graph.position? label = some o := by
    suffices hsettled : Settled named'.places c₃ o by
      obtain ⟨place, hplace, hposition⟩ := hsettled label hl
      rw [hgraph, LabelGraph.position?_eq, hplace]
      exact hposition
    rcases hsound.admitted o label hl with ⟨i, hi⟩ | ho
    · have hmem : o ∈ named'.instructions.map Prod.fst := by
        rw [hcalled.offsets]
        exact List.mem_map.2 ⟨(o, i), Array.mem_toList_iff.2 hi, rfl⟩
      exact hothers₃ o (hbelow o hmem).ne (hsettled₂ o hmem)
    · rw [ho, hsize]
      exact hsettled₃
  obtain ⟨pool'', hcomplete, hmirrors'⟩ := hfollow₄.completes hplacedAll hcompletes hfinal
  have hcompute : c₄.setting.compute = ⟨false, false⟩ := by
    rw [hfollow₄.alike.setting, hcloses.setting, hplainly]
  refine ⟨told, c₄.completed a pool'', htold, feedMethod_append.2 ⟨c₁, hrun₁, feedMethod_append.2
    ⟨c₂, hrun₂, feedMethod_append.2 ⟨c₃, hrun₃, feedMethod_append.2 ⟨_, hrun₄,
      feedMethod_append.2 ⟨c₄, hc₄, ?_⟩⟩⟩⟩⟩, ?_, hmirrors'⟩
  · have hmaxs : named'.maxStack = stack ∧ named'.maxLocals = locals :=
      ⟨hcalled.maxs.1.trans hread.rereads.maxs.1, hcalled.maxs.2.trans hread.rereads.maxs.2⟩
    rw [hmaxs.1, hmaxs.2]
    exact Step.bind_ok.2 ⟨(), _, (finishBody_plain hcompute).2 ⟨code, frames, a, pool'', hcomplete,
      rfl⟩, rfl⟩
  · have hrest (d : MethodBuilder) (p : ConstantPool) : (d.completed a p).rest =
        { d.rest with codeAttributes := #[], code := #[], body := some a } := rfl
    rw [hrest, hrest, hfollow₄.alike.rest]

end ClassImage

end JvmClass
