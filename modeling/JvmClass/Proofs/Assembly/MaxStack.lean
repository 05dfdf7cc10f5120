import JvmClass.Proofs.Assembly.Arrivals
import JvmClass.Proofs.Assembly.Decodable
import JvmClass.Proofs.Assembly.Limits
import JvmClass.Proofs.Assembly.Lockstep

/-!
# One greatest stack height

The greatest height of the stack can be found while frames are computed, or by a walk over the blocks
that does not look at types. Both find the same for one body (`MethodBuilder.maxStack_agrees`):
instructions and handlers stand in the same places in both runs, however they fall into blocks
(`MethodBuilder.Parallel.outline_eq`), and each way finds the greatest height with which control can
arrive at these places.
-/

namespace JvmClass

namespace MethodEvent

variable {g : LabelGraph} {pool : ConstantPool} {event : MethodEvent} {i : Instruction Nat}

/-- The targets of an instruction that an event told of have their places. -/
theorem Tells.offset_target (h : event.Tells g pool i) {target : Label}
    (ht : target ∈ event.targets) : ∃ p, g.offset target = .ok p := by
  have hall : ∀ {fallback : Label} {targets : List Label} {place : Nat} {places : List Nat},
      g.offset fallback = .ok place → targets.mapM g.offset = .ok places →
      target ∈ fallback :: targets → ∃ p, g.offset target = .ok p := by
    intro fallback targets place places hplace hplaces hmem
    rcases List.mem_cons.1 hmem with rfl | hmem
    · exact ⟨place, hplace⟩
    · obtain ⟨p, -, hp⟩ := exists_of_forall₂ (Piece.offsets_ok hplaces).flip hmem
      exact ⟨p, hp⟩
  cases event with
  | jump op label =>
    obtain ⟨place, form, hplace, -⟩ := h
    obtain rfl := List.mem_singleton.1 ht
    exact ⟨place, hplace⟩
  | tableSwitch | lookupSwitch =>
    obtain ⟨place, places, hplace, hplaces, -⟩ := h
    exact hall hplace hplaces ht
  | _ => cases ht

end MethodEvent

theorem Row.Laid.head_offset {row : Row} {rows : List Row} {p q : Nat}
    (h : Laid p (row :: rows) q) : row.offset = p := by
  cases h with
  | cons offset _ _ => exact offset

namespace MethodBuilder

open Row (Laid)

variable {b b' c c' : MethodBuilder} {u u' : Unit} {all all' : List Label}
  {events : List MethodEvent}

section Outlines

/-- An instruction changes the height of the stack in one way, whatever its labels are and in
whichever form it is written. -/
theorem Effects.stackDelta_eq {event : MethodEvent} {offset : Nat} {effect effect' : Effect}
    (h : Effects offset event (.ok effect)) (h' : Effects offset event (.ok effect')) :
    effect'.stackDelta = effect.stackDelta := by
  cases event with
  | intOperand op operand =>
    rcases h with ⟨hop, _, h⟩ | ⟨hop, h⟩ <;> rcases h' with ⟨hop', _, h'⟩ | ⟨hop', h'⟩
    · cases h
      cases h'
      rfl
    · exact absurd hop hop'
    · exact absurd hop' hop
    · cases h
      cases h'
      rfl
  | jump op target =>
    have hform : ∀ form, form = op ∨ op = Opcode.goto ∧ form = Opcode.goto_w ∨
        op = Opcode.jsr ∧ form = Opcode.jsr_w →
        (Effect.plain form).stackDelta = (Effect.plain op).stackDelta := by
      rintro form (rfl | ⟨rfl, rfl⟩ | ⟨rfl, rfl⟩) <;> rfl
    obtain ⟨form, he, hcase⟩ := h
    obtain ⟨form', he', hcase'⟩ := h'
    cases he
    cases he'
    rw [hform _ hcase, hform _ hcase']
  | typeOperand | field | method | invokeDynamic | load | newMultiArray =>
    cases Except.ok.inj (h.trans h'.symm)
    rfl
  | plain | access | increment | tableSwitch | lookupSwitch =>
    cases h
    cases h'
    rfl
  | _ => cases h

/-- Instructions of two bodies that tell the same, with labels that stand in the same places. -/
def SameRow (place place' : Label → Option Nat) (row row' : Row) : Prop :=
  row'.offset = row.offset ∧ ∃ (event : MethodEvent) (name name' : Label → Label),
    row.event = event.relabel name ∧ row'.event = event.relabel name' ∧
    ∀ label ∈ event.labels, place' (name' label) = place (name label)

/-- Instructions that start in the same places and tell the same are the same by places. -/
theorem lines_eq {place place' : Label → Option Nat} {rows rows' : List Row} {p q : Nat}
    (h : List.Forall₂ (SameRow place place') rows rows') (hlaid : Laid p rows q)
    (hlaid' : Laid p rows' q)
    (heffects : ∀ row ∈ rows, Effects row.offset row.event (.ok row.effect))
    (heffects' : ∀ row ∈ rows', Effects row.offset row.event (.ok row.effect)) :
    rows'.map (Row.line place') = rows.map (Row.line place) := by
  induction h generalizing p with
  | nil => rfl
  | @cons row row' rest rest' head tail ih =>
    obtain ⟨hoffset, event, name, name', hevent, hevent', hplaces⟩ := head
    obtain ⟨heffect, heffects⟩ := List.forall_mem_cons.1 heffects
    obtain ⟨heffect', heffects'⟩ := List.forall_mem_cons.1 heffects'
    cases hlaid with
    | cons _ _ hlaid =>
    cases hlaid' with
    | cons _ _ hlaid' =>
    have hstop : row'.stop = row.stop := by
      cases tail with
      | nil => exact (hlaid'.unique (.nil _)).symm.trans (hlaid.unique (.nil _))
      | cons next _ => exact hlaid'.head_offset.symm.trans (next.1.trans hlaid.head_offset)
    rw [hevent, MethodEvent.effects_relabel] at heffect
    rw [hoffset, hevent', MethodEvent.effects_relabel] at heffect'
    rw [List.map_cons, List.map_cons, ih hlaid (hstop ▸ hlaid') heffects heffects']
    refine congrArg (· :: _) ?_
    unfold Row.line
    rw [hoffset, hstop, heffect.stackDelta_eq heffect', hevent, hevent',
      MethodEvent.closes_relabel, MethodEvent.closes_relabel, MethodEvent.targets_relabel,
      MethodEvent.targets_relabel, List.map_map, List.map_map]
    exact congrArg _ (List.map_congr_left fun label hl =>
      hplaces label (MethodEvent.mem_labels_of_target hl))

/-- Bodies in step have one outline. -/
theorem Parallel.outline_eq (h : Parallel events b b' c c' all all')
    (hsize : b'.code.size = b.code.size) {rows rows' : List (Label × Row)}
    (hrows : Charting (events.map (·.relabel (nameFrom all))) b c [] rows)
    (hrows' : Charting (events.map (·.relabel (nameFrom all'))) b' c' [] rows') :
    c'.outline (rows'.map Prod.snd) = c.outline (rows.map Prod.snd) := by
  have hposition : ∀ l l', (l, l') ∈ all.zip all' →
      c'.graph.position? l' = c.graph.position? l := fun l l' hl => h.inStep.position hl
  unfold outline
  congr 1
  · have hlaid' := hrows'.laid
    rw [hsize, h.inStep.code] at hlaid'
    refine lines_eq ?_ hrows.laid hlaid' ?_ ?_
    · have htold := h.told
      rw [← hrows.told, ← hrows'.told, List.forall₂_map_left_iff,
        List.forall₂_map_right_iff] at htold
      rw [List.forall₂_map_left_iff, List.forall₂_map_right_iff]
      refine htold.imp fun x x' hx => ?_
      obtain ⟨hoffset, event, hevent, hevent', hlabels⟩ := hx
      exact ⟨hoffset, event, _, _, hevent, hevent',
        fun label hl => hposition _ _ (hlabels label hl)⟩
    · intro row hr
      obtain ⟨x, hx, rfl⟩ := List.mem_map.1 hr
      exact hrows.effects x hx
    · intro row hr
      obtain ⟨x, hx, rfl⟩ := List.mem_map.1 hr
      exact hrows'.effects x hx
  · have hguards : List.Forall₂ Eq (c'.handlers.toList.map (·.guard c'.graph.position?))
        (c.handlers.toList.map (·.guard c.graph.position?)) := by
      rw [List.forall₂_map_left_iff, List.forall₂_map_right_iff]
      refine h.inStep.handlers.flip.imp fun k' k hk => ?_
      unfold ExceptionHandler.guard
      rw [hposition _ _ hk.start, hposition _ _ hk.stop, hposition _ _ hk.handler]
    rwa [List.forall₂_eq_eq_eq] at hguards

end Outlines

section Placed

variable {setting : MethodSetting} {pool : ConstantPool} {rows : List (Label × Row)}
  {stack locals : UInt16} {body patched limited final : MethodBuilder} {entry : Label}
  {lim : Limits} {table : Bytes}

/-- Where distances can be filled in and the exception table can be stored, targets and handlers
have their places. -/
theorem Charting.placed (h : Charting events (ofSetting setting pool) body [] rows)
    (hlast : ∀ event ∈ events, ∀ n, event.stage = some n → n ≤ 3)
    (hrun : ClassBuilder.feedMethod events (ofSetting setting pool) = .ok () body)
    (hf : body.setting.compute.frames = false)
    (hfinish : Finishes stack locals body patched limited final entry lim table) :
    (body.outline (rows.map Prod.snd)).Placed := by
  have hplaced : ∀ {label : Label} {p : Nat}, body.graph.resolve.offset label = .ok p →
      body.graph.position? label ≠ none := by
    intro label p hp hnone
    rw [LabelGraph.offset_resolve, hnone] at hp
    cases hp
  refine ⟨fun line hline hnone => ?_, fun guard hguard place hcovers => ?_⟩
  · obtain ⟨row, hrow, rfl⟩ := List.mem_map.1 hline
    obtain ⟨x, hx, rfl⟩ := List.mem_map.1 hrow
    obtain ⟨target, htarget, hnone⟩ := List.mem_map.1 hnone
    have hevent : x.2.event ∈ events := by
      have htold : (x.2.offset, x.2.event) ∈
          MethodBuilder.told events (ofSetting setting pool) :=
        h.told ▸ List.mem_map_of_mem hx
      exact (mem_told htold).1
    -- An instruction that jumps has a code that its event is for.
    have hproper : x.2.event.isProper = true := by
      refine isProper_of_run hlast hrun _ hevent ?_
      generalize x.2.event = event at htarget
      cases event <;> first | rfl | cases htarget
    obtain ⟨-, i, -, -, -, htells⟩ := h.spells hlast hrun hfinish.patch hfinish.size x hx hproper
    obtain ⟨p, hp⟩ := htells.offset_target htarget
    exact hplaced hp hnone
  · obtain ⟨k, hk, rfl⟩ := List.mem_map.1 hguard
    obtain ⟨code, hpatched⟩ := hfinish.patched_eq
    obtain ⟨graph, pool', hlimited, hwidens, -⟩ :=
      limits_ok (by rw [hpatched]; exact hf) hfinish.limits
    obtain ⟨tabled, htable, -⟩ := hfinish.tabled
    obtain ⟨stored, -, -, entries, hall, -⟩ := exceptionTable_ok htable
    have hoffset : ∀ label, limited.graph.offset label = body.graph.resolve.offset label := by
      intro label
      rw [hlimited]
      rw [hpatched] at hwidens
      exact hwidens.offset label
    have hcovers : Handlers.covers limited.graph place k = true := by
      rw [← covers_resolve] at hcovers
      unfold Handlers.covers at hcovers ⊢
      rwa [hoffset, hoffset]
    have hmem : k ∈ limited.handlers.toList.filter (Handlers.holdsCode limited.graph) := by
      refine List.mem_filter.2 ⟨?_, Handlers.holdsCode_of_covers hcovers⟩
      rw [hlimited, hpatched]
      exact hk
    obtain ⟨entry, -, hentry⟩ := exists_of_forall₂ hall.flip hmem
    exact hplaced ((hoffset _).symm.trans hentry.handler)

end Placed

section Framed

variable {rowsOf : Label → List Row} {entry : Label} {flow : FlowSetting}

/-- The frames are computed over blocks that are known by their instructions. -/
theorem Charted.summarized (h : b.Charted rowsOf) (hf : b.setting.compute.frames = true)
    (ha : b.Analyses entry flow) : flow.Summarized := by
  intro block
  rw [h.instructions hf ha.blocks, ha.blocks, h.summary, hf, FlowSetting.summarize, List.foldl_map]
  rfl

theorem Charted.catchesNarrow (h : b.Charted rowsOf) (ha : b.Analyses entry flow) :
    flow.CatchesNarrow := by
  intro block edge hedge type hk
  rcases h.edge_cases ha hedge with he | ⟨handler, type', htype, he⟩
  · cases hk.symm.trans he
  · cases hk.symm.trans he
    obtain ⟨caught, rfl⟩ := object_of_caughtType htype
    rfl

/-- The peak of a block is not below the height with which it is entered. -/
theorem Charted.zero_le_peak (h : b.Charted rowsOf) (l : Label) :
    0 ≤ (b.blocks.getD l {}).peak := by
  rw [h.summary]
  exact Row.delta_le_peak _ [] (rowsOf l)

end Framed

namespace Mapped

variable {rows : List (Label × Row)} {entry : Label} {g : LabelGraph}

/-- The greatest height that is found while frames are computed, and control arrives with one height
at each place. -/
theorem isGreatest_of_inputs {flow : FlowSetting} {inputs : Inputs}
    (h : Mapped b rows flow.graph entry) (hf : b.setting.compute.frames = true)
    (ha : b.Analyses entry flow) (hfinds : flow.FindsOperands entry b.entryFrame)
    (hloads : flow.LoadsNarrow entry b.entryFrame)
    (hinputs : flow.inputs entry b.entryFrame = .ok inputs) :
    IsGreatest (b.outline (rows.map Prod.snd)).heights inputs.maxStack ∧
      ∀ {place : Nat} {height height' : Int}, (b.outline (rows.map Prod.snd)).Arrives place height →
        (b.outline (rows.map Prod.snd)).Arrives place height' → height = height' := by
  have hcaught := h.charted.catchesNarrow ha
  have hsummarized := h.charted.summarized hf ha
  have hregular : b.entryFrame.Regular := Frame.regular_entry _ _ _ _
  have hempty : b.entryFrame.stackSize = 0 := by
    rw [hregular.stackSize_eq, entryFrame, Frame.stackSlots, Frame.entry_stack]
    rfl
  have hgreatest := FlowSetting.isGreatest_of_inputs hcaught hsummarized hfinds hloads hregular
    hempty hinputs
  rw [ha.blocks] at hgreatest
  refine ⟨h.isGreatest_heights hgreatest, h.arrives_unique fun l height height' hc hc' => ?_⟩
  rw [← ha.blocks] at hc hc'
  obtain ⟨f, hframe, rfl⟩ := FlowSetting.climbs_of_inputs hcaught hsummarized hfinds hloads
    hregular hempty hinputs hc
  obtain ⟨f', hframe', rfl⟩ := FlowSetting.climbs_of_inputs hcaught hsummarized hfinds hloads
    hregular hempty hinputs hc'
  cases hframe.symm.trans hframe'
  rfl

/-- Where control arrives with one height at each place, the walk over the blocks finds the greatest
height. -/
theorem isGreatest_of_walk (h : Mapped b rows g entry)
    (hu : ∀ {place : Nat} {height height' : Int},
      (b.outline (rows.map Prod.snd)).Arrives place height →
        (b.outline (rows.map Prod.snd)).Arrives place height' → height = height') :
    IsGreatest (b.outline (rows.map Prod.snd)).heights (g.maxStack b.blocks entry) := by
  refine h.isGreatest_heights (LabelGraph.isGreatest_maxStack (fun l height height' hc hc' => ?_)
    (h.charted.zero_le_peak entry))
  obtain ⟨_, p, -, hp, harrives⟩ := h.arrives_of_climbs hc
  obtain ⟨_, p', -, hp', harrives'⟩ := h.arrives_of_climbs hc'
  cases hp.symm.trans hp'
  exact hu harrives harrives'

end Mapped

/-- Where maximums are computed and frames are not, the greatest height comes from a walk over the
blocks. -/
theorem limits_maxs {entry : Label} {stack locals : UInt16} {lim : Limits}
    (hf : b.setting.compute.frames = false) (hc : b.setting.compute.computesMaxs = true)
    (h : limits entry stack locals b = .ok lim b') :
    ∃ graph, Handlers.complete b.handlers.toList b.graph = .ok () graph ∧
      lim.maxStack.toNat = (graph.maxStack b.blocks entry).toNat := by
  simp only [limits, Step.bind_ok, Step.get_ok] at h
  obtain ⟨_, _, ⟨rfl, rfl⟩, h⟩ := h
  rw [if_neg (by simp [hf]), if_pos hc] at h
  simp only [Step.bind_ok, Step.get_ok, onGraph, Step.on_ok] at h
  obtain ⟨_, _, ⟨graph, hgraph, rfl⟩, _, _, ⟨rfl, rfl⟩, h⟩ := h
  rw [Step.guard_ok] at h
  simp only [Step.bind_ok, Step.get_ok, Step.pure_ok] at h
  obtain ⟨hlimit, stackMap, _, -, _, _, ⟨rfl, rfl⟩, rfl, -⟩ := h
  exact ⟨graph, hgraph, UInt16.toNat_ofNat_of_lt' (Nat.not_le.1 hlimit)⟩

/-- A run up to the end of the code, and that end. -/
theorem feedNumbered_append_maxs {made : List Label} {stack locals : UInt16}
    (h : feedNumbered made (events ++ [.maxs stack locals]) b = .ok u c) :
    ∃ body, feedNumbered made events b = .ok () body ∧ finishBody stack locals body = .ok () c := by
  induction events generalizing b made with
  | nil =>
    obtain ⟨_, _, hget, h⟩ := Step.bind_ok.1 h
    obtain ⟨rfl, rfl⟩ := Step.get_ok.1 hget
    obtain ⟨_, mid, hfinish, h⟩ := Step.bind_ok.1 h
    obtain ⟨-, rfl⟩ := Step.pure_ok.1 h
    exact ⟨b, rfl, hfinish⟩
  | cons event rest ih =>
    obtain ⟨_, _, hget, h⟩ := Step.bind_ok.1 h
    obtain ⟨rfl, rfl⟩ := Step.get_ok.1 hget
    obtain ⟨_, mid, hfeed, h⟩ := Step.bind_ok.1 h
    obtain ⟨body, hrun, hfinish⟩ := ih h
    exact ⟨body, Step.bind_ok.2 ⟨_, _, Step.get_ok.2 ⟨rfl, rfl⟩, Step.bind_ok.2
      ⟨_, mid, hfeed, hrun⟩⟩, hfinish⟩

theorem inOrder_relabel (events : List MethodEvent) (name : Label → Label) (stage : Nat) :
    inOrder stage (events.map (·.relabel name)) = inOrder stage events := by
  induction events generalizing stage with
  | nil => rfl
  | cons event rest ih =>
    rw [List.map_cons, inOrder, inOrder, MethodEvent.stage_relabel]
    cases event.stage with
    | none => exact ih stage
    | some n => exact congrArg (decide (stage ≤ n) && ·) (ih _)

/-- Both ways to the greatest stack height agree. A body is told twice, once where frames are
computed and once where the maximums are. If both runs succeed, every simulated instruction finds
the operands that it calls for, and none loads an element of two slots as a reference, then the
heights that are stored are the same, except that one is raised to at least 1 where a block that is
not empty is not reached. -/
theorem maxStack_agrees {setting : MethodSetting} {pool : ConstantPool} {events : List MethodEvent}
    {stack locals : UInt16} {framed walked : MethodBuilder}
    (hframes : setting.compute.frames = true)
    (horder : inOrder 0 (events ++ [.maxs stack locals]) = true)
    (hnumbered : numbered 0 events = true)
    (hfinds : ∀ body entry flow, feedNumbered [] events (ofSetting setting pool) = .ok () body →
      body.Analyses entry flow → flow.FindsOperands entry body.entryFrame ∧
        flow.LoadsNarrow entry body.entryFrame)
    (hframed : feedNumbered [] (events ++ [.maxs stack locals]) (ofSetting setting pool) =
      .ok u framed)
    (hwalked : feedNumbered [] (events ++ [.maxs stack locals])
      (ofSetting { setting with compute := ⟨true, false⟩ } pool) = .ok u' walked) :
    ∃ body entry flow name most maxLocals code table attributes name' most' maxLocals' code' table'
        attributes',
      feedNumbered [] events (ofSetting setting pool) = .ok () body ∧ body.Analyses entry flow ∧
      framed.body = some (name, .code most maxLocals code table attributes) ∧
      walked.body = some (name', .code most' maxLocals' code' table' attributes') ∧
      (HasDead body.code.size flow entry → most.toNat = max most'.toNat 1) ∧
      (¬ HasDead body.code.size flow entry → most.toNat = most'.toNat) := by
  obtain ⟨body, hrun, hfinish⟩ := feedNumbered_append_maxs hframed
  obtain ⟨body', hrun', hfinish'⟩ := feedNumbered_append_maxs hwalked
  obtain ⟨-, hevents, hearly⟩ := inOrder_append_maxs horder
  have hstart : InStep ([].zip []) (ofSetting setting pool)
      (ofSetting { setting with compute := ⟨true, false⟩ } pool) :=
    ⟨rfl, rfl, .nil, List.forall_mem_nil _, .nil, .nil⟩
  obtain ⟨all, all', -, -, hparallel⟩ := parallel_run rfl hstart hnumbered hearly hrun hrun'
  have hrelabelled (name : Label → Label) :
      inOrder 0 (events.map (·.relabel name)) = true ∧
        ∀ event ∈ events.map (·.relabel name), ∀ n, event.stage = some n → n ≤ 3 := by
    refine ⟨(inOrder_relabel events name 0).trans hevents, fun event hevent n hn => ?_⟩
    obtain ⟨own, hown, rfl⟩ := List.mem_map.1 hevent
    exact hearly own hown n (MethodEvent.stage_relabel own ▸ hn)
  obtain ⟨hevents₁, hearly₁⟩ := hrelabelled (nameFrom all)
  obtain ⟨hevents₂, hearly₂⟩ := hrelabelled (nameFrom all')
  obtain ⟨rows, hrows⟩ :=
    charting_of_run (by simp [Compute.computesMaxs, hframes]) hevents₁ hearly₁ hparallel.run
  obtain ⟨rows', hrows'⟩ := charting_of_run rfl hevents₂ hearly₂ hparallel.run'
  have houtline := hparallel.outline_eq rfl hrows hrows'
  -- The run without frames walks over the blocks.
  obtain ⟨_, happends, -⟩ := pieces_of_feedMethod hearly₂ hparallel.run'
  have hcompute : body'.setting.compute = ⟨true, false⟩ := by rw [happends.setting]; rfl
  have hunframed : body'.setting.compute.frames = false := by rw [hcompute]
  obtain ⟨patched', limited', entry', lim, table', hends'⟩ := finishBody_ok hfinish'
  have hplaced := hrows'.placed hearly₂ hparallel.run' hunframed hends'
  obtain ⟨code', hpatched⟩ := hends'.patched_eq
  obtain ⟨graph, hcomplete, hmost'⟩ :=
    limits_maxs (by rw [hpatched, hcompute]) (by rw [hpatched, hcompute]; rfl) hends'.limits
  rw [hpatched] at hcomplete hmost'
  have hmapped' : Mapped body' rows' graph entry' :=
    ⟨hrows'.chart.toCharted, hrows'.laid, hends'.begun,
      linked_complete hrows'.chart.tiled hcomplete, hplaced⟩
  -- The other run simulates frames over blocks of its own.
  have hok : ClassBuilder.feedMethod (events.map (·.relabel (nameFrom all)) ++ [.maxs stack locals])
      (ofSetting setting pool) = .ok () framed :=
    ClassBuilder.feedMethod_append.2 ⟨body, hparallel.run, Step.bind_ok.2 ⟨_, _, hfinish, rfl⟩⟩
  obtain ⟨_, patched, limited, entry, flow, table, frames, hbody, hsetting, -, -, hframing⟩ :=
    framing_of_run hframes (by
      obtain ⟨hle, -, -⟩ := inOrder_append_maxs horder
      have := inOrder_relabel (events ++ [.maxs stack locals]) (nameFrom all) 0
      rwa [List.map_append, horder] at this) hok
  cases hparallel.run.symm.trans hbody
  have hmapped : Mapped body rows flow.graph entry :=
    ⟨hrows.chart.toCharted, hrows.laid, hframing.analyses.entry,
      linked_completeTyped hrows.chart.tiled hframing.analyses.graph, houtline ▸ hplaced⟩
  obtain ⟨name, most, maxLocals, others, stackMap, hends, -⟩ := hframing.ends
  obtain ⟨inputs, hmeasured⟩ := hframing.measured
  have hm := hmeasured _ _ _ _ _ _ hends
  obtain ⟨hfound, hnarrow⟩ := hfinds body entry flow hrun hframing.analyses
  obtain ⟨hgreatest, hunique⟩ := hmapped.isGreatest_of_inputs (hsetting ▸ hframes)
    hframing.analyses hfound hnarrow hm.computed
  have hgreatest' := hmapped'.isGreatest_of_walk (houtline ▸ hunique)
  rw [houtline] at hgreatest'
  have hsame : inputs.maxStack = lim.maxStack.toNat := by
    rw [hmost', hgreatest'.unique hgreatest]
    rfl
  obtain ⟨name', others', hends'⟩ := hends'.body
  refine ⟨body, entry, flow, name, most, maxLocals, limited.code, table, _, name', lim.maxStack, _, _,
    _, _, hrun, hframing.analyses, hends, hends', fun hdead => ?_, fun hdead => ?_⟩
  · rw [hm.stack hdead, hsame]
  · rw [hm.stackReached hdead, hsame]

section LoadsElement

variable {component : BaseType} {blocks : Std.HashMap Label BlockSummary} {body : MethodBuilder}
  {entry : Label} {flow : FlowSetting}

/-- A method of an array. -/
def takesArray (component : BaseType) : MethodSetting :=
  { constructorOfC with
    isConstructor := false
    descriptor := ⟨[.ref (.primitiveArray 0 component)], none⟩ }

/-- A body that loads an element of the array as if it were a reference, and a number after it. -/
def loadsElement : List MethodEvent :=
  [.code, .access Opcode.aload 1, .plain Opcode.iconst_0, .plain Opcode.aaload,
    .plain Opcode.iconst_0, .plain Opcode.return_void]

theorem loadsElement_relabel : ∀ event ∈ loadsElement, ∀ name, event.relabel name = event := by
  simp [loadsElement, MethodEvent.relabel]

/-- The instructions of the body. -/
def loadsEffects : List (Nat × Effect) :=
  [(0, .access Opcode.aload 1), (1, .plain Opcode.iconst_0), (2, .plain Opcode.aaload),
    (3, .plain Opcode.iconst_0), (4, .plain Opcode.return_void)]

/-- The control flow of the body: one block. -/
def loadsGraph (reachable : Bool) : LabelGraph where
  labels := #[{ position := some 0, offset := some 0, flags := ⟨false, reachable⟩,
                chainIndex := some 0 }]
  chain := #[⟨0⟩]

/-- The body before its end. -/
def loadsBody (component : BaseType) (compute : Compute) (code : Bytes) (graph : LabelGraph)
    (blocks : Std.HashMap Label BlockSummary) : MethodBuilder :=
  { ofSetting { takesArray component with compute } .empty with
    entry := some ⟨0⟩, code, graph, blocks }

theorem loadsElement_run (component : BaseType) (compute : Compute)
    (hc : compute.computesMaxs = true) : ∃ code graph blocks,
    ClassBuilder.feedMethod loadsElement
      (ofSetting { takesArray component with compute } .empty) =
        .ok () (loadsBody component compute code graph blocks) ∧
    code.size = 5 ∧ graph.resolve = loadsGraph false ∧
    blocks[(⟨0⟩ : Label)]? =
      some ⟨if compute.frames then loadsEffects.toArray else #[], 2, 2⟩ := by
  have hr : (default : AccessFlags .ofMethod).hasReceiver = true := by decide
  simp [loadsElement, loadsBody, ClassBuilder.feedMethod, feed, bind, EStateM.bind,
    Step.modify_run, takesArray,
    beginCode, newLabel, onGraph, Step.on, LabelGraph.place, Step.get_run, pure, EStateM.pure,
    ofSetting, constructorOfC, LabelGraph.addLabel, LabelGraph.data?,
    LabelGraph.lastBlockAt?, LabelGraph.update, LabelGraph.nextLabel, LabelGraph.empty,
    plain, startInstruction, record, write, hc,
    Opcode.within, endBlock, Step.of, Bytes.putAll, Bytes.putU8,
    Opcode.leavesMethod, Opcode.return_void, Opcode.athrow,
    MethodDescriptor.parameterSlots, Opcode.ireturn, hr,
    Opcode.iconst_0, Opcode.aaload, access, accessBytes, shortAccess, Opcode.aload, Opcode.ret,
    Opcode.isLoad, Opcode.isStore, Opcode.iload, Opcode.istore, Opcode.astore, touchLocal,
    Opcode.isWideAccess, Opcode.lload, Opcode.dload, Opcode.lstore, Opcode.dstore, Opcode.iload_0,
    total, FieldType.width]
  refine ⟨?_, ?_⟩
  · simp [LabelGraph.resolve, loadsGraph]
  · have hload : (Effect.access 25 1).stackDelta = 1 := rfl
    have hpush : (Effect.plain 3).stackDelta = 1 := rfl
    have helement : (Effect.plain 50).stackDelta = -1 := rfl
    have hreturn : (Effect.plain 177).stackDelta = 0 := rfl
    cases hf : compute.frames <;> simp [BlockSummary.add, hload, hpush, helement, hreturn,
      loadsEffects, Opcode.aload, Opcode.iconst_0, Opcode.aaload, Opcode.return_void]

/-- The frame on entry to the method, with a stack. -/
def takesFrame (component : BaseType) (stack : List VType) : Frame :=
  ⟨#[.object (.object ⟨"C"⟩), .object (.primitiveArray 0 component)], SlotVec.ofList stack⟩

/-- The body as the frames are computed. -/
def loadsFlow (blocks : Std.HashMap Label BlockSummary) : FlowSetting where
  graph := loadsGraph false
  blocks
  hierarchy := Hierarchy.flat
  thisClass := ⟨"C"⟩

/-- An element takes up its own width. -/
theorem loadsEffects_simulate (component : BaseType) :
    ∃ g, FlowSetting.simulate ⟨"C"⟩ 0 (takesFrame component []) loadsEffects =
      .ok (g, component.width + 1) := by
  cases component <;> exact ⟨_, rfl⟩

theorem loadsFlow_round (component : BaseType)
    (h : blocks[(⟨0⟩ : Label)]?.map (·.instructions.toList) = some loadsEffects) :
    ∃ r, Inputs.Round (loadsFlow blocks) (Inputs.start ⟨0⟩ (takesFrame component [])) r ∧
      r.waiting = [] ∧ r.maxStack = component.width + 1 ∧
      r.frames[(⟨0⟩ : Label)]? = some (takesFrame component []) := by
  obtain ⟨g, hsimulate⟩ := loadsEffects_simulate component
  refine ⟨_, .of_frame (takesFrame component []) g (component.width + 1) rfl ?_ ?_ (.nil _), rfl,
    rfl, ?_⟩
  · simp [Inputs.start]
  · rw [FlowSetting.instructions_eq h]
    exact hsimulate
  · simp [Inputs.start]

/-- Only the one block is reached, at height 0. -/
theorem loadsGraph_climbs {first : Bool} {block : Label} {height : Int}
    (h : (loadsGraph first).Climbs blocks ⟨0⟩ block height) : block = ⟨0⟩ ∧ height = 0 := by
  induction h with
  | entry => exact ⟨rfl, rfl⟩
  | step _ edge_mem ih =>
    obtain ⟨rfl, -⟩ := ih
    exact absurd edge_mem List.not_mem_nil

theorem loadsGraph_maxStack {s : BlockSummary} (h : blocks[(⟨0⟩ : Label)]? = some s)
    (hpeak : s.peak = 2) : (loadsGraph false).maxStack blocks ⟨0⟩ = 2 := by
  have hentry : (blocks.getD ⟨0⟩ {}).peak = 2 := by
    rw [Std.HashMap.getD_eq_getD_getElem?, h]
    exact hpeak
  obtain ⟨block, height, hc, htop⟩ := (LabelGraph.isGreatest_maxStack
    (fun _ _ _ hc hc' => (loadsGraph_climbs hc).2.trans (loadsGraph_climbs hc').2.symm)
    (by rw [hentry]; decide)).1
  obtain ⟨rfl, rfl⟩ := loadsGraph_climbs hc
  rw [htop, hentry]
  rfl

/-- Marking blocks leaves the control flow as it is. -/
theorem loadsGraph_fold (frames : Std.HashMap Label Frame) : ∃ first,
    frames.fold (fun g block _ => g.markReachable block) (loadsGraph false) = loadsGraph first := by
  rw [LabelGraph.fold_markReachable]
  refine List.foldlRecOn (motive := fun g => ∃ first, g = loadsGraph first) _ _ ⟨false, rfl⟩ ?_
  rintro _ ⟨first, rfl⟩ ⟨_ | n⟩ -
  · exact ⟨true, by
      simp [LabelGraph.markReachable, LabelGraph.setFlags, LabelGraph.update, LabelGraph.blockOf,
        LabelGraph.data?, loadsGraph, BlockFlags.union]⟩
  · exact ⟨first, by
      simp [LabelGraph.markReachable, LabelGraph.setFlags, LabelGraph.update, LabelGraph.blockOf,
        LabelGraph.data?, loadsGraph]⟩

/-- Where the body is analyzed, its control flow is the one that is given. -/
theorem loadsElement_analyses
    (hrun : feedNumbered [] loadsElement (ofSetting (takesArray component) .empty) = .ok () body)
    (ha : body.Analyses entry flow) :
    ∃ blocks, entry = ⟨0⟩ ∧ body.entryFrame = takesFrame component [] ∧ flow = loadsFlow blocks ∧
      blocks[(⟨0⟩ : Label)]?.map (·.instructions.toList) = some loadsEffects := by
  rw [feedNumbered_eq [] loadsElement_relabel] at hrun
  obtain ⟨code, graph, blocks, hrun', -, hgraph, hblock⟩ :=
    loadsElement_run component ⟨false, true⟩ rfl
  cases hrun.symm.trans hrun'
  obtain ⟨hentry, hflow, hblocks, hhierarchy, hclass⟩ := ha
  cases hentry
  change Handlers.completeTyped [] graph.resolve = _ at hflow
  rw [hgraph] at hflow
  refine ⟨blocks, rfl, ?_, ?_, by rw [hblock]; rfl⟩
  · show Frame.entry ⟨"C"⟩ (!(default : AccessFlags .ofMethod).hasReceiver) false
      ⟨[.ref (.primitiveArray 0 component)], none⟩ = _
    cases component <;> decide
  · obtain ⟨_, _, _, _⟩ := flow
    cases hflow
    cases hblocks
    cases hhierarchy
    cases hclass
    rfl

/-- Every simulated block is the one block, from the entry. -/
theorem loadsFlow_simulated
    (h : blocks[(⟨0⟩ : Label)]?.map (·.instructions.toList) = some loadsEffects) {s : Inputs}
    {block : Label} {rest : List Label} {input : Frame}
    (hrounds : Relation.ReflTransGen (Inputs.Round (loadsFlow blocks))
      (Inputs.start ⟨0⟩ (takesFrame component [])) s)
    (hwaiting : s.waiting = block :: rest) (hinput : s.frames[block]? = some input) :
    input = takesFrame component [] ∧ (loadsFlow blocks).instructions block = loadsEffects := by
  obtain ⟨r, hround, hdone, -⟩ := loadsFlow_round component h
  rcases Relation.ReflTransGen.cases_head hrounds with rfl | ⟨t, hfirst, hrounds⟩
  · cases hwaiting
    have hstart : (Inputs.start ⟨0⟩ (takesFrame component [])).frames[(⟨0⟩ : Label)]? =
        some (takesFrame component []) := by
      simp [Inputs.start]
    exact ⟨Option.some.inj (hinput.symm.trans hstart), FlowSetting.instructions_eq h⟩
  · cases hfirst.unique hround
    rcases Relation.ReflTransGen.cases_head hrounds with rfl | ⟨t, hsecond, -⟩
    · cases hdone.symm.trans hwaiting
    · exact absurd hdone hsecond.ne_nil

/-- All instructions of the body find their operands, whatever the array holds. -/
theorem loadsElement_finds
    (hrun : feedNumbered [] loadsElement (ofSetting (takesArray component) .empty) = .ok () body)
    (ha : body.Analyses entry flow) : flow.FindsOperands entry body.entryFrame := by
  obtain ⟨blocks, rfl, hframe, rfl, hblock⟩ := loadsElement_analyses hrun ha
  rw [hframe]
  intro s block rest input hrounds hwaiting hinput
  obtain ⟨rfl, heffects⟩ := loadsFlow_simulated hblock hrounds hwaiting hinput
  rw [heffects]
  show FlowSetting.FindsAll ⟨"C"⟩ (takesFrame component []) loadsEffects
  cases component <;> decide +kernel

/-- No element of the array is wide unless its type is. -/
theorem loadsElement_narrow (hc : component.width = 1)
    (hrun : feedNumbered [] loadsElement (ofSetting (takesArray component) .empty) = .ok () body)
    (ha : body.Analyses entry flow) : flow.LoadsNarrow entry body.entryFrame := by
  obtain ⟨blocks, rfl, hframe, rfl, hblock⟩ := loadsElement_analyses hrun ha
  rw [hframe]
  intro s block rest input hrounds hwaiting hinput
  obtain ⟨rfl, heffects⟩ := loadsFlow_simulated hblock hrounds hwaiting hinput
  rw [heffects]
  refine ⟨fun h => ?_, fun h => ?_, ?_, fun h => ?_, fun h => ?_, trivial⟩
  · cases h.1
  · cases h.1
  · rintro ⟨-, front, index, type, element, hstack, htype, hwide⟩
    have hfound : (((takesFrame component []).execute ⟨"C"⟩ (.access Opcode.aload 1)).2.execute
        ⟨"C"⟩ (.plain Opcode.iconst_0)).2.stack.toList =
          [.object (.primitiveArray 0 component), .int] := by
      rfl
    have htop := (List.append_inj' (hstack.symm.trans hfound : _ = [] ++ _) rfl).2
    cases htop
    cases htype
    exact absurd (hc.symm.trans hwide) (by decide)
  · cases h.1
  · cases h.1

/-- All of the body is reached. -/
theorem loadsElement_reached
    (hrun : feedNumbered [] loadsElement (ofSetting (takesArray component) .empty) = .ok () body)
    (ha : body.Analyses entry flow) : ¬ HasDead body.code.size flow entry := by
  obtain ⟨blocks, rfl, -, rfl, -⟩ := loadsElement_analyses hrun ha
  rintro ⟨place, block, start, stop, hspan, hdead, -⟩
  obtain rfl : block = ⟨0⟩ := List.mem_singleton.1 hspan.mem
  exact hdead .entry

/-- Where frames are computed, the stack is one slot higher than an element takes up. -/
theorem loadsElement_framed (component : BaseType) : ∃ final name maxLocals code table attributes,
    feedNumbered [] (loadsElement ++ [.maxs 0 0]) (ofSetting (takesArray component) .empty) =
        .ok () final ∧
      final.body = some (name,
        .code (UInt16.ofNat (component.width + 1)) maxLocals code table attributes) := by
  obtain ⟨code, graph, blocks, hrun, hcode, hgraph, hblock⟩ :=
    loadsElement_run component ⟨false, true⟩ rfl
  have heffects : blocks[(⟨0⟩ : Label)]?.map (·.instructions.toList) = some loadsEffects := by
    rw [hblock]
    rfl
  obtain ⟨r, hround, hdone, hmax, hf⟩ := loadsFlow_round component heffects
  have hr : (loadsFlow blocks).inputs ⟨0⟩ (takesFrame component []) = .ok r :=
    (hround.settle _).trans (Inputs.settle_of_waiting hdone _)
  obtain ⟨first, hfold⟩ := loadsGraph_fold r.frames
  obtain ⟨i1, p1, hi1, r1⟩ := ConstantPool.intern_of_room (.utf8 "Code")
    (show ConstantPool.empty.nextIndex.toNat ≤ 1 by decide) (by omega)
  have hname : Text.ModifiedUtf8.encodedSize "Code" < 65536 := by decide
  rw [feedNumbered_eq [] (by simp [loadsElement, MethodEvent.relabel])]
  suffices h : ∃ final name maxLocals code' table attributes,
      finishBody 0 0 (loadsBody component ⟨false, true⟩ code graph blocks) = .ok () final ∧
      final.body = some (name,
        .code (UInt16.ofNat (component.width + 1)) maxLocals code' table attributes) by
    obtain ⟨final, name, maxLocals, code', table, attributes, h, hbody⟩ := h
    exact ⟨final, name, maxLocals, code', table, attributes,
      ClassBuilder.feedMethod_append.2 ⟨_, hrun, Step.bind_ok.2 ⟨_, _, h, rfl⟩⟩, hbody⟩
  have h0 (a) : (loadsGraph a).offset ⟨0⟩ = .ok 0 := rfl
  have hblocks (a) : (loadsGraph a).blocks = [⟨0⟩] := rfl
  have hflags (a) : (loadsGraph a).flags ⟨0⟩ = ⟨false, a⟩ := rfl
  have hlimit : ¬ 65535 ≤ component.width := by
    cases component <;> decide
  have hframe : Frame.entry ⟨"C"⟩ false false ⟨[.ref (.primitiveArray 0 component)], none⟩ =
      takesFrame component [] := by
    cases component <;> decide
  have hreceiver : (default : AccessFlags .ofMethod).hasReceiver = true := by decide
  simp only [loadsFlow] at hr
  simp [finishBody, limits, computeFrames, loadsBody, ofSetting, takesArray, constructorOfC, bind,
    EStateM.bind, Step.modify_run, onGraph, Step.on, Step.get_run, pure, EStateM.pure, Step.of,
    patch, hgraph, Handlers.completeTyped,
    hr, entryFrame, hframe, hfold, placeFrames, h0, hblocks, hlimit,
    hflags, hf, hmax, hcode, stackMapTable,
    ask, ConstantPool.utf8, hname, hi1,
    Attribute.make, AttributeBody.name, count16, exceptionTable, Handlers.byteSize,
    Handlers.nonempty, Handlers.put, Handlers.putEntries,
    LabelGraph.lineNumberTable, LabelGraph.localVariableTable, Attribute.makeRaw, Except.bind,
    Except.pure, List.filterM, List.filterAuxM, Step.set_run, hreceiver,
    MethodDescriptor.parameterSlots, total, FieldType.width]

/-- Where only the maximums are computed, it is two slots high. -/
theorem loadsElement_walked (component : BaseType) : ∃ final name maxLocals code table attributes,
    feedNumbered [] (loadsElement ++ [.maxs 0 0])
        (ofSetting { takesArray component with compute := ⟨true, false⟩ } .empty) =
          .ok () final ∧
      final.body = some (name, .code 2 maxLocals code table attributes) := by
  obtain ⟨code, graph, blocks, hrun, hcode, hgraph, hblock⟩ :=
    loadsElement_run component ⟨true, false⟩ rfl
  have hmax := loadsGraph_maxStack hblock rfl
  obtain ⟨i1, p1, hi1, r1⟩ := ConstantPool.intern_of_room (.utf8 "Code")
    (show ConstantPool.empty.nextIndex.toNat ≤ 1 by decide) (by omega)
  have hname : Text.ModifiedUtf8.encodedSize "Code" < 65536 := by decide
  rw [feedNumbered_eq [] (by simp [loadsElement, MethodEvent.relabel])]
  suffices h : ∃ final name maxLocals code' table attributes,
      finishBody 0 0 (loadsBody component ⟨true, false⟩ code graph blocks) = .ok () final ∧
      final.body = some (name, .code 2 maxLocals code' table attributes) by
    obtain ⟨final, name, maxLocals, code', table, attributes, h, hbody⟩ := h
    exact ⟨final, name, maxLocals, code', table, attributes,
      ClassBuilder.feedMethod_append.2 ⟨_, hrun, Step.bind_ok.2 ⟨_, _, h, rfl⟩⟩, hbody⟩
  have hreceiver : (default : AccessFlags .ofMethod).hasReceiver = true := by decide
  simp [finishBody, limits, loadsBody, ofSetting, takesArray, constructorOfC, bind,
    EStateM.bind, Step.modify_run, onGraph, Step.on, Step.get_run, pure, EStateM.pure, Step.of,
    patch, hgraph, Handlers.complete, givenStackMap, Compute.computesMaxs,
    hmax, hcode, stackMapTable,
    ask, ConstantPool.utf8, hname, hi1,
    Attribute.make, AttributeBody.name, count16, exceptionTable, Handlers.byteSize,
    Handlers.nonempty, Handlers.put, Handlers.putEntries,
    LabelGraph.lineNumberTable, LabelGraph.localVariableTable, Attribute.makeRaw, Except.bind,
    Except.pure, List.filterM, List.filterAuxM, Step.set_run, hreceiver,
    MethodDescriptor.parameterSlots, total, FieldType.width]

theorem maxStack_agrees_ints :
    (takesArray .int).compute.frames = true ∧ inOrder 0 (loadsElement ++ [.maxs 0 0]) = true ∧
    numbered 0 loadsElement = true ∧
    (∀ body entry flow,
      feedNumbered [] loadsElement (ofSetting (takesArray .int) .empty) = .ok () body →
      body.Analyses entry flow → flow.FindsOperands entry body.entryFrame ∧
        flow.LoadsNarrow entry body.entryFrame) ∧
    ∃ framed walked,
      feedNumbered [] (loadsElement ++ [.maxs 0 0]) (ofSetting (takesArray .int) .empty) =
        .ok () framed ∧
      feedNumbered [] (loadsElement ++ [.maxs 0 0])
        (ofSetting { takesArray .int with compute := ⟨true, false⟩ } .empty) = .ok () walked ∧
      ∃ body entry flow name most maxLocals code table attributes name' most' maxLocals' code' table'
          attributes',
        feedNumbered [] loadsElement (ofSetting (takesArray .int) .empty) = .ok () body ∧
        body.Analyses entry flow ∧
        framed.body = some (name, .code most maxLocals code table attributes) ∧
        walked.body = some (name', .code most' maxLocals' code' table' attributes') ∧
        (HasDead body.code.size flow entry → most.toNat = max most'.toNat 1) ∧
        (¬ HasDead body.code.size flow entry → most.toNat = most'.toNat) := by
  have horder : inOrder 0 (loadsElement ++ [.maxs 0 0]) = true := by decide
  have hnumbered : numbered 0 loadsElement = true := by decide
  have hfinds : ∀ body entry flow,
      feedNumbered [] loadsElement (ofSetting (takesArray .int) .empty) = .ok () body →
      body.Analyses entry flow → flow.FindsOperands entry body.entryFrame ∧
        flow.LoadsNarrow entry body.entryFrame :=
    fun _ _ _ hrun ha => ⟨loadsElement_finds hrun ha, loadsElement_narrow rfl hrun ha⟩
  obtain ⟨framed, _, _, _, _, _, hframed, -⟩ := loadsElement_framed .int
  obtain ⟨walked, _, _, _, _, _, hwalked, -⟩ := loadsElement_walked .int
  exact ⟨rfl, horder, hnumbered, hfinds, framed, walked, hframed, hwalked,
    maxStack_agrees rfl horder hnumbered hfinds hframed hwalked⟩

/-- An element of two slots that is loaded as a reference makes the difference: all instructions find
their operands and all code is reached, but the simulated stack is higher. -/
theorem maxStack_differs_longs :
    inOrder 0 (loadsElement ++ [.maxs 0 0]) = true ∧ numbered 0 loadsElement = true ∧
    ∃ body entry flow framed walked name maxLocals code table attributes name' maxLocals' code' table'
        attributes',
      feedNumbered [] loadsElement (ofSetting (takesArray .long) .empty) = .ok () body ∧
      body.Analyses entry flow ∧ flow.FindsOperands entry body.entryFrame ∧
      ¬ HasDead body.code.size flow entry ∧
      feedNumbered [] (loadsElement ++ [.maxs 0 0]) (ofSetting (takesArray .long) .empty) =
        .ok () framed ∧
      framed.body = some (name, .code 3 maxLocals code table attributes) ∧
      feedNumbered [] (loadsElement ++ [.maxs 0 0])
        (ofSetting { takesArray .long with compute := ⟨true, false⟩ } .empty) = .ok () walked ∧
      walked.body = some (name', .code 2 maxLocals' code' table' attributes') := by
  obtain ⟨code, graph, blocks, hrun, -, hgraph, -⟩ :=
    loadsElement_run .long ⟨false, true⟩ rfl
  rw [← feedNumbered_eq [] loadsElement_relabel] at hrun
  have ha : (loadsBody .long ⟨false, true⟩ code graph blocks).Analyses ⟨0⟩ (loadsFlow blocks) := by
    refine ⟨rfl, ?_, rfl, rfl, rfl⟩
    show Handlers.completeTyped [] graph.resolve = _
    rw [hgraph]
    rfl
  obtain ⟨framed, _, _, _, _, _, hframed, hthree⟩ := loadsElement_framed .long
  obtain ⟨walked, _, _, _, _, _, hwalked, htwo⟩ := loadsElement_walked .long
  exact ⟨by decide, by decide, _, _, _, framed, walked, _, _, _, _, _, _, _, _, _, _, hrun, ha,
    loadsElement_finds hrun ha, loadsElement_reached hrun ha, hframed, hthree, hwalked, htwo⟩

end LoadsElement

end MethodBuilder

end JvmClass
