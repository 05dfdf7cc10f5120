import JvmClass.Proofs.Reencoding.Laying
import JvmClass.Proofs.Reencoding.Written

/-!
# The course of a body

The events of a body open it with its labels and handlers, write its rows, end it with the label of
its end, and close it with its variables and attributes (`ClassImage.Course`). A second body that
has the same settings goes the same way.
-/

namespace JvmClass

open ClassBuilder (feedMethod feedMethod_append)

/-- The handler for a range. -/
def HandlerRange.toHandler (h : HandlerRange) : ExceptionHandler :=
  ⟨h.start, h.stop, h.handler, h.catchType⟩

namespace MethodBuilder

variable {b b' c : MethodBuilder} {u : Unit}

/-- A method without a body. -/
def Blank (b : MethodBuilder) : Prop :=
  b = { ofSetting b.setting b.pool with annotations := b.annotations, attributes := b.attributes }

theorem Blank.withPool (h : b.Blank) (pool : ConstantPool) : Blank { b with pool } := by
  unfold Blank at h ⊢
  rw [h]
  rfl

/-- What a method without a body does not have. -/
structure Bare (b : MethodBuilder) : Prop where
  code : b.code = #[]
  graph : b.graph = LabelGraph.empty
  handlers : b.handlers = #[]
  lines : b.lines = #[]
  vars : b.vars = #[]
  codeAttributes : b.codeAttributes = #[]
  frames : b.givenFrames = #[]
  fixups : b.fixups = #[]
  body : b.body = none
  finished : b.finished = #[]

theorem Blank.bare (h : b.Blank) : b.Bare := by
  unfold Blank at h
  rw [h]
  exact ⟨rfl, rfl, rfl, rfl, rfl, rfl, rfl, rfl, rfl, rfl⟩

theorem data_beginCode (h : beginCode b = .ok u b') : b'.data = b.data := by
  simp only [beginCode, newLabel, Step.bind_ok, Step.get_ok, Step.modify_ok, Step.pure_ok, onGraph,
    Step.on_ok] at h
  obtain ⟨_, _, ⟨_, _, ⟨rfl, rfl⟩, _, _, rfl, rfl, rfl⟩, starts, _, ⟨g, -, rfl⟩, rfl⟩ := h
  rfl

/-- A body can begin, with a block for its first instruction. -/
theorem beginCode_succeeds (hg : c.graph.Grouped) (hchain : c.graph.chain = #[]) :
    ∃ c', beginCode c = .ok () c' ∧ c'.Steady := by
  obtain ⟨starts, g, hplace⟩ := LabelGraph.place_succeeds
    (LabelGraph.place?_addLabel_nextLabel c.graph) rfl 0
  have hplacing := LabelGraph.placing hplace
  have hadded := hg.addLabel
  cases starts with
  | false =>
    obtain ⟨-, leader, hback, -⟩ := hadded.joins hplacing
    rw [show c.graph.addLabel.chain = #[] from hchain] at hback
    cases hback
  | true =>
    obtain ⟨hgrouped, hchain', -⟩ := hadded.starts hplacing
    refine ⟨{ c with
      graph := g, entry := some c.graph.nextLabel, current := some c.graph.nextLabel }, ?_,
      hgrouped, ?_, rfl⟩
    · simp only [beginCode, newLabel, Step.bind_ok, Step.get_ok, Step.modify_ok, Step.pure_ok,
        onGraph, Step.on_ok]
      exact ⟨_, _, ⟨_, _, ⟨rfl, rfl⟩, (), _, rfl, rfl, rfl⟩, true, _, ⟨g, hplace, rfl⟩, rfl⟩
    · rintro block ⟨⟩
      show _ ∈ g.chain.toList
      rw [hchain']
      simp

/-- Handlers are taken up. -/
theorem feed_handlers (handlers : List HandlerRange) (b : MethodBuilder) :
    feedMethod (handlers.map fun h => .handler h.start h.stop h.handler h.catchType) b =
      .ok () { b with
        handlers := b.handlers ++ (handlers.map HandlerRange.toHandler).toArray } := by
  induction handlers generalizing b with
  | nil => simp [feedMethod, pure, EStateM.pure]
  | cons handler rest ih =>
    refine Step.bind_ok.2 ⟨(), _, rfl, (ih _).trans ?_⟩
    simp [HandlerRange.toHandler]

/-- Variables are taken up, with room for them. -/
theorem feed_variables (vars : List (VariableRange Label)) (b : MethodBuilder) : ∃ maxLocals,
    feedMethod (vars.map fun v => .localVariable v.name v.descriptor v.start v.stop v.slot) b =
      .ok () { b with vars := b.vars ++ vars.toArray, maxLocals } := by
  induction vars generalizing b with
  | nil => exact ⟨b.maxLocals, by simp [feedMethod, pure, EStateM.pure]⟩
  | cons v rest ih =>
    obtain ⟨maxLocals, hrest⟩ := ih { b with
      vars := b.vars.push v
      maxLocals := max b.maxLocals (v.slot.toNat + if isWideDescriptor v.descriptor then 2 else 1) }
    refine ⟨maxLocals, Step.bind_ok.2 ⟨(), _, rfl, hrest.trans ?_⟩⟩
    simp

/-- Attributes of the body are taken up if the pool is copied. -/
theorem feed_codeAttributes {attributes : List RawAttribute} :
    feedMethod (attributes.map .codeAttribute) b = .ok u b' ↔
      (∀ a ∈ attributes, a.check b.setting.copiedPool = .ok ()) ∧
        b' = { b with codeAttributes := b.codeAttributes ++ attributes.toArray } := by
  induction attributes generalizing b with
  | nil => simp [feedMethod, Step.pure_ok, eq_comm]
  | cons a rest ih =>
    rw [List.map_cons, feedMethod, Step.bind_ok]
    simp only [feed, Step.bind_ok, Step.get_ok, Step.of_ok, Step.modify_ok, List.forall_mem_cons]
    constructor
    · rintro ⟨_, _, ⟨_, _, ⟨rfl, rfl⟩, _, _, ⟨hcheck, rfl⟩, rfl⟩, hrest⟩
      obtain ⟨hothers, rfl⟩ := ih.1 hrest
      exact ⟨⟨hcheck, hothers⟩, by simp⟩
    · rintro ⟨⟨hcheck, hothers⟩, rfl⟩
      refine ⟨(), _, ⟨_, _, ⟨rfl, rfl⟩, (), _, ⟨hcheck, rfl⟩, rfl⟩, ih.2 ⟨hothers, ?_⟩⟩
      simp

/-- The label at the end of the code, if there is one, changes only the blocks. -/
theorem data_endLabel {label : Option Label}
    (h : feedMethod (label.toList.map .label) b = .ok u b') : b'.data = b.data := by
  cases label with
  | none =>
    obtain ⟨-, rfl⟩ := Step.pure_ok.1 h
    rfl
  | some label =>
    obtain ⟨_, mid, hplace, hend⟩ := Step.bind_ok.1 h
    obtain ⟨-, rfl⟩ := Step.pure_ok.1 hend
    exact data_placeLabel hplace

end MethodBuilder

namespace ClassImage

open MethodBuilder

variable {image : ClassImage} {named : NamedBody} {b b' : MethodBuilder} {u : Unit}

/-- A body is opened, written, ended and closed. -/
structure Course (image : ClassImage) (named : NamedBody) (b : MethodBuilder) (rows : List Row)
    (opened written ended closed : MethodBuilder) : Prop where
  opens : opened.data = { b.data with
    handlers := b.handlers ++ (named.handlers.map HandlerRange.toHandler).toArray }
  ahead : Appends [] b opened
  wrote : Wrote image named opened named.instructions rows written
  ends : feedMethod ((named.places.get? named.size).toList.map .label) written = .ok () ended
  closes : closed.data = { ended.data with
    vars := ended.vars ++ named.vars.toArray
    codeAttributes := ended.codeAttributes ++ named.attributes.toArray }
  graph : closed.graph = ended.graph
  accepts : ∀ a ∈ named.attributes, a.check b.setting.copiedPool = .ok ()

theorem appends_eventsAhead (h : feedMethod (eventsAhead named) b = .ok u b') : Appends [] b b' :=
    by
  refine appends_quiet (fun event hevent => ?_) (fun event hevent n hn => ?_) h <;>
    rcases mem_eventsAhead hevent with rfl | rfl | ⟨range, -, rfl⟩
  · rfl
  · rfl
  · rfl
  all_goals cases hn <;> decide

theorem course_of_run {told : List (Nat × MethodEvent)}
    (hplainly : b.setting.compute = ⟨false, false⟩)
    (htold : Tellings image named named.instructions told)
    (hrun : feedMethod (eventsAhead named ++ (told.map Prod.snd ++ eventsBehind named)) b =
      .ok u b') : ∃ rows opened written ended closed,
      Course image named b rows opened written ended closed ∧
      finishBody named.maxStack named.maxLocals closed = .ok () b' := by
  obtain ⟨opened, hopen, hrest⟩ := feedMethod_append.1 hrun
  have hahead := appends_eventsAhead hopen
  obtain ⟨written, hwrite, hrest⟩ := feedMethod_append.1 hrest
  obtain ⟨ended, hend, hrest⟩ := feedMethod_append.1 hrest
  obtain ⟨varied, hvars, hrest⟩ := feedMethod_append.1 hrest
  obtain ⟨closed, hattributes, hmaxs⟩ := feedMethod_append.1 hrest
  obtain ⟨_, labelled, hlabels, hopen⟩ := Step.bind_ok.1 hopen
  obtain rfl := Step.modify_ok.1 hlabels
  obtain ⟨_, begun, hbegin, hhandlers⟩ := Step.bind_ok.1 hopen
  have hbegun := data_beginCode hbegin
  rw [feed_handlers] at hhandlers
  cases hhandlers
  obtain ⟨rows, hwrote⟩ := wrote_of_run htold hwrite
  obtain ⟨maxLocals, hfed⟩ := feed_variables named.vars ended
  rw [hfed] at hvars
  cases hvars
  obtain ⟨haccepts, hclosed⟩ := feed_codeAttributes.1 hattributes
  obtain ⟨_, _, hfinish, hdone⟩ := Step.bind_ok.1 hmaxs
  obtain ⟨-, rfl⟩ := Step.pure_ok.1 hdone
  have hopens : MethodBuilder.data { begun with
      handlers := begun.handlers ++ (named.handlers.map HandlerRange.toHandler).toArray } =
      { b.data with
        handlers := b.handlers ++ (named.handlers.map HandlerRange.toHandler).toArray } := by
    rw [eq_of_data hbegun]
    rfl
  have hbegin : begun.setting = b.setting := setting_of_data hbegun
  have hsetting : ended.setting = begun.setting := by
    have hwritten := congrArg MethodBuilder.setting
      (hwrote.laid (by rw [← hplainly, ← hbegin])).outer
    exact (setting_of_data (data_endLabel hend)).trans hwritten
  refine ⟨rows, _, written, ended, closed, ⟨hopens, hahead, hwrote, hend, ?_, ?_, ?_⟩,
    hfinish⟩
  · rw [hclosed]
    rfl
  · rw [hclosed]
  · rw [← hbegin, ← hsetting]
    exact haccepts

section Facts

variable {rows : List Row} {opened written ended closed : MethodBuilder}

theorem appends_endLabel {label : Option Label}
    (h : feedMethod (label.toList.map .label) b = .ok u b') : Appends [] b b' := by
  refine appends_quiet (fun event hevent => ?_) (fun event hevent n hn => ?_) h <;>
    obtain ⟨l, -, rfl⟩ := List.mem_map.1 hevent
  · rfl
  · cases hn
    decide

/-- What a body that has been closed has. -/
structure Closes (named : NamedBody) (rows : List Row) (b written closed : MethodBuilder) :
    Prop where
  setting : closed.setting = b.setting
  handlers : closed.handlers.toList = named.handlers.map HandlerRange.toHandler
  lines : closed.lines.toList = rows.flatMap (Row.lines named)
  frames : closed.givenFrames.toList = rows.flatMap (Row.frames named)
  vars : closed.vars.toList = named.vars
  codeAttributes : closed.codeAttributes.toList = named.attributes
  code : closed.code = written.code
  fixups : closed.fixups = written.fixups
  pool : closed.pool = written.pool

theorem Course.closed_ok (h : Course image named b rows opened written ended closed)
    (hblank : b.Blank) (hplainly : b.setting.compute = ⟨false, false⟩) :
    Closes named rows b written closed := by
  have hlaid := (h.wrote.laid (by rw [← hplainly, h.ahead.setting])).outer
  have hended := data_endLabel h.ends
  have hopens := h.opens
  have hcloses := h.closes
  have hbare := hblank.bare
  simp only [MethodBuilder.data, MethodBuilder.mk.injEq] at hcloses
  simp only [MethodBuilder.data, MethodBuilder.outer, MethodBuilder.mk.injEq] at hlaid hended hopens
  constructor <;>
    simp only [hcloses, hended, hlaid, hopens, hbare.handlers, hbare.lines, hbare.vars,
      hbare.codeAttributes, hbare.frames, Array.empty_append]

theorem position?_endLabel {label : Option Label}
    (h : feedMethod (label.toList.map .label) b = .ok u b') :
    (∀ l p, b.graph.position? l = some p → b'.graph.position? l = some p) ∧
      ∀ l ∈ label, b'.graph.position? l = some b.code.size := by
  cases label with
  | none =>
    obtain ⟨-, rfl⟩ := Step.pure_ok.1 h
    exact ⟨fun _ _ hp => hp, nofun⟩
  | some label =>
    obtain ⟨_, mid, hplace, hend⟩ := Step.bind_ok.1 h
    obtain ⟨-, rfl⟩ := Step.pure_ok.1 hend
    refine ⟨fun l p hp => position?_label hplace hp, ?_⟩
    rintro l ⟨⟩
    rw [position?_placeLabel hplace, if_pos rfl]

/-- The labels of the rows, and the one at the end, are placed. -/
structure Course.Placed (named : NamedBody) (rows : List Row) (closed : MethodBuilder) : Prop where
  rows : ∀ row ∈ rows, ∀ label, named.places.get? row.place = some label →
    closed.graph.position? label = some row.offset
  stop : ∀ label, named.places.get? named.size = some label →
    closed.graph.position? label = some closed.code.size

theorem Course.placed (h : Course image named b rows opened written ended closed) (hblank : b.Blank)
    (hplainly : b.setting.compute = ⟨false, false⟩) : Course.Placed named rows closed := by
  have hlaid := h.wrote.laid (by rw [← hplainly, h.ahead.setting])
  obtain ⟨hstays, hends⟩ := position?_endLabel h.ends
  refine ⟨fun row hrow label hl => ?_, fun label hl => ?_⟩
  · rw [h.graph]
    exact hstays _ _ (hlaid.placed row hrow label hl)
  · rw [h.graph, (h.closed_ok hblank hplainly).code]
    exact hends label hl

/-- Every label that is told is placed at a row or at the end of the code. -/
theorem Course.sited {body : StoredBody} {tables : BodyTables}
    (h : Course image named b rows opened written ended closed) (hblank : b.Blank)
    (hplainly : b.setting.compute = ⟨false, false⟩) (hnamed : Named named body tables) {o : Nat}
    {label : Label} (hl : named.places.get? o = some label) : ∃ p,
      closed.graph.position? label = some p ∧ (p ∈ rows.map Row.offset ∨ p = closed.code.size) := by
  have hplaced := h.placed hblank hplainly
  rcases hnamed.sound.admitted o label hl with ⟨i, hi⟩ | ho
  · have hstarts : o ∈ rows.map Row.place := by
      rw [h.wrote.places]
      obtain ⟨y, hy, ho, -⟩ := exists_of_forall₂ hnamed.instructions.flip
        (Array.mem_toList_iff.2 hi)
      exact List.mem_map.2 ⟨y, hy, ho⟩
    obtain ⟨row, hrow, rfl⟩ := List.mem_map.1 hstarts
    exact ⟨row.offset, hplaced.rows row hrow label hl, .inl (List.mem_map_of_mem hrow)⟩
  · rw [ho, ← hnamed.size] at hl
    exact ⟨closed.code.size, hplaced.stop label hl, .inr rfl⟩

/-- The code of a body that has been closed holds its rows. -/
theorem Course.coded {code : Bytes} {pool : ConstantPool}
    (h : Course image named b rows opened written ended closed) (hblank : b.Blank)
    (hplainly : b.setting.compute = ⟨false, false⟩) (hsize : closed.code.size < 65536)
    (hproper : ∀ x ∈ named.instructions, x.2.IsProper)
    (hpatch : patch closed.fixups.toList { closed with graph := closed.graph.resolve } =
      .ok () { closed with graph := closed.graph.resolve, code })
    (hpool : closed.pool.Grows pool) : ∃ is, Instruction.decode code = .ok is ∧
      code.size = closed.code.size ∧
      List.Forall₂ (fun row i => i.1 = row.offset ∧
        row.ReadsAs closed.graph.resolve pool i.2) rows is.toList := by
  have hcloses := h.closed_ok hblank hplainly
  obtain ⟨pieces, happends, hcoded⟩ := h.wrote.coded hproper
  have hall := h.ahead.trans happends
  have hcode : closed.code.toList = pieces.flatMap Piece.blank := by
    rw [hcloses.code, hall.code, Bytes.toList_putAll, hblank.bare.code]
    rfl
  have hfixups : closed.fixups.toList = Piece.fixups 0 pieces := by
    rw [hcloses.fixups, hall.fixups, hblank.bare.fixups, hblank.bare.code]
    rfl
  have hfilled := filled_of_patch hcode hfixups hpatch
  have hlength : code.toList.length = closed.code.size := by
    rw [hfilled.length_eq, ← hcode, Array.length_toList]
  have hopened : opened.code.size = 0 := by
    rw [h.ahead.code, hblank.bare.code]
    rfl
  have hbound : ∀ label place, closed.graph.resolve.offset label = .ok place → place < 65536 := by
    intro label place hplace
    rw [LabelGraph.offset_resolve, h.graph] at hplace
    split at hplace
    · rename_i p hp
      cases hplace
      have hbounded := (hall.andThen (appends_endLabel h.ends)).bounded
        (fun l q hq => by rw [hblank.bare.graph] at hq; cases hq) label place hp
      have hclosed := congrArg MethodBuilder.code h.closes
      have hcode : closed.code = ended.code := hclosed
      exact Nat.lt_of_le_of_lt hbounded (hcode ▸ hsize)
    · cases hplace
  obtain ⟨is, hcode, hrows⟩ := hcoded _ _ pool hfilled
    (by rw [hopened, hlength, Nat.zero_add]; exact hsize) hbound (hcloses.pool ▸ hpool)
  rw [hopened] at hcode
  exact ⟨is.toArray, hcode.decode rfl, by rw [← hlength, Array.length_toList], hrows⟩

end Facts

end ClassImage

end JvmClass
