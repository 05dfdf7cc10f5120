import JvmClass.Proofs.Assembly.HandlerFrames
import JvmClass.Proofs.Image.Filtering
import JvmClass.Proofs.Reencoding.Retelling

/-!
# Rows of a body

Each instruction of a body is told after its label, its lines and its frame; together they are a
row. What a body under construction makes of the rows is given by a list of them with the offset at
which each one was written (`ClassImage.Wrote`), and a body that is told rows that correspond to
those makes the same of them (`ClassImage.Wrote.follows`).
-/

namespace JvmClass

open ClassBuilder (feedMethod feedMethod_append)

namespace MethodBuilder

variable {g : LabelGraph} {places : Places} {final : ConstantPool} {b b' c c' : MethodBuilder}
  {u : Unit}

/-- A body with more lines. -/
def withLines (b : MethodBuilder) (label : Label) (lines : List UInt16) : MethodBuilder :=
  { b with lines := b.lines ++ (lines.map fun line => (line, label)).toArray }

theorem feed_lines (label : Label) (lines : List UInt16) (b : MethodBuilder) :
    feedMethod (lines.map (.lineNumber · label)) b = .ok () (b.withLines label lines) := by
  induction lines generalizing b with
  | nil => simp [withLines, feedMethod, pure, EStateM.pure]
  | cons line rest ih =>
    refine Step.bind_ok.2 ⟨(), _, rfl, (ih _).trans ?_⟩
    simp [withLines]

/-- A body with a frame at the end of its code. -/
def withFrame (b : MethodBuilder) (layout : Layout LabelledType) : MethodBuilder :=
  { b with givenFrames := b.givenFrames.push (b.code.size, layout) }

/-- The last frame is not past the code. -/
def FrameFits (b : MethodBuilder) : Prop :=
  (b.givenFrames.back?.any fun x => decide (b.code.size ≤ x.1)) = false

theorem frame_ok (hframes : b.setting.compute.frames = false) {layout : Layout LabelledType} :
    frame layout b = .ok u b' ↔
      b.entry.isSome = true ∧ b.FrameFits ∧ b' = b.withFrame layout := by
  simp only [frame, Step.bind_ok, Step.get_ok]
  constructor
  · rintro ⟨_, _, ⟨rfl, rfl⟩, h⟩
    rw [Step.guard_ok] at h
    obtain ⟨hbegun, h⟩ := h
    simp only [hframes, Bool.not_false, if_true] at h
    rw [Step.guard_ok, Step.modify_ok] at h
    exact ⟨by simpa [Option.isSome_iff_ne_none] using hbegun, by simpa [FrameFits] using h.1, h.2⟩
  · rintro ⟨hbegun, hlater, rfl⟩
    refine ⟨b, b, ⟨rfl, rfl⟩, ?_⟩
    rw [Step.guard_ok]
    refine ⟨by simpa [Option.isSome_iff_ne_none] using hbegun, ?_⟩
    simp only [hframes, Bool.not_false, if_true]
    rw [Step.guard_ok, Step.modify_ok]
    exact ⟨by simpa [FrameFits] using hlater, rfl⟩

/-- Frames that are the same but for labels. -/
def LayoutSame (g : LabelGraph) (places : Places) (x y : Layout LabelledType) : Prop :=
  List.Forall₂ (TypeSame g places) x.locals y.locals ∧
    List.Forall₂ (TypeSame g places) x.stack y.stack

namespace Following

theorem lines (h : b.Following g places final c) {l l' : Label} (hl : Same g places l l')
    (lines : List UInt16) :
    (b.withLines l lines).Following g places final (c.withLines l' lines) := by
  refine ⟨⟨h.alike.rest, h.alike.fixups, h.alike.handlers, ?_, h.alike.vars, h.alike.frames⟩,
    h.pool, ⟨h.steady.grouped, h.steady.current, h.steady.begun⟩, h.plainly, h.named⟩
  simp only [withLines, Array.toList_append]
  refine List.rel_append h.alike.lines ?_
  rw [List.forall₂_map_left_iff, List.forall₂_map_right_iff]
  exact List.forall₂_same.2 fun line _ => ⟨rfl, hl⟩

theorem last_frame {xs ys : List (Nat × Layout LabelledType)}
    (h : List.Forall₂ (FrameSame g places) xs ys) :
    ys.getLast?.map Prod.fst = xs.getLast?.map Prod.fst := by
  induction h with
  | nil => rfl
  | cons hfirst hrest ih =>
    cases hrest with
    | nil => simp [hfirst.offset]
    | cons => simpa using ih

theorem frame (h : b.Following g places final c) {layout layout' : Layout LabelledType}
    (hsame : LayoutSame g places layout layout')
    (hrun : MethodBuilder.frame layout b = .ok u b') :
    b' = b.withFrame layout ∧ MethodBuilder.frame layout' c = .ok () (c.withFrame layout') ∧
      b'.Following g places final (c.withFrame layout') := by
  have hframes : b.setting.compute.frames = false := by rw [h.plainly]
  obtain ⟨-, hfits, rfl⟩ := (frame_ok hframes).1 hrun
  refine ⟨rfl, (frame_ok (by rw [h.alike.setting, hframes])).2 ⟨h.steady.begun, ?_, rfl⟩,
    ⟨h.alike.rest, h.alike.fixups, h.alike.handlers, h.alike.lines, h.alike.vars, ?_⟩,
    h.pool, ⟨h.steady.grouped, h.steady.current, h.steady.begun⟩, h.plainly, h.named⟩
  · have hlast := last_frame h.alike.frames
    unfold FrameFits at hfits ⊢
    rw [Array.getLast?_toList, Array.getLast?_toList] at hlast
    rw [h.alike.code]
    cases hb : b.givenFrames.back? with
    | none =>
      rw [hb, Option.map_none, Option.map_eq_none_iff] at hlast
      rw [hlast]
      rfl
    | some x =>
      rw [hb, Option.map_some, Option.map_eq_some_iff] at hlast
      obtain ⟨y, hy, he⟩ := hlast
      rw [hb] at hfits
      rw [hy, Option.any_some, he]
      exact hfits
  · simp only [withFrame, Array.toList_push]
    exact List.rel_append h.alike.frames
      (.cons ⟨congrArg Array.size h.alike.code, hsame.1, hsame.2⟩ .nil)

/-- A label that only the first body has does not matter. -/
theorem label_left (h : b.Following g places final c) {l : Label}
    (hrun : placeLabel l b = .ok u b') : b'.Following g places final c :=
  h.aside (data_placeLabel hrun) (.refl c) h.steady

/-- The second body places its label of the offset that it has come to. -/
theorem label_right (h : b.Following g places final c)
    (hinjective : ∀ o o' label, places.get? o = some label → places.get? o' = some label → o = o')
    {l : Label} (hl : places.get? b.code.size = some l) {place : LabelGraph.Place}
    (hplace : c.graph.place? l = some place) (hunplaced : place.position = none) :
    ∃ c', placeLabel l c = .ok () c' ∧ b.Following g places final c' ∧
      (∀ label, label ≠ l → c'.graph.place? label = c.graph.place? label) ∧
      ∃ place, c'.graph.place? l = some place ∧ place.position = some b.code.size := by
  obtain ⟨c', hrun, hsteady⟩ := placeLabel_succeeds h.steady hplace hunplaced
  obtain ⟨⟨place', hplace', hposition⟩, hothers⟩ := place?_placeLabel hrun
  rw [h.alike.code] at hposition
  have hdata := data_placeLabel hrun
  refine ⟨c', hrun, ⟨h.alike.of_data rfl hdata, ?_, hsteady, h.plainly, fun o label ho => ?_⟩,
    hothers, place', hplace', hposition⟩
  · rw [pool_of_data hdata]
    exact h.pool
  · by_cases he : label = l
    · subst he
      rw [hinjective o _ label ho hl]
      exact ⟨place', hplace', .inr hposition⟩
    · rw [hothers label he]
      exact h.named o label ho

end Following

end MethodBuilder

namespace ClassImage

open MethodBuilder

variable {g : LabelGraph} {places : Places} {final : ConstantPool} {image image' : ClassImage}
  {named named' : NamedBody} {b b' c : MethodBuilder} {u : Unit}

/-- The lines that are told before an instruction. -/
def linesAt (named : NamedBody) (p : Nat) : List UInt16 :=
  match named.places.get? p with
  | none => []
  | some _ => (named.lines.getD p #[]).toList

/-- The frame that is told before an instruction. -/
def frameAt (named : NamedBody) (p : Nat) : Option (Layout LabelledType) :=
  (named.places.get? p).bind fun _ => named.frames[p]?

theorem eventsBefore_of_none {p : Nat} (h : named.places.get? p = none) :
    eventsBefore named p = [] ∧ linesAt named p = [] ∧ frameAt named p = none := by
  simp [eventsBefore, linesAt, frameAt, h]

theorem eventsBefore_of_some {p : Nat} {label : Label} (h : named.places.get? p = some label) :
    eventsBefore named p = .label label :: ((linesAt named p).map (.lineNumber · label) ++
      (frameAt named p).toList.map fun frame => .frame frame.locals frame.stack) := by
  simp only [eventsBefore, linesAt, frameAt, h, Option.bind_some, List.cons_append]
  cases named.frames[p]? <;> rfl

/-- What is told before an instruction of a body and before one of another body is the same: lines
and a frame at labels that stand for the same offset. -/
structure RowSame (g : LabelGraph) (named named' : NamedBody) (p o : Nat) : Prop where
  lines : linesAt named' o = linesAt named p
  frame : Option.Rel (LayoutSame g named'.places) (frameAt named p) (frameAt named' o)
  label : ∀ l, named.places.get? p = some l → g.offset l = .ok o

/-- The body before an instruction of a row, with the label of the row placed. -/
def described (named : NamedBody) (p : Nat) (label : Label) (b : MethodBuilder) : MethodBuilder :=
  (frameAt named p).elim (b.withLines label (linesAt named p))
    (b.withLines label (linesAt named p)).withFrame

theorem feed_before_ok (hplainly : b.setting.compute = ⟨false, false⟩) {p : Nat}
    (h : feedMethod (eventsBefore named p) b = .ok u b') :
    (named.places.get? p = none ∧ b' = b) ∨ ∃ label mid, named.places.get? p = some label ∧
      placeLabel label b = .ok () mid ∧ b' = described named p label mid := by
  cases hp : named.places.get? p with
  | none =>
    rw [(eventsBefore_of_none hp).1] at h
    exact .inl ⟨rfl, (Step.pure_ok.1 h).2.symm⟩
  | some label =>
    rw [eventsBefore_of_some hp] at h
    obtain ⟨_, mid, hplace, h⟩ := Step.bind_ok.1 h
    obtain ⟨lined, hlines, hframe⟩ := feedMethod_append.1 h
    rw [feed_lines] at hlines
    cases hlines
    refine .inr ⟨label, mid, rfl, hplace, ?_⟩
    have hset : mid.setting.compute.frames = false := by
      rw [setting_of_data (data_placeLabel hplace), hplainly]
    unfold described
    cases hf : frameAt named p with
    | none =>
      rw [hf] at hframe
      exact (Step.pure_ok.1 hframe).2.symm
    | some layout =>
      rw [hf] at hframe
      obtain ⟨_, last, hrun, hend⟩ := Step.bind_ok.1 hframe
      obtain ⟨-, rfl⟩ := Step.pure_ok.1 hend
      exact ((frame_ok (b := mid.withLines label (linesAt named p)) hset).1 hrun).2.2

/-- The events of lines and of a frame. -/
def describing (label : Label) (lines : List UInt16) (frame : Option (Layout LabelledType)) :
    List MethodEvent :=
  lines.map (.lineNumber · label) ++
    frame.toList.map fun layout => .frame layout.locals layout.stack

theorem follows_frame (hc : b.Following g places final c)
    {frame frame' : Option (Layout LabelledType)}
    (hsame : Option.Rel (LayoutSame g places) frame frame')
    (hrun : feedMethod (frame.toList.map fun layout => .frame layout.locals layout.stack) b =
      .ok u b') :
    ∃ c', feedMethod (frame'.toList.map fun layout => .frame layout.locals layout.stack) c =
      .ok () c' ∧ b'.Following g places final c' ∧ c'.graph = c.graph := by
  cases hsame with
  | none =>
    obtain ⟨-, rfl⟩ := Step.pure_ok.1 hrun
    exact ⟨c, rfl, hc, rfl⟩
  | some hsame =>
    obtain ⟨_, next, hframe, hend⟩ := Step.bind_ok.1 hrun
    obtain ⟨-, rfl⟩ := Step.pure_ok.1 hend
    obtain ⟨-, hrun', hfollow⟩ := hc.frame hsame hframe
    exact ⟨_, Step.bind_ok.2 ⟨(), _, hrun', rfl⟩, hfollow, rfl⟩

theorem follows_describing (hc : b.Following g places final c) {l l' : Label}
    (hl : Same g places l l') (lines : List UInt16) {frame frame' : Option (Layout LabelledType)}
    (hsame : Option.Rel (LayoutSame g places) frame frame')
    (hrun : feedMethod (describing l lines frame) b = .ok u b') :
    ∃ c', feedMethod (describing l' lines frame') c = .ok () c' ∧
      b'.Following g places final c' ∧ c'.graph = c.graph := by
  obtain ⟨lined, hlines, hframe⟩ := feedMethod_append.1 hrun
  rw [feed_lines] at hlines
  cases hlines
  obtain ⟨c', hrun', hfollow, hgraph⟩ := follows_frame (hc.lines hl lines) hsame hframe
  exact ⟨c', feedMethod_append.2 ⟨_, feed_lines l' lines c, hrun'⟩, hfollow, hgraph⟩

/-- The second body has placed the label of an offset, and no other label. -/
structure PlacedAt (places : Places) (o : Nat) (c c' : MethodBuilder) : Prop where
  others : ∀ label, places.get? o ≠ some label → c'.graph.place? label = c.graph.place? label
  here : ∀ label, places.get? o = some label →
    ∃ place, c'.graph.place? label = some place ∧ place.position = some o

/-- What is told before a row, the second body takes up as the first one did. -/
theorem follows_before (hc : b.Following g named'.places final c) {p : Nat}
    (hrun : feedMethod (eventsBefore named p) b = .ok u b')
    (hrow : RowSame g named named' p b.code.size)
    (hinjective : ∀ o o' label, named'.places.get? o = some label →
      named'.places.get? o' = some label → o = o')
    (hfree : ∀ l, named'.places.get? b.code.size = some l →
      ∃ place, c.graph.place? l = some place ∧ place.position = none) :
    ∃ c', feedMethod (eventsBefore named' b.code.size) c = .ok () c' ∧
      b'.Following g named'.places final c' ∧ PlacedAt named'.places b.code.size c c' := by
  -- What the first body does apart from its label, which only it may have.
  obtain ⟨mid, hmid, hcode, hdescribe⟩ : ∃ mid, mid.Following g named'.places final c ∧
      mid.code = b.code ∧ ((named.places.get? p = none ∧ b' = mid) ∨
      ∃ l, named.places.get? p = some l ∧
        feedMethod (describing l (linesAt named p) (frameAt named p)) mid = .ok u b') := by
    cases hp : named.places.get? p with
    | none =>
      rw [(eventsBefore_of_none hp).1] at hrun
      obtain ⟨-, rfl⟩ := Step.pure_ok.1 hrun
      exact ⟨b, hc, rfl, .inl ⟨rfl, rfl⟩⟩
    | some l =>
      rw [eventsBefore_of_some hp] at hrun
      obtain ⟨_, mid, hplace, hrest⟩ := Step.bind_ok.1 hrun
      exact ⟨mid, hc.label_left hplace, (others_placeLabel hplace).2.1, .inr ⟨l, rfl, hrest⟩⟩
  have hframe := hrow.frame
  cases ho : named'.places.get? b.code.size with
  | none =>
    obtain ⟨hevents, hlines, hnone⟩ := eventsBefore_of_none ho
    rw [hevents]
    refine ⟨c, rfl, ?_, fun _ _ => rfl, fun _ h => (Option.some_ne_none _ (h.symm.trans ho)).elim⟩
    rcases hdescribe with ⟨-, rfl⟩ | ⟨l, -, hrest⟩
    · exact hmid
    · rw [hnone] at hframe
      have hnone' : frameAt named p = none := by
        generalize frameAt named p = frame at hframe
        cases hframe
        rfl
      rw [← hrow.lines, hlines, hnone'] at hrest
      obtain ⟨-, rfl⟩ := Step.pure_ok.1 hrest
      exact hmid
  | some l' =>
    obtain ⟨place, hplace, hunplaced⟩ := hfree l' ho
    obtain ⟨c₁, hc₁, hfollow, hothers, hat⟩ := hmid.label_right hinjective
      (by rw [hcode]; exact ho) hplace hunplaced
    rw [hcode] at hat
    have hplaced {c'} (hgraph : c'.graph = c₁.graph) :
        PlacedAt named'.places b.code.size c c' := by
      refine ⟨fun label hne => ?_, fun label h => ?_⟩
      · rw [hgraph]
        exact hothers label fun he => hne (he ▸ ho)
      · cases ho.symm.trans h
        rw [hgraph]
        exact hat
    rw [eventsBefore_of_some ho, hrow.lines]
    rcases hdescribe with ⟨hp, rfl⟩ | ⟨l, hp, hrest⟩
    · obtain ⟨-, hlines, hnone⟩ := eventsBefore_of_none hp
      rw [hnone] at hframe
      have hnone' : frameAt named' b.code.size = none := by
        generalize frameAt named' b.code.size = frame at hframe
        cases hframe
        rfl
      rw [hlines, hnone']
      exact ⟨c₁, Step.bind_ok.2 ⟨(), c₁, hc₁, rfl⟩, hfollow, hplaced rfl⟩
    · obtain ⟨c', hrun', hfollow', hgraph⟩ := follows_describing hfollow
        ⟨_, hrow.label l hp, ho⟩ (linesAt named p) hframe hrest
      exact ⟨c', Step.bind_ok.2 ⟨(), c₁, hc₁, hrun'⟩, hfollow', hplaced hgraph⟩

/-- A row as it was written: its place in the class that was read, its instruction, and the body
when it came to the instruction. -/
structure Row where
  place : Nat
  event : MethodEvent
  before : MethodBuilder

/-- The offset at which the instruction of a row was written. -/
def Row.offset (row : Row) : Nat := row.before.code.size

/-- A body takes up the rows of instructions. -/
inductive Wrote (image : ClassImage) (named : NamedBody) :
    MethodBuilder → List (Nat × Instruction Label) → List Row → MethodBuilder → Prop
  | nil (b : MethodBuilder) : Wrote image named b [] [] b
  | cons {b mid next b' : MethodBuilder} {p : Nat} {i : Instruction Label} {event : MethodEvent}
    {rest : List (Nat × Instruction Label)} {rows : List Row}
    (before : feedMethod (eventsBefore named p) b = .ok () mid)
    (tells : image.instructionEvent i = .ok event) (run : feed event mid = .ok () next)
    (others : Wrote image named next rest rows b') :
    Wrote image named b ((p, i) :: rest) (⟨p, event, mid⟩ :: rows) b'

theorem wrote_of_run {instructions : List (Nat × Instruction Label)}
    {told : List (Nat × MethodEvent)} (htold : Tellings image named instructions told)
    (hrun : feedMethod (told.map Prod.snd) b = .ok u b') :
    ∃ rows, Wrote image named b instructions rows b' := by
  induction htold generalizing b with
  | nil =>
    obtain ⟨-, rfl⟩ := Step.pure_ok.1 hrun
    exact ⟨[], .nil b⟩
  | cons tells _ ih =>
    rw [List.map_append, List.map_map] at hrun
    obtain ⟨mid, hbefore, hrest⟩ := feedMethod_append.1 hrun
    obtain ⟨_, next, hevent, hrest⟩ := Step.bind_ok.1 hrest
    obtain ⟨rows, hrows⟩ := ih hrest
    rw [Function.comp_def, List.map_id'] at hbefore
    exact ⟨_, .cons hbefore tells hevent hrows⟩

/-- The label of an offset of the second body waits for being placed. -/
def Waiting (places : Places) (c : MethodBuilder) (o : Nat) : Prop :=
  ∀ label, places.get? o = some label →
    ∃ place, c.graph.place? label = some place ∧ place.position = none

/-- The label of an offset of the second body has been placed there. -/
def Settled (places : Places) (c : MethodBuilder) (o : Nat) : Prop :=
  ∀ label, places.get? o = some label →
    ∃ place, c.graph.place? label = some place ∧ place.position = some o

/-- Events that write no instruction leave the code and the pool alone. -/
theorem appends_quiet {events : List MethodEvent}
    (hquiet : ∀ event ∈ events, isInstruction event = false)
    (hlast : ∀ event ∈ events, ∀ n, event.stage = some n → n ≤ 3)
    (hrun : feedMethod events b = .ok u b') : Appends [] b b' := by
  induction events generalizing b with
  | nil =>
    obtain ⟨-, rfl⟩ := Step.pure_ok.1 hrun
    exact .refl b
  | cons event rest ih =>
    obtain ⟨_, mid, hevent, hrest⟩ := Step.bind_ok.1 hrun
    have hfirst := appends_feed (hquiet event List.mem_cons_self)
      (hlast event List.mem_cons_self) hevent
    exact hfirst.andThen (ih (fun e he => hquiet e (List.mem_cons_of_mem _ he))
      (fun e he => hlast e (List.mem_cons_of_mem _ he)) hrest)

theorem appends_before {p : Nat} (hrun : feedMethod (eventsBefore named p) b = .ok u b') :
    Appends [] b b' := by
  refine appends_quiet eventsBefore_quiet (fun event hevent n hn => ?_) hrun
  obtain ⟨_, -, rfl | ⟨_, -, rfl⟩ | ⟨_, -, rfl⟩⟩ := mem_eventsBefore hevent <;>
    cases hn <;> decide

theorem Wrote.grows {instructions : List (Nat × Instruction Label)} {rows : List Row}
    (h : Wrote image named b instructions rows b') : b.pool.Grows b'.pool := by
  induction h with
  | nil b => exact .refl _
  | cons before tells run _ ih =>
    obtain ⟨_, hwrites, -⟩ := writes_feed (instructionEvent_ok tells).1 run
    exact (appends_before before).pool.trans (hwrites.pool.trans ih)

/-- Rows that a body has written are written again when they are told again. -/
theorem Wrote.follows {instructions instructions' : List (Nat × Instruction Label)}
    {rows : List Row} (h : Wrote image named b instructions rows b')
    (hfinal : b'.pool.Grows final)
    (hrows : List.Forall₂ (fun row x => x.1 = row.offset ∧
      RowSame g named named' row.place row.offset ∧ ∃ event,
        image'.instructionEvent x.2 = .ok event ∧
        Retells g named'.places row.before row.event event) rows instructions')
    (hinjective : ∀ o o' label, named'.places.get? o = some label →
      named'.places.get? o' = some label → o = o')
    (hnodup : (instructions'.map Prod.fst).Nodup)
    (hc : b.Following g named'.places final c)
    (hwaiting : ∀ o ∈ instructions'.map Prod.fst, Waiting named'.places c o) :
    ∃ told c', Tellings image' named' instructions' told ∧
      feedMethod (told.map Prod.snd) c = .ok () c' ∧ b'.Following g named'.places final c' ∧
      (∀ o ∈ instructions'.map Prod.fst, Settled named'.places c' o) ∧
      ∀ label place, c.graph.place? label = some place →
        (∀ o ∈ instructions'.map Prod.fst, named'.places.get? o ≠ some label) →
        c'.graph.place? label = some place := by
  induction h generalizing c instructions' with
  | nil b =>
    cases hrows
    exact ⟨[], c, .nil, rfl, hc, fun _ h => (List.not_mem_nil h).elim, fun _ _ h _ => h⟩
  | @cons b mid next b' p i event rest rows before tells run others ih =>
    obtain - | ⟨⟨hoffset, hrow, event', hevent', hretells⟩, hrest⟩ := hrows
    rename_i x rest'
    obtain ⟨o, i'⟩ := x
    have hsize : b.code.size = mid.code.size := by
      rw [(appends_before before).code]
      rfl
    obtain rfl : o = mid.code.size := hoffset
    have hdistinct := List.nodup_cons.1 hnodup
    have hwaits : Waiting named'.places c b.code.size := hsize ▸ hwaiting _ List.mem_cons_self
    obtain ⟨c₁, hrun₁, hmid, hplaced⟩ :=
      follows_before hc before (hsize ▸ hrow) hinjective hwaits
    obtain ⟨-, hfollow⟩ := hretells.follows final run
    obtain ⟨c₂, hrun₂, hnext, hkept⟩ := hfollow (others.grows.trans hfinal) hmid
    rw [hsize] at hrun₁ hplaced
    -- Labels of later rows have not been touched.
    have hlater : ∀ o ∈ rest'.map Prod.fst, ∀ label, named'.places.get? o = some label →
        named'.places.get? mid.code.size ≠ some label := fun o ho label hl he =>
      hdistinct.1 (hinjective _ _ label he hl ▸ ho)
    obtain ⟨told, c', htold, hrun₃, hdone, hsettled, hstays⟩ := ih hfinal hrest hdistinct.2 hnext
      fun o ho label hl => by
        obtain ⟨place, hplace, hunplaced⟩ := hwaiting o (List.mem_cons_of_mem _ ho) label hl
        refine ⟨place, hkept label place ?_, hunplaced⟩
        rw [hplaced.others label (hlater o ho label hl), hplace]
    refine ⟨_, c', .cons hevent' htold, ?_, hdone, ?_, ?_⟩
    · rw [List.map_append, List.map_map, Function.comp_def, List.map_id']
      exact feedMethod_append.2 ⟨c₁, hrun₁, Step.bind_ok.2 ⟨(), c₂, hrun₂, hrun₃⟩⟩
    · intro o ho label hl
      rcases List.mem_cons.1 ho with rfl | ho
      · obtain ⟨place, hplace, hposition⟩ := hplaced.here label hl
        exact ⟨place, hstays label place (hkept label place hplace)
          fun o ho he => hlater o ho label he hl, hposition⟩
      · exact hsettled o ho label hl
    · intro label place hplace hnone
      refine hstays label place (hkept label place ?_)
        fun o ho => hnone o (List.mem_cons_of_mem _ ho)
      rw [hplaced.others label (hnone _ List.mem_cons_self), hplace]

end ClassImage

end JvmClass
