import JvmClass.Proofs.Image.Labels
import Mathlib.Data.List.Nodup

/-!
# Where labels are visited

The events of a body come along its code: each is told at the offset of the instruction that comes
next, or at the end of the code (`StoredBody.located`). The labels that are told are those that were
made, each of them once and in the order of the code, and a reference to a label is to the one that
is visited at the offset which the body gives (`ClassImage.Labelled`). This holds with whatever
labels a visitor hands out, as long as they are distinct.
-/

namespace JvmClass

open MethodBuilder (isInstruction)

namespace MethodEvent

/-- The label that an event tells the place of. -/
def label? : MethodEvent → Option Label
  | .label name => some name
  | _ => none

/-- The labels that an event refers to. -/
def refers : MethodEvent → List Label
  | .handler start stop entry _ => [start, stop, entry]
  | .localVariable _ _ start stop _ => [start, stop]
  | .lineNumber _ start => [start]
  | .frame locals stack => (locals ++ stack).filterMap fun
    | .uninitialized place => some place
    | _ => none
  | event => event.targets

def isHandler : MethodEvent → Bool
  | .handler .. => true
  | _ => false

def isVariable : MethodEvent → Bool
  | .localVariable .. => true
  | _ => false

/-- Whether an event tells about the instruction that comes next. -/
def describesNext : MethodEvent → Bool
  | .lineNumber .. | .frame .. => true
  | _ => false

/-- How many labels an event makes. -/
def labelsMade : MethodEvent → Nat
  | .newLabels count => count
  | _ => 0

end MethodEvent

/-- Events along a code whose remaining instructions start at the given offsets: each comes at the
start of the next instruction, or at the end of the code. -/
def locate (size : Nat) : List Nat → List MethodEvent → List (Nat × MethodEvent)
  | _, [] => []
  | starts, event :: rest =>
    (starts.headD size, event) ::
      locate size (if isInstruction event then starts.tail else starts) rest

/-- The offsets at which the instructions of a body start. -/
def StoredBody.starts (body : StoredBody) : List Nat := body.instructions.toList.map Prod.fst

/-- The events of a body with the offsets at which they come. -/
def StoredBody.located (body : StoredBody) (events : List MethodEvent) : List (Nat × MethodEvent) :=
  locate body.size body.starts events

/-- The labels that are visited, with the offsets. -/
def visits {L : Type} (fresh : Label → L) (events : List (Nat × MethodEvent)) : List (Nat × L) :=
  events.filterMap fun x => x.2.label?.map fun label => (x.1, fresh label)

namespace ClassImage

/-- The discipline of the labels in the events of a body, for a visitor whose labels are given. -/
structure Labelled {L : Type} (fresh : Label → L) (body : StoredBody) (tables : BodyTables)
    (events : List MethodEvent) : Prop where
  /-- Every label that was made is visited exactly once, and no other is. -/
  once : ((visits fresh (body.located events)).map Prod.snd).Perm
    ((List.range (total MethodEvent.labelsMade events)).map fun k => fresh ⟨k⟩)
  distinct : ((visits fresh (body.located events)).map Prod.snd).Nodup
  /-- The visits come in the order of the code. -/
  ascending : ((visits fresh (body.located events)).map Prod.fst).Pairwise (· < ·)
  /-- The maximums are told once, after everything else. -/
  last : ∃ before, events = before ++ [.maxs body.maxStack body.maxLocals] ∧
    ∀ stack locals, .maxs stack locals ∉ before
  /-- Every label that an event refers to is visited. -/
  visited : ∀ event ∈ events, ∀ label ∈ event.refers,
    fresh label ∈ (visits fresh (body.located events)).map Prod.snd
  /-- The instructions come at their offsets, and jump to what is visited where they say. -/
  instructions : List.Forall₂ (fun x y => y.1 = x.1 ∧
    List.Forall₂ (fun p label => (p, fresh label) ∈ visits fresh (body.located events))
      x.2.places y.2.targets)
    body.instructions.toList ((body.located events).filter fun x => isInstruction x.2)
  handlers : List.Forall₂ (fun entry event => ∃ start stop handler catchType,
    event = .handler start stop handler catchType ∧
      HandlerNamed (fun p label => (p, fresh label) ∈ visits fresh (body.located events)) entry
        start stop handler)
    body.exceptionTable (events.filter MethodEvent.isHandler)
  vars : List.Forall₂ (fun v event => ∃ name descriptor start stop,
    event = .localVariable name descriptor start stop v.slot ∧
      (v.start, fresh start) ∈ visits fresh (body.located events) ∧
      (v.stop, fresh stop) ∈ visits fresh (body.located events))
    tables.vars.toList (events.filter MethodEvent.isVariable)
  /-- A line comes where its entry says, and so does its label. -/
  lines : ∀ p line label, (p, .lineNumber line label) ∈ body.located events →
    (p, line) ∈ tables.lines.toList ∧ (p, fresh label) ∈ visits fresh (body.located events)
  /-- A frame comes where the stack map says, and names what is visited where its types say. -/
  frames : ∀ p locals stack, (p, .frame locals stack) ∈ body.located events →
    ∃ frame ∈ tables.stackMap, FrameNamed
      (fun p label => (p, fresh label) ∈ visits fresh (body.located events)) frame p locals stack

section Telling

variable {image : ClassImage} {named : NamedBody} {instructions : List (Nat × Instruction Label)}
  {told : List (Nat × MethodEvent)}

/-- Instructions with what is told at each of them. -/
inductive Tellings (image : ClassImage) (named : NamedBody) :
    List (Nat × Instruction Label) → List (Nat × MethodEvent) → Prop
  | nil : Tellings image named [] []
  | cons {x : Nat × Instruction Label} {event : MethodEvent}
    {rest : List (Nat × Instruction Label)} {told : List (Nat × MethodEvent)}
    (tells : image.instructionEvent x.2 = .ok event) (h : Tellings image named rest told) :
    Tellings image named (x :: rest)
      ((eventsBefore named x.1).map (Prod.mk x.1) ++ (x.1, event) :: told)

theorem tellInstructions_ok (h : Tell.Succeeds (image.tellInstructions named instructions)) :
    ∃ told, Tellings image named instructions told ∧
      Tell.Tells (image.tellInstructions named instructions) (told.map Prod.snd) := by
  induction instructions with
  | nil => exact ⟨[], .nil, Tell.tells_nothing⟩
  | cons x rest ih =>
    obtain ⟨offset, i⟩ := x
    obtain ⟨-, h⟩ := h.then
    obtain ⟨event, hevent, h⟩ := h.of
    obtain ⟨-, h⟩ := h.then
    obtain ⟨told, htold, htells⟩ := ih h
    refine ⟨_, .cons hevent htold, ?_⟩
    rw [List.map_append, List.map_map, Function.comp_def, List.map_id']
    exact (Tell.tells_all _).then (.of hevent ((Tell.tells_event event).then htells))

/-- What comes before the instructions of a body. -/
def eventsAhead (named : NamedBody) : List MethodEvent :=
  .newLabels named.places.count :: .code ::
    named.handlers.map fun h => .handler h.start h.stop h.handler h.catchType

/-- What comes after the code. -/
def eventsAfter (named : NamedBody) : List MethodEvent :=
  named.vars.map (fun v => .localVariable v.name v.descriptor v.start v.stop v.slot) ++
    (named.attributes.map .codeAttribute ++ [.maxs named.maxStack named.maxLocals])

/-- What comes at the end of the code, whose label goes first. -/
def eventsBehind (named : NamedBody) : List MethodEvent :=
  (named.places.get? named.size).toList.map .label ++ eventsAfter named

theorem tellBody_ok (h : Tell.Succeeds (image.tellBody named)) :
    ∃ told, Tellings image named named.instructions told ∧
      Tell.Tells (image.tellBody named)
        (eventsAhead named ++ (told.map Prod.snd ++ eventsBehind named)) := by
  obtain ⟨told, htold, htells⟩ := tellInstructions_ok h.then.2.then.2.then.2.then.1
  refine ⟨told, htold, ?_⟩
  refine (Tell.tells_event _).then ((Tell.tells_event _).then ((Tell.tells_all _).then
    (htells.then ?_)))
  unfold eventsBehind eventsAfter
  cases named.places.get? named.size with
  | none => exact (Tell.tells_all _).then ((Tell.tells_all _).then (Tell.tells_event _))
  | some label =>
    exact (Tell.tells_event _).then ((Tell.tells_all _).then ((Tell.tells_all _).then
      (Tell.tells_event _)))

/-- What comes before an instruction is the label of its offset, with the lines and the frame there. -/
theorem mem_eventsBefore {offset : Nat} {event : MethodEvent}
    (h : event ∈ eventsBefore named offset) : ∃ label, named.places.get? offset = some label ∧
      (event = .label label ∨
        (∃ line ∈ (named.lines.getD offset #[]).toList, event = .lineNumber line label) ∨
        ∃ layout, named.frames[offset]? = some layout ∧
          event = .frame layout.locals layout.stack) := by
  unfold eventsBefore at h
  split at h
  · cases h
  · rename_i label hlabel
    refine ⟨label, hlabel, ?_⟩
    rcases List.mem_append.1 h with h | h
    · rcases List.mem_cons.1 h with rfl | h
      · exact Or.inl rfl
      · obtain ⟨line, hline, rfl⟩ := List.mem_map.1 h
        exact Or.inr (Or.inl ⟨line, hline, rfl⟩)
    · split at h
      · cases h
      · rename_i layout hlayout
        exact Or.inr (Or.inr ⟨layout, hlayout, List.mem_singleton.1 h⟩)

theorem instructionEvent_ok {i : Instruction Label} {event : MethodEvent}
    (h : image.instructionEvent i = .ok event) :
    isInstruction event = true ∧ event.targets = i.places := by
  cases i with
  | invokeDynamic site =>
    obtain ⟨constant, -, h⟩ := Step.except_bind_ok.1 h
    split at h
    · obtain ⟨⟨name, descriptor⟩, -, h⟩ := Step.except_bind_ok.1 h
      obtain ⟨⟨handle, arguments⟩, -, h⟩ := Step.except_bind_ok.1 h
      cases h
      exact ⟨rfl, rfl⟩
    · cases h
  | typeOperand _ _ | field _ _ | method _ _ | load _ | newMultiArray _ _ =>
    obtain ⟨answer, -, h⟩ := Step.except_bind_ok.1 h
    cases h
    exact ⟨rfl, rfl⟩
  | _ =>
    cases h
    exact ⟨rfl, rfl⟩

/-- What is told at an instruction comes before it, or is its own event. -/
theorem Tellings.mem (h : Tellings image named instructions told) {p : Nat} {event : MethodEvent}
    (hmem : (p, event) ∈ told) : event ∈ eventsBefore named p ∨
      ∃ i, (p, i) ∈ instructions ∧ image.instructionEvent i = .ok event := by
  induction h with
  | nil => cases hmem
  | @cons x first rest told tells h ih =>
    rcases List.mem_append.1 hmem with hbefore | hmem
    · obtain ⟨e, he, heq⟩ := List.mem_map.1 hbefore
      cases heq
      exact Or.inl he
    · rcases List.mem_cons.1 hmem with heq | hmem
      · cases heq
        exact Or.inr ⟨x.2, List.mem_cons_self, tells⟩
      · exact (ih hmem).imp id fun ⟨i, hi, hevent⟩ => ⟨i, List.mem_cons_of_mem _ hi, hevent⟩

theorem eventsBefore_quiet {offset : Nat} :
    ∀ event ∈ eventsBefore named offset, isInstruction event = false := by
  intro event h
  obtain ⟨label, -, rfl | ⟨line, -, rfl⟩ | ⟨layout, -, rfl⟩⟩ := mem_eventsBefore h <;> rfl

theorem mem_eventsAhead {event : MethodEvent} (h : event ∈ eventsAhead named) :
    event = .newLabels named.places.count ∨ event = .code ∨
      ∃ h ∈ named.handlers, event = .handler h.start h.stop h.handler h.catchType := by
  simp only [eventsAhead, List.mem_cons, List.mem_map] at h
  obtain rfl | rfl | ⟨range, hrange, rfl⟩ := h
  · exact Or.inl rfl
  · exact Or.inr (Or.inl rfl)
  · exact Or.inr (Or.inr ⟨range, hrange, rfl⟩)

theorem eventsAhead_quiet : ∀ event ∈ eventsAhead named, isInstruction event = false := by
  intro event h
  obtain rfl | rfl | ⟨range, -, rfl⟩ := mem_eventsAhead h <;> rfl

theorem mem_eventsAfter {event : MethodEvent} (h : event ∈ eventsAfter named) :
    (∃ v ∈ named.vars, event = .localVariable v.name v.descriptor v.start v.stop v.slot) ∨
      (∃ a, event = .codeAttribute a) ∨ event = .maxs named.maxStack named.maxLocals := by
  simp only [eventsAfter, List.mem_append, List.mem_map, List.mem_singleton] at h
  obtain ⟨v, hv, rfl⟩ | ⟨a, -, rfl⟩ | rfl := h
  · exact Or.inl ⟨v, hv, rfl⟩
  · exact Or.inr (Or.inl ⟨a, rfl⟩)
  · exact Or.inr (Or.inr rfl)

theorem mem_eventsBehind {event : MethodEvent} (h : event ∈ eventsBehind named) :
    (∃ label, event = .label label) ∨ event ∈ eventsAfter named := by
  refine (List.mem_append.1 h).imp_left fun h => ?_
  obtain ⟨label, -, rfl⟩ := List.mem_map.1 h
  exact ⟨label, rfl⟩

theorem eventsBehind_quiet : ∀ event ∈ eventsBehind named, isInstruction event = false := by
  intro event h
  rcases mem_eventsBehind h with ⟨label, rfl⟩ | h
  · rfl
  · obtain ⟨v, -, rfl⟩ | ⟨a, rfl⟩ | rfl := mem_eventsAfter h <;> rfl

/-- Events that are no instructions come where the next instruction starts. -/
theorem locate_quiet {size : Nat} {starts : List Nat} {events : List MethodEvent}
    (h : ∀ event ∈ events, isInstruction event = false) (others : List MethodEvent) :
    locate size starts (events ++ others) =
      events.map (Prod.mk (starts.headD size)) ++ locate size starts others := by
  induction events with
  | nil => rfl
  | cons event rest ih =>
    have hrest := ih fun e he => h e (List.mem_cons_of_mem _ he)
    simp only [List.cons_append, locate, h event List.mem_cons_self, Bool.false_eq_true, if_false,
      hrest, List.map_cons]

/-- What is told at each instruction comes at its offset. -/
theorem Tellings.locate (h : Tellings image named instructions told) (size : Nat)
    (others : List MethodEvent) :
    JvmClass.locate size (instructions.map Prod.fst) (told.map Prod.snd ++ others) =
      told ++ JvmClass.locate size [] others := by
  induction h with
  | nil => rfl
  | @cons x event rest told tells h ih =>
    obtain ⟨hi, -⟩ := instructionEvent_ok tells
    rw [List.map_append, List.map_map, Function.comp_def, List.map_id', List.append_assoc,
      locate_quiet eventsBefore_quiet, List.map_cons, List.map_cons, List.cons_append]
    simp only [JvmClass.locate, hi, if_true, List.tail_cons, ih, List.headD_cons, List.append_assoc,
      List.cons_append]

end Telling

section Visits

variable {image : ClassImage} {named : NamedBody} {instructions : List (Nat × Instruction Label)}
  {told : List (Nat × MethodEvent)} {body : StoredBody} {tables : BodyTables} {L : Type}
  {fresh : Label → L}

/-- The labels that offsets have, with these offsets. -/
def labelsAlong (places : Places) (fresh : Label → L) (offsets : List Nat) : List (Nat × L) :=
  offsets.filterMap fun p => (places.get? p).map fun label => (p, fresh label)

theorem labelsAlong_append (places : Places) (fresh : Label → L) (a b : List Nat) :
    labelsAlong places fresh (a ++ b) = labelsAlong places fresh a ++ labelsAlong places fresh b :=
  List.filterMap_append

theorem visits_append (fresh : Label → L) (a b : List (Nat × MethodEvent)) :
    visits fresh (a ++ b) = visits fresh a ++ visits fresh b := List.filterMap_append

/-- Events that tell no label add no visit. -/
theorem visits_eq_nil {a : List (Nat × MethodEvent)} (h : ∀ x ∈ a, x.2.label? = none) :
    visits fresh a = [] := by
  refine List.filterMap_eq_nil_iff.2 fun x hx => ?_
  rw [h x hx]
  rfl

theorem visits_eventsBefore (offset : Nat) :
    visits fresh ((eventsBefore named offset).map (Prod.mk offset)) =
      labelsAlong named.places fresh [offset] := by
  unfold eventsBefore labelsAlong
  cases hlabel : named.places.get? offset with
  | none => rw [List.filterMap_cons, hlabel]; rfl
  | some label =>
    have hothers (others : List MethodEvent) (hnone : ∀ event ∈ others, event.label? = none) :
        visits fresh ((.label label :: others).map (Prod.mk offset)) = [(offset, fresh label)] := by
      refine congrArg (List.cons (offset, fresh label)) (visits_eq_nil fun x hx => ?_)
      obtain ⟨event, hevent, rfl⟩ := List.mem_map.1 hx
      exact hnone event hevent
    rw [List.filterMap_cons, hlabel]
    refine hothers _ fun event hevent => ?_
    rcases List.mem_append.1 hevent with hline | hframe
    · obtain ⟨line, -, rfl⟩ := List.mem_map.1 hline
      rfl
    · split at hframe
      · cases hframe
      · obtain rfl := List.mem_singleton.1 hframe
        rfl

theorem label?_of_isInstruction {event : MethodEvent} (h : isInstruction event = true) :
    event.label? = none ∧ event.refers = event.targets := by
  cases event <;> first | exact ⟨rfl, rfl⟩ | cases h

theorem Tellings.visits (h : Tellings image named instructions told) :
    JvmClass.visits fresh told = labelsAlong named.places fresh (instructions.map Prod.fst) := by
  induction h with
  | nil => rfl
  | @cons x event rest told tells h ih =>
    have hnone : JvmClass.visits fresh ((x.1, event) :: told) = JvmClass.visits fresh told := by
      unfold JvmClass.visits
      rw [List.filterMap_cons, (label?_of_isInstruction (instructionEvent_ok tells).1).1]
      rfl
    rw [visits_append, visits_eventsBefore, hnone, ih, List.map_cons]
    exact (labelsAlong_append _ _ [x.1] _).symm

theorem visits_eventsBehind (named : NamedBody) :
    visits fresh ((eventsBehind named).map (Prod.mk named.size)) =
      labelsAlong named.places fresh [named.size] := by
  have hafter : visits fresh ((eventsAfter named).map (Prod.mk named.size)) = [] := by
    refine visits_eq_nil fun x hx => ?_
    obtain ⟨event, hevent, rfl⟩ := List.mem_map.1 hx
    obtain ⟨v, -, rfl⟩ | ⟨a, rfl⟩ | rfl := mem_eventsAfter hevent <;> rfl
  unfold eventsBehind labelsAlong
  rw [List.map_append, visits_append, hafter, List.append_nil, List.filterMap_cons]
  cases named.places.get? named.size <;> rfl

theorem starts_eq (hnamed : Named named body tables) :
    body.starts = named.instructions.map Prod.fst := by
  have hall := hnamed.instructions
  unfold StoredBody.starts
  generalize body.instructions.toList = stored, named.instructions = found at hall
  induction hall with
  | nil => rfl
  | cons hx _ ih => rw [List.map_cons, List.map_cons, ih, hx.1]

/-- The events of a body come before its instructions, at them, and at the end of the code. -/
theorem located_eq (hnamed : Named named body tables)
    (htold : Tellings image named named.instructions told) :
    body.located (eventsAhead named ++ (told.map Prod.snd ++ eventsBehind named)) =
      (eventsAhead named).map (Prod.mk (body.starts.headD body.size)) ++
        (told ++ (eventsBehind named).map (Prod.mk named.size)) := by
  unfold StoredBody.located
  have hlast : locate body.size [] (eventsBehind named ++ []) =
      (eventsBehind named).map (Prod.mk body.size) ++ locate body.size [] [] :=
    locate_quiet eventsBehind_quiet []
  rw [List.append_nil] at hlast
  rw [locate_quiet eventsAhead_quiet, starts_eq hnamed, htold.locate, hlast, hnamed.size, locate,
    List.append_nil]

/-- The labels are visited along the code. -/
theorem visits_located (hnamed : Named named body tables)
    (htold : Tellings image named named.instructions told) :
    visits fresh (body.located (eventsAhead named ++ (told.map Prod.snd ++ eventsBehind named))) =
      labelsAlong named.places fresh (body.starts ++ [body.size]) := by
  have hahead : visits fresh ((eventsAhead named).map
      (Prod.mk (body.starts.headD body.size))) = [] := by
    refine visits_eq_nil fun x hx => ?_
    obtain ⟨event, hevent, rfl⟩ := List.mem_map.1 hx
    obtain rfl | rfl | ⟨range, -, rfl⟩ := mem_eventsAhead hevent <;> rfl
  rw [located_eq hnamed htold, visits_append, visits_append, hahead, htold.visits,
    visits_eventsBehind, List.nil_append, starts_eq hnamed, hnamed.size, labelsAlong_append]

variable {places : Places} {offsets : List Nat}

theorem mem_labelsAlong {x : Nat × L} : x ∈ labelsAlong places fresh offsets ↔
    x.1 ∈ offsets ∧ ∃ label, places.get? x.1 = some label ∧ x.2 = fresh label := by
  obtain ⟨p, l⟩ := x
  simp only [labelsAlong, List.mem_filterMap, Option.map_eq_some_iff, Prod.mk.injEq]
  constructor
  · rintro ⟨_, hp, label, hlabel, rfl, rfl⟩
    exact ⟨hp, label, hlabel, rfl⟩
  · rintro ⟨hp, label, hlabel, rfl⟩
    exact ⟨p, hp, label, hlabel, rfl, rfl⟩

theorem ascending_labelsAlong (h : offsets.Pairwise (· < ·)) :
    ((labelsAlong places fresh offsets).map Prod.fst).Pairwise (· < ·) := by
  refine List.pairwise_map.2 (h.filterMap _ fun p q hpq x hx y hy => ?_)
  obtain ⟨_, -, rfl⟩ := Option.map_eq_some_iff.1 hx
  obtain ⟨_, -, rfl⟩ := Option.map_eq_some_iff.1 hy
  exact hpq

/-- A label belongs to one offset, so that it is not visited again. -/
theorem nodup_labelsAlong (hsound : places.Sound body) (hfresh : fresh.Injective)
    (h : offsets.Pairwise (· < ·)) :
    ((labelsAlong places fresh offsets).map Prod.snd).Nodup := by
  refine List.pairwise_map.2 (h.filterMap _ fun p q hpq x hx y hy => ?_)
  obtain ⟨label, hp, rfl⟩ := Option.map_eq_some_iff.1 hx
  obtain ⟨label', hq, rfl⟩ := Option.map_eq_some_iff.1 hy
  intro heq
  obtain rfl := hfresh heq
  exact Nat.ne_of_lt hpq (hsound.injective p q label hp hq)

/-- An offset that is admitted is the start of an instruction or the end. -/
theorem admits_iff {p : Nat} : body.Admits p ↔ p ∈ body.starts ++ [body.size] := by
  unfold StoredBody.Admits StoredBody.Starts StoredBody.starts
  simp [Array.mem_toList_iff]

theorem perm_labelsAlong (hsound : places.Sound body) (hfresh : fresh.Injective)
    (h : (body.starts ++ [body.size]).Pairwise (· < ·)) :
    ((labelsAlong places fresh (body.starts ++ [body.size])).map Prod.snd).Perm
      ((List.range places.count).map fun k => fresh ⟨k⟩) := by
  have hrange : ((List.range places.count).map fun k => fresh ⟨k⟩).Nodup := by
    refine List.Nodup.map (fun k k' hk => ?_) List.nodup_range
    exact congrArg Label.number (hfresh hk)
  refine (List.perm_ext_iff_of_nodup (nodup_labelsAlong hsound hfresh h) hrange).2 fun l => ?_
  simp only [List.mem_map, mem_labelsAlong, List.mem_range]
  constructor
  · rintro ⟨x, ⟨-, label, hlabel, hx⟩, rfl⟩
    exact ⟨label.number, hsound.bounded _ _ hlabel, hx.symm⟩
  · rintro ⟨k, hk, rfl⟩
    obtain ⟨p, hp⟩ := hsound.onto k hk
    exact ⟨(p, fresh ⟨k⟩), ⟨admits_iff.1 (hsound.admitted p _ hp), ⟨k⟩, hp, rfl⟩, rfl⟩

end Visits

section Discipline

variable {image : ClassImage} {named : NamedBody} {instructions : List (Nat × Instruction Label)}
  {told : List (Nat × MethodEvent)} {body : StoredBody} {tables : BodyTables} {L : Type}
  {fresh : Label → L} {seen : List (Nat × L)}

theorem total_labelsMade (htold : Tellings image named instructions told) :
    total MethodEvent.labelsMade
      (eventsAhead named ++ (told.map Prod.snd ++ eventsBehind named)) = named.places.count := by
  have hnone (events : List MethodEvent) (h : ∀ event ∈ events, event.labelsMade = 0) :
      total MethodEvent.labelsMade events = 0 := by
    induction events with
    | nil => rfl
    | cons event rest ih =>
      rw [total_cons, h event List.mem_cons_self, ih fun e he => h e (List.mem_cons_of_mem _ he)]
  have htold : total MethodEvent.labelsMade (told.map Prod.snd) = 0 := by
    refine hnone _ fun event hevent => ?_
    obtain ⟨x, hx, rfl⟩ := List.mem_map.1 hevent
    rcases htold.mem hx with hbefore | ⟨i, -, hi⟩
    · obtain ⟨label, -, he | ⟨line, -, he⟩ | ⟨layout, -, he⟩⟩ := mem_eventsBefore hbefore <;>
        rw [he] <;> rfl
    · have hinstruction := (instructionEvent_ok hi).1
      cases he : x.2 <;> rw [he] at hinstruction <;> first | rfl | cases hinstruction
  have hbehind : total MethodEvent.labelsMade (eventsBehind named) = 0 := by
    refine hnone _ fun event hevent => ?_
    rcases mem_eventsBehind hevent with ⟨label, rfl⟩ | hafter
    · rfl
    · obtain ⟨v, -, rfl⟩ | ⟨a, rfl⟩ | rfl := mem_eventsAfter hafter <;> rfl
  have hhandlers : total MethodEvent.labelsMade (named.handlers.map fun h =>
      .handler h.start h.stop h.handler h.catchType) = 0 := by
    refine hnone _ fun event hevent => ?_
    obtain ⟨range, -, rfl⟩ := List.mem_map.1 hevent
    rfl
  rw [total_append, total_append, htold, hbehind, eventsAhead, total_cons, total_cons, hhandlers]
  rfl

/-- The instructions of a body, with the places that they name, among what is told. -/
theorem Tellings.forall₂_instructions (htold : Tellings image named instructions told)
    {stored : List (Nat × Instruction Nat)} {reaches : Nat → Label → Prop}
    (h : List.Forall₂ (fun x y => y.1 = x.1 ∧ List.Forall₂ reaches x.2.places y.2.places) stored
      instructions) :
    List.Forall₂ (fun x y => y.1 = x.1 ∧ List.Forall₂ reaches x.2.places y.2.targets) stored
      (told.filter fun x => isInstruction x.2) := by
  induction htold generalizing stored with
  | nil =>
    cases h
    exact .nil
  | @cons y event rest told tells htold ih =>
    cases h with
    | @cons x _ stored _ hx hrest =>
      obtain ⟨hi, htargets⟩ := instructionEvent_ok tells
      have hquiet : ((eventsBefore named y.1).map (Prod.mk y.1)).filter
          (fun x => isInstruction x.2) = [] := by
        refine List.filter_eq_nil_iff.2 fun z hz => ?_
        obtain ⟨e, he, rfl⟩ := List.mem_map.1 hz
        simp [eventsBefore_quiet e he]
      rw [List.filter_append, hquiet, List.nil_append, List.filter_cons, if_pos hi]
      exact .cons ⟨hx.1, htargets ▸ hx.2⟩ (ih hrest)

/-- Whatever an event refers to is the label of an offset. -/
theorem Tellings.refers (htold : Tellings image named named.instructions told)
    (hnamed : Named named body tables) {event : MethodEvent}
    (hevent : event ∈ eventsAhead named ++ (told.map Prod.snd ++ eventsBehind named))
    {label : Label} (hlabel : label ∈ event.refers) :
    ∃ p, named.places.get? p = some label := by
  rcases List.mem_append.1 hevent with hahead | hevent
  · obtain rfl | rfl | ⟨range, hrange, rfl⟩ := mem_eventsAhead hahead
    · cases hlabel
    · cases hlabel
    · obtain ⟨entry, -, hstart, hstop, hhandler⟩ := exists_of_forall₂ hnamed.handlers hrange
      simp only [MethodEvent.refers, List.mem_cons, List.not_mem_nil, or_false] at hlabel
      obtain rfl | rfl | rfl := hlabel
      · exact ⟨_, hstart⟩
      · exact ⟨_, hstop⟩
      · exact ⟨_, hhandler⟩
  rcases List.mem_append.1 hevent with hcode | hbehind
  · obtain ⟨⟨p, _⟩, hx, rfl⟩ := List.mem_map.1 hcode
    rcases htold.mem hx with hbefore | ⟨i, hi, htells⟩
    · obtain ⟨name, hname, rfl | ⟨line, -, rfl⟩ | ⟨layout, hlayout, rfl⟩⟩ :=
        mem_eventsBefore hbefore
      · cases hlabel
      · obtain rfl := List.mem_singleton.1 hlabel
        exact ⟨p, hname⟩
      · obtain ⟨frame, -, -, hlocals, hstack⟩ := hnamed.frames p layout hlayout
        obtain ⟨t', ht', hsome⟩ := List.mem_filterMap.1 hlabel
        split at hsome
        · cases hsome
          rcases List.mem_append.1 ht' with ht' | ht'
          · obtain ⟨t, -, ht⟩ := exists_of_forall₂ hlocals ht'
            obtain ⟨q, -, hq⟩ := ht label rfl
            exact ⟨q, hq⟩
          · obtain ⟨t, -, ht⟩ := exists_of_forall₂ hstack ht'
            obtain ⟨q, -, hq⟩ := ht label rfl
            exact ⟨q, hq⟩
        · cases hsome
    · obtain ⟨hinstruction, htargets⟩ := instructionEvent_ok htells
      rw [(label?_of_isInstruction hinstruction).2, htargets] at hlabel
      obtain ⟨x, -, -, hplaces⟩ := exists_of_forall₂ hnamed.instructions hi
      obtain ⟨q, -, hq⟩ := exists_of_forall₂ hplaces hlabel
      exact ⟨q, hq⟩
  · rcases mem_eventsBehind hbehind with ⟨name, rfl⟩ | hafter
    · cases hlabel
    · obtain ⟨v, hv, rfl⟩ | ⟨a, rfl⟩ | rfl := mem_eventsAfter hafter
      · obtain ⟨stored, -, -, hstart, hstop⟩ := exists_of_forall₂ hnamed.vars hv
        simp only [MethodEvent.refers, List.mem_cons, List.not_mem_nil, or_false] at hlabel
        obtain rfl | rfl := hlabel
        · exact ⟨_, hstart⟩
        · exact ⟨_, hstop⟩
      · cases hlabel
      · cases hlabel

/-- Lines and frames come before instructions only. -/
theorem mem_before (hnamed : Named named body tables)
    (htold : Tellings image named named.instructions told) {p : Nat} {event : MethodEvent}
    (h : (p, event) ∈ body.located (eventsAhead named ++ (told.map Prod.snd ++ eventsBehind named)))
    (hkind : event.describesNext = true) : event ∈ eventsBefore named p := by
  rw [located_eq hnamed htold] at h
  rcases List.mem_append.1 h with h | h
  · obtain ⟨e, he, heq⟩ := List.mem_map.1 h
    cases heq
    obtain rfl | rfl | ⟨_, -, rfl⟩ := mem_eventsAhead he <;> cases hkind
  rcases List.mem_append.1 h with h | h
  · refine (htold.mem h).resolve_right ?_
    rintro ⟨i, -, htells⟩
    have hinstruction := (instructionEvent_ok htells).1
    cases event <;> first | (cases hkind; done) | cases hinstruction
  · obtain ⟨e, he, heq⟩ := List.mem_map.1 h
    cases heq
    rcases mem_eventsBehind he with ⟨_, rfl⟩ | hafter
    · cases hkind
    · obtain ⟨_, -, rfl⟩ | ⟨_, rfl⟩ | rfl := mem_eventsAfter hafter <;> cases hkind

/-- Events of a kind that comes neither before an instruction nor as one. -/
theorem filter_told {kind : MethodEvent → Bool} (htold : Tellings image named instructions told)
    (hinstruction : ∀ event, isInstruction event = true → kind event = false)
    (hbefore : ∀ offset, ∀ event ∈ eventsBefore named offset, kind event = false) :
    (told.map Prod.snd).filter kind = [] := by
  refine List.filter_eq_nil_iff.2 fun event hevent => ?_
  obtain ⟨⟨p, _⟩, hx, rfl⟩ := List.mem_map.1 hevent
  rcases htold.mem hx with h | ⟨i, -, htells⟩
  · simp [hbefore p _ h]
  · simp [hinstruction _ (instructionEvent_ok htells).1]

theorem filter_quiet {offset : Nat} {events : List MethodEvent}
    (h : ∀ event ∈ events, isInstruction event = false) :
    (events.map (Prod.mk offset)).filter (fun x => isInstruction x.2) = [] := by
  refine List.filter_eq_nil_iff.2 fun x hx => ?_
  obtain ⟨event, hevent, rfl⟩ := List.mem_map.1 hx
  simp [h event hevent]

/-- The maximums come last, and only there. -/
theorem last_maxs (hnamed : Named named body tables)
    (htold : Tellings image named named.instructions told) :
    ∃ before, eventsAhead named ++ (told.map Prod.snd ++ eventsBehind named) =
      before ++ [.maxs body.maxStack body.maxLocals] ∧
      ∀ stack locals, .maxs stack locals ∉ before := by
  refine ⟨eventsAhead named ++ (told.map Prod.snd ++
    ((named.places.get? named.size).toList.map .label ++
      (named.vars.map (fun v => .localVariable v.name v.descriptor v.start v.stop v.slot) ++
        named.attributes.map .codeAttribute))), ?_, ?_⟩
  · unfold eventsBehind eventsAfter
    rw [hnamed.maxs.1, hnamed.maxs.2]
    simp only [List.append_assoc]
  · intro stack locals h
    simp only [List.mem_append, List.mem_map] at h
    obtain hahead | ⟨x, hx, heq⟩ | ⟨_, -, heq⟩ | ⟨_, -, heq⟩ | ⟨_, -, heq⟩ := h
    · obtain heq | heq | ⟨_, -, heq⟩ := mem_eventsAhead hahead <;> cases heq
    · rcases htold.mem hx with hbefore | ⟨i, -, htells⟩
      · rw [heq] at hbefore
        obtain ⟨_, -, heq | ⟨_, -, heq⟩ | ⟨_, -, heq⟩⟩ := mem_eventsBefore hbefore <;> cases heq
      · rw [heq] at htells
        cases (instructionEvent_ok htells).1
    all_goals cases heq

/-- The handlers of a body, in order. -/
theorem forall₂_handlers (hnamed : Named named body tables)
    (htold : Tellings image named named.instructions told) {reaches : Nat → Label → Prop}
    (hreaches : ∀ p label, named.places.get? p = some label → reaches p label) :
    List.Forall₂ (fun entry event => ∃ start stop handler catchType,
      event = .handler start stop handler catchType ∧
        HandlerNamed reaches entry start stop handler) body.exceptionTable
      ((eventsAhead named ++ (told.map Prod.snd ++ eventsBehind named)).filter
        MethodEvent.isHandler) := by
  have hcode : (told.map Prod.snd).filter MethodEvent.isHandler = [] := by
    refine filter_told htold (fun event h => ?_) fun offset event h => ?_
    · cases event <;> first | rfl | cases h
    · obtain ⟨_, -, rfl | ⟨_, -, rfl⟩ | ⟨_, -, rfl⟩⟩ := mem_eventsBefore h <;> rfl
  have hbehind : (eventsBehind named).filter MethodEvent.isHandler = [] := by
    refine List.filter_eq_nil_iff.2 fun event hevent => ?_
    rcases mem_eventsBehind hevent with ⟨label, rfl⟩ | hafter
    · exact Bool.false_ne_true
    · obtain ⟨v, -, rfl⟩ | ⟨a, rfl⟩ | rfl := mem_eventsAfter hafter <;> exact Bool.false_ne_true
  have hahead : (eventsAhead named).filter MethodEvent.isHandler =
      named.handlers.map fun h => .handler h.start h.stop h.handler h.catchType := by
    unfold eventsAhead
    rw [List.filter_cons_of_neg Bool.false_ne_true, List.filter_cons_of_neg Bool.false_ne_true]
    refine List.filter_eq_self.2 fun event hevent => ?_
    obtain ⟨range, -, rfl⟩ := List.mem_map.1 hevent
    rfl
  rw [List.filter_append, List.filter_append, hcode, hbehind, List.append_nil, List.append_nil,
    hahead]
  refine List.forall₂_map_right_iff.2 (hnamed.handlers.imp ?_)
  rintro entry range ⟨hstart, hstop, hhandler⟩
  exact ⟨_, _, _, _, rfl, hreaches _ _ hstart, hreaches _ _ hstop, hreaches _ _ hhandler⟩

/-- The local variables of a body, in order. -/
theorem forall₂_vars (hnamed : Named named body tables)
    (htold : Tellings image named named.instructions told) {reaches : Nat → Label → Prop}
    (hreaches : ∀ p label, named.places.get? p = some label → reaches p label) :
    List.Forall₂ (fun v event => ∃ name descriptor start stop,
      event = .localVariable name descriptor start stop v.slot ∧ reaches v.start start ∧
        reaches v.stop stop) tables.vars.toList
      ((eventsAhead named ++ (told.map Prod.snd ++ eventsBehind named)).filter
        MethodEvent.isVariable) := by
  have hcode : (told.map Prod.snd).filter MethodEvent.isVariable = [] := by
    refine filter_told htold (fun event h => ?_) fun offset event h => ?_
    · cases event <;> first | rfl | cases h
    · obtain ⟨_, -, rfl | ⟨_, -, rfl⟩ | ⟨_, -, rfl⟩⟩ := mem_eventsBefore h <;> rfl
  have hahead : (eventsAhead named).filter MethodEvent.isVariable = [] := by
    refine List.filter_eq_nil_iff.2 fun event hevent => ?_
    obtain rfl | rfl | ⟨range, -, rfl⟩ := mem_eventsAhead hevent <;> exact Bool.false_ne_true
  have hbehind : (eventsBehind named).filter MethodEvent.isVariable =
      named.vars.map fun v => .localVariable v.name v.descriptor v.start v.stop v.slot := by
    unfold eventsBehind eventsAfter
    rw [List.filter_append, List.filter_append, List.filter_append,
      List.filter_eq_nil_iff.2, List.filter_eq_self.2, List.filter_eq_nil_iff.2]
    · simp [MethodEvent.isVariable]
    · intro event hevent
      obtain ⟨a, -, rfl⟩ := List.mem_map.1 hevent
      exact Bool.false_ne_true
    · intro event hevent
      obtain ⟨v, -, rfl⟩ := List.mem_map.1 hevent
      rfl
    · intro event hevent
      obtain ⟨label, -, rfl⟩ := List.mem_map.1 hevent
      exact Bool.false_ne_true
  rw [List.filter_append, List.filter_append, hahead, hcode, List.nil_append, List.nil_append,
    hbehind]
  refine List.forall₂_map_right_iff.2 (hnamed.vars.imp ?_)
  rintro v range ⟨hslot, hstart, hstop⟩
  exact ⟨_, _, _, _, by rw [hslot], hreaches _ _ hstart, hreaches _ _ hstop⟩

/-- A body whose places have been named is told with its labels in order. -/
theorem labelled_of_tellings (hnamed : Named named body tables)
    (htold : Tellings image named named.instructions told) (hfresh : fresh.Injective)
    (hascending : (body.starts ++ [body.size]).Pairwise (· < ·)) :
    Labelled fresh body tables
      (eventsAhead named ++ (told.map Prod.snd ++ eventsBehind named)) := by
  have hvisits := @visits_located image named told body tables L fresh hnamed htold
  have hseen (p : Nat) (label : Label) (h : named.places.get? p = some label) :
      (p, fresh label) ∈ visits fresh (body.located
        (eventsAhead named ++ (told.map Prod.snd ++ eventsBehind named))) := by
    rw [hvisits]
    exact mem_labelsAlong.2 ⟨admits_iff.1 (hnamed.sound.admitted p label h), label, h, rfl⟩
  constructor
  case once =>
    rw [total_labelsMade htold, hvisits]
    exact perm_labelsAlong hnamed.sound hfresh hascending
  case distinct =>
    rw [hvisits]
    exact nodup_labelsAlong hnamed.sound hfresh hascending
  case ascending =>
    rw [hvisits]
    exact ascending_labelsAlong hascending
  case last => exact last_maxs hnamed htold
  case visited =>
    intro event hevent label hlabel
    obtain ⟨p, hp⟩ := htold.refers hnamed hevent hlabel
    exact List.mem_map.2 ⟨_, hseen p label hp, rfl⟩
  case instructions =>
    have hall : List.Forall₂ (fun x y => y.1 = x.1 ∧ List.Forall₂ (fun p label =>
        (p, fresh label) ∈ visits fresh (body.located
          (eventsAhead named ++ (told.map Prod.snd ++ eventsBehind named))))
        x.2.places y.2.places) body.instructions.toList named.instructions :=
      hnamed.instructions.imp fun x y h => ⟨h.1, h.2.imp fun p label => hseen p label⟩
    have hfilter : (body.located (eventsAhead named ++
        (told.map Prod.snd ++ eventsBehind named))).filter (fun x => isInstruction x.2) =
          told.filter fun x => isInstruction x.2 := by
      rw [located_eq hnamed htold, List.filter_append, List.filter_append,
        filter_quiet eventsAhead_quiet, filter_quiet eventsBehind_quiet, List.nil_append,
        List.append_nil]
    rw [hfilter]
    exact htold.forall₂_instructions hall
  case handlers => exact forall₂_handlers hnamed htold hseen
  case vars => exact forall₂_vars hnamed htold hseen
  case lines =>
    intro p line label h
    obtain ⟨name, hname, he | ⟨_, hline, he⟩ | ⟨_, -, he⟩⟩ :=
      mem_eventsBefore (mem_before hnamed htold h rfl) <;> cases he
    exact ⟨hnamed.lines p line hline, hseen p label hname⟩
  case frames =>
    intro p locals stack h
    obtain ⟨name, -, he | ⟨_, -, he⟩ | ⟨layout, hlayout, he⟩⟩ :=
      mem_eventsBefore (mem_before hnamed htold h rfl) <;> cases he
    obtain ⟨frame, hframe, hoffset, hlocals, hstack⟩ := hnamed.frames p layout hlayout
    have himp (t : NamedType) (t' : LabelledType)
        (ht : TypeNamed (fun p label => named.places.get? p = some label) t t') :
        TypeNamed (fun p label => (p, fresh label) ∈ visits fresh (body.located
          (eventsAhead named ++ (told.map Prod.snd ++ eventsBehind named)))) t t' :=
      fun label hl => (ht label hl).imp fun q hq => ⟨hq.1, hseen q label hq.2⟩
    exact ⟨frame, hframe, hoffset, hlocals.imp himp, hstack.imp himp⟩

/-- The instructions of a stored body come in order, before the end of the code. -/
theorem starts_ascending {span : AttributeSpan}
    (h : image.readBody span image.readStoredBody = .ok body) :
    (body.starts ++ [body.size]).Pairwise (· < ·) := by
  obtain ⟨c, h⟩ := Scan.runAt_ok.1 h
  obtain ⟨maxStack, _, -, h⟩ := Step.bind_ok.1 h
  obtain ⟨maxLocals, _, -, h⟩ := Step.bind_ok.1 h
  obtain ⟨size, _, -, h⟩ := Step.bind_ok.1 h
  obtain ⟨code, _, hcode, h⟩ := Step.bind_ok.1 h
  obtain ⟨found, _, hfound, h⟩ := Step.bind_ok.1 h
  obtain ⟨entries, _, -, h⟩ := Step.bind_ok.1 h
  obtain ⟨spans, _, -, h⟩ := Step.bind_ok.1 h
  obtain ⟨rfl, -⟩ := Step.pure_ok.1 h
  have hsize : code.size = size.toNat := by
    unfold Scan.bytes at hcode
    split at hcode
    · cases hcode
      rw [Array.size_extract]
      omega
    · cases hcode
  obtain ⟨hpairwise, hbound⟩ := Instruction.decode_ascending (Step.of_ok.1 hfound).1
  refine List.pairwise_append.2 ⟨List.pairwise_map.2 hpairwise, List.pairwise_singleton _ _, ?_⟩
  intro p hp q hq
  obtain ⟨x, hx, rfl⟩ := List.mem_map.1 hp
  obtain rfl := List.mem_singleton.1 hq
  exact hsize ▸ hbound x hx

/-- **Labels are visited once, in order, and where they are referred to.** Whenever a body is read
and told without error, its events keep the discipline of labels, whatever distinct labels the
visitor hands out. -/
theorem labels_visited {skip : Skip} {d : MethodDeclaration} {span : AttributeSpan}
    {events : List MethodEvent} (hread : image.readNamedBody skip d span = .ok named)
    (htold : (image.tellBody named).trace = ⟨events, none⟩) (hfresh : fresh.Injective) :
    ∃ body tables, image.readBody span image.readStoredBody = .ok body ∧
      body.attributes.foldlM (image.addTable skip d) ⟨#[], #[], [], #[]⟩ = .ok tables ∧
      Labelled fresh body tables events := by
  obtain ⟨body, hbody, hread⟩ := Step.except_bind_ok.1 hread
  obtain ⟨tables, htables, hread⟩ := Step.except_bind_ok.1 hread
  refine ⟨body, tables, hbody, htables, ?_⟩
  split at hread
  · rename_i hnamed
    cases hread
    obtain ⟨told, htellings, htells⟩ :=
      tellBody_ok (Tell.succeeds_of_trace (congrArg Trace.fault htold))
    obtain rfl := congrArg Trace.events (htells.trace_eq.symm.trans htold)
    exact labelled_of_tellings (named_of_nameBody hnamed) htellings hfresh (starts_ascending hbody)
  · cases hread

/-- A method whose code is told has had its body read and told. -/
theorem body_of_tellMethod {skip : Skip} {d : MethodDeclaration} {attributes : MethodAttributes}
    {span : AttributeSpan} (h : Tell.Succeeds (image.tellMethod skip d attributes))
    (hskip : skip.code = false) (hspan : attributes.code = some span) :
    ∃ named, image.readNamedBody skip d span = .ok named ∧
      (image.tellBody named).trace.fault = none := by
  obtain ⟨-, h⟩ := h.then
  simp only [hspan, hskip, Bool.not_false, if_true] at h
  obtain ⟨named, hnamed, h⟩ := h.of
  obtain ⟨told, -, htells⟩ := tellBody_ok h.then.1
  exact ⟨named, hnamed, by rw [htells.trace_eq]⟩

/-- A `goto` over nothing to a `return`: one label, visited before the `return`. -/
theorem labels_visited_goto_return : ∃ image m span d named events body tables,
    parse (classWithCode [167, 0, 3, 177]) = .ok image ∧ image.TellsBody m span body ∧
      body.instructions = #[(0, .jump Opcode.goto 3), (3, .plain Opcode.return_void)] ∧
      image.readNamedBody {} d span = .ok named ∧
      (image.tellBody named).trace = ⟨events, none⟩ ∧ Function.Injective Label.number ∧
      Labelled Label.number body tables events := by
  obtain ⟨image, m, span, body, himage, h, hinstructions⟩ :=
    tellsBody_of_decodesTo (show decodesTo [167, 0, 3, 177]
      [(0, .jump Opcode.goto 3), (3, .plain Opcode.return_void)] = true by decide +kernel)
  obtain ⟨spans, attributes, told⟩ := told_of_events h.told
  obtain ⟨gathered, d, hgathered, -, htold⟩ := method_of_told told h.methods List.mem_cons_self
  have hlast := last_of_foldlM (fun t span t' ht => (addMethodAttribute_ok ht).code) hgathered
  rw [h.code] at hlast
  obtain ⟨named, hnamed, hfault⟩ := body_of_tellMethod (htold rfl) rfl hlast
  have htrace : (image.tellBody named).trace = ⟨(image.tellBody named).trace.events, none⟩ := by
    rw [← hfault]
  have hfresh : Function.Injective Label.number := fun _ _ h => congrArg Label.mk h
  obtain ⟨body', tables, hbody, -, hlabelled⟩ := labels_visited hnamed htrace hfresh
  obtain rfl := Except.ok.inj (h.stored.symm.trans hbody)
  exact ⟨image, m, span, d, named, _, body, tables, himage, h, hinstructions, hnamed, htrace, hfresh,
    hlabelled⟩

end Discipline

end ClassImage

end JvmClass
