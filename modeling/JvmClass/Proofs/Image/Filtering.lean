import JvmClass.Proofs.Image.Twins
import Mathlib.Data.List.TakeWhile

/-!
# Leaving out only leaves out

A reader that is asked to leave out code, what is there for debugging, or frames reports the same
events as one that leaves out nothing, but for those (`ClassImage.events_filtered`). Its labels are
other ones, since what is left out asks for none, so that the events of a method are compared by
place (`SameByPlace`).
-/

namespace JvmClass

open MethodBuilder (isInstruction)

namespace MethodEvent

def isCode : MethodEvent → Bool
  | .code => true
  | _ => false

def isMaxs : MethodEvent → Bool
  | .maxs .. => true
  | _ => false

end MethodEvent

namespace Skip

/-- Whether an event of a method is left out, its code apart. -/
def leavesOut (skip : Skip) : MethodEvent → Bool
  | .lineNumber .. | .localVariable .. => skip.debug
  | .codeAttribute a => skip.leavesAttribute a
  | .frame .. => skip.frames
  | _ => false

/-- The events of a method without its code, from the beginning of the code to its maximums. -/
def outsideCode (events : List MethodEvent) : List MethodEvent :=
  events.takeWhile (!·.isCode) ++ (events.dropWhile (!·.isMaxs)).tail

/-- The events of a method that are not left out. -/
def remaining (skip : Skip) (events : List MethodEvent) : List MethodEvent :=
  (if skip.code then outsideCode events else events).filter (!skip.leavesOut ·)

/-- Whether an event of a class is left out. -/
def leavesOutOfClass (skip : Skip) : ClassEvent → Bool
  | .sourceFile _ => skip.debug
  | _ => false

/-- One event is what is left of another one: the same, or that of the same method with what is left
of its events, by place. -/
def LeavesOf (skip : Skip) : ClassEvent → ClassEvent → Prop
  | .method d full, event => ∃ part, event = .method d part ∧ SameByPlace (skip.remaining full) part
  | full, event => event = full

end Skip

section Locating

variable {size : Nat} {starts : List Nat} {events : List MethodEvent}

theorem locate_filter {keep : MethodEvent → Bool}
    (h : ∀ event, isInstruction event = true → keep event = true) :
    locate size starts (events.filter keep) =
      (locate size starts events).filter fun x => keep x.2 := by
  induction events generalizing starts with
  | nil => rfl
  | cons event rest ih =>
    rw [locate, List.filter_cons, List.filter_cons]
    split
    · rw [locate, ih]
    · rename_i hkeep
      rw [if_neg fun hi => hkeep (h event hi), ih]

theorem locate_relabel {name : Label → Label} :
    locate size starts (events.map (·.relabel name)) =
      relabelAll name (locate size starts events) := by
  induction events generalizing starts with
  | nil => rfl
  | cons event rest ih =>
    rw [List.map_cons, locate, locate, ih, MethodEvent.isInstruction_relabel]
    rfl

theorem locate_append (others : List MethodEvent) : locate size starts (events ++ others) =
    locate size starts events ++
      locate size (starts.drop (events.filter isInstruction).length) others := by
  induction events generalizing starts with
  | nil => rfl
  | cons event rest ih =>
    rw [List.cons_append, locate, locate, ih, List.cons_append, List.filter_cons]
    split
    · rw [List.length_cons, ← List.drop_tail]
    · rfl

theorem map_snd_locate : (locate size starts events).map Prod.snd = events := by
  induction events generalizing starts with
  | nil => rfl
  | cons event rest ih => rw [locate, List.map_cons, ih]

/-- What a method holds beside its code. -/
def MethodEvent.isOutside : MethodEvent → Bool
  | .annotated .. | .attribute _ | .finish => true
  | _ => false

/-- What is told beside the code says nothing about it, and is never left out. -/
structure MethodEvent.Beside (event : MethodEvent) : Prop where
  label : event.label? = none
  refers : event.refers = []
  describes : event.describesNext = false
  instruction : isInstruction event = false
  code : event.isCode = false
  maxs : event.isMaxs = false
  compared : ∀ along p, isCompared along (p, event) = true
  relabel : ∀ name, event.relabel name = event
  stays : ∀ skip : Skip, skip.leavesOut event = false

theorem MethodEvent.beside {event : MethodEvent} (h : event.isOutside = true) : event.Beside := by
  cases event <;> first | exact
    ⟨rfl, rfl, rfl, rfl, rfl, rfl, fun _ _ => rfl, fun _ => rfl, fun _ => rfl⟩ | cases h

variable {a c : List (Nat × MethodEvent)}

/-- What is told beside the code has nothing to do with its places. -/
theorem byPlace_context (ha : ∀ x ∈ a, x.2.isOutside = true) (hc : ∀ x ∈ c, x.2.isOutside = true)
    (b : List (Nat × MethodEvent)) :
    byPlace (a ++ (b ++ c)) = a.map Prod.snd ++ (byPlace b ++ c.map Prod.snd) := by
  have hplace (label : Label) : placeOf (a ++ (b ++ c)) label = placeOf b label := by
    unfold placeOf
    rw [ClassImage.visits_append, ClassImage.visits_append,
      ClassImage.visits_eq_nil fun x hx => (MethodEvent.beside (ha x hx)).label,
      ClassImage.visits_eq_nil fun x hx => (MethodEvent.beside (hc x hx)).label, List.nil_append,
      List.append_nil]
  have hneeded (p : Nat) : isNeeded (a ++ (b ++ c)) p = isNeeded b p := by
    have hnone {d : List (Nat × MethodEvent)} (hd : ∀ x ∈ d, x.2.isOutside = true)
        {test : Nat × MethodEvent → Bool} (htest : ∀ x, x.2.describesNext = false →
          x.2.refers = [] → test x = false) : d.any test = false :=
      List.any_eq_false.2 fun x hx => by
        have hbeside := MethodEvent.beside (hd x hx)
        simp [htest x hbeside.describes hbeside.refers]
    unfold isNeeded
    simp only [hplace]
    rw [List.any_append, List.any_append, hnone ha, hnone hc, Bool.false_or, Bool.or_false]
    all_goals
      intro x hnext hrefers
      simp [hnext, hrefers]
  have hcompared : isCompared (a ++ (b ++ c)) = isCompared b := by
    funext x
    unfold isCompared
    rw [hneeded]
  have hname : nameIn (a ++ (b ++ c)) = nameIn b := by
    funext label
    unfold nameIn
    rw [hplace]
  have hself {d : List (Nat × MethodEvent)} (hd : ∀ x ∈ d, x.2.isOutside = true) :
      (d.filter (isCompared b)).map (fun x => x.2.relabel (nameIn b)) = d.map Prod.snd := by
    rw [List.filter_eq_self.2]
    · exact List.map_congr_left fun x hx => (MethodEvent.beside (hd x hx)).relabel _
    · exact fun x hx => (MethodEvent.beside (hd x hx)).compared b x.1
  unfold byPlace
  rw [hcompared, hname, List.filter_append, List.filter_append, List.map_append, List.map_append,
    hself ha, hself hc]

theorem SameByPlace.context {before after events events' : List MethodEvent}
    (hbefore : ∀ event ∈ before, event.isOutside = true)
    (hafter : ∀ event ∈ after, event.isOutside = true) (h : SameByPlace events events') :
    SameByPlace (before ++ (events ++ after)) (before ++ (events' ++ after)) := by
  have hnone {others : List MethodEvent} (hothers : ∀ event ∈ others, event.isOutside = true) :
      others.filter isInstruction = [] :=
    List.filter_eq_nil_iff.2 fun event hevent => by
      simp [(MethodEvent.beside (hothers event hevent)).instruction]
  intro starts size hascending hcount
  rw [List.filter_append, List.filter_append, hnone hbefore, hnone hafter, List.nil_append,
    List.append_nil] at hcount
  have hsplit (b : List MethodEvent) : byPlace (locate size starts (before ++ (b ++ after))) =
      before ++ (byPlace (locate size starts b) ++ after) := by
    rw [ClassImage.locate_quiet fun event hevent =>
        (MethodEvent.beside (hbefore event hevent)).instruction, locate_append,
      byPlace_context, map_snd_locate, List.map_map, Function.comp_def, List.map_id']
    · intro x hx
      obtain ⟨event, hevent, rfl⟩ := List.mem_map.1 hx
      exact hbefore event hevent
    · intro x hx
      have := List.mem_map_of_mem (f := Prod.snd) hx
      rw [map_snd_locate] at this
      exact hafter _ this
  rw [hsplit, hsplit, h starts size hascending hcount]

end Locating

namespace ClassImage

variable {image : ClassImage} {skip : Skip} {full part : NamedBody} {name : Label → Label}

theorem instructionEvent_map (i : Instruction Label) :
    image.instructionEvent (i.map name) = (image.instructionEvent i).map (·.relabel name) := by
  cases i with
  | typeOperand op cls =>
    show (image.cls cls >>= _) = Except.map _ (image.cls cls >>= _)
    cases image.cls cls <;> rfl
  | field op member =>
    show (image.member member >>= _) = Except.map _ (image.member member >>= _)
    cases image.member member <;> rfl
  | method op member =>
    show (image.member member >>= _) = Except.map _ (image.member member >>= _)
    cases image.member member <;> rfl
  | load constant =>
    show (image.loadable constant >>= _) = Except.map _ (image.loadable constant >>= _)
    cases image.loadable constant <;> rfl
  | newMultiArray cls dimensions =>
    show (image.cls cls >>= _) = Except.map _ (image.cls cls >>= _)
    cases image.cls cls <;> rfl
  | invokeDynamic site =>
    show (image.constant site >>= _) = Except.map _ (image.constant site >>= _)
    cases image.constant site with
    | error e => rfl
    | ok constant =>
      cases constant with
      | invokeDynamic position member =>
        show (image.nameAndType member >>= _) = Except.map _ (image.nameAndType member >>= _)
        cases image.nameAndType member with
        | error e => rfl
        | ok nameAndType =>
          show (image.bootstrap position >>= _) = Except.map _ (image.bootstrap position >>= _)
          cases image.bootstrap position <;> rfl
      | _ => rfl
  | _ => rfl

/-- What is left of events when what is left out and some visits go. -/
def left (skip : Skip) (keep : Label → Bool) (events : List MethodEvent) : List MethodEvent :=
  (events.filter (!skip.leavesOut ·)).filter (isKept keep)

theorem left_append (skip : Skip) (keep : Label → Bool) (a b : List MethodEvent) :
    left skip keep (a ++ b) = left skip keep a ++ left skip keep b := by
  unfold left
  rw [List.filter_append, List.filter_append]

/-- Events of which none is left out stay. -/
theorem left_eq_self {keep : Label → Bool} {events : List MethodEvent}
    (h : ∀ event ∈ events, skip.leavesOut event = false ∧ isKept keep event = true) :
    left skip keep events = events := by
  unfold left
  rw [List.filter_filter]
  refine List.filter_eq_self.2 fun event hevent => ?_
  rw [(h event hevent).1, (h event hevent).2]
  rfl

theorem left_eq_nil {keep : Label → Bool} {events : List MethodEvent}
    (h : ∀ event ∈ events, skip.leavesOut event = true ∨ isKept keep event = false) :
    left skip keep events = [] := by
  unfold left
  rw [List.filter_filter]
  refine List.filter_eq_nil_iff.2 fun event hevent => ?_
  rcases h event hevent with h | h <;> simp [h]

section Bodies

variable {keep : Label → Bool}

/-- The labels that are kept are those that the body without what is left out has as well. -/
def KeepsNamed (keep : Label → Bool) (full part : NamedBody) : Prop :=
  ∀ offset label, full.places.get? offset = some label →
    (keep label = true ↔ ∃ label', part.places.get? offset = some label')

theorem leaves_eventsBefore (h : Renamed skip name full part) (hkeep : KeepsNamed keep full part)
    (offset : Nat) : left skip keep (eventsBefore full offset) =
      (eventsBefore part offset).map (·.relabel name) := by
  have hlines := h.lines offset
  have hframes := h.frames offset
  cases hpart : part.places.get? offset with
  | none =>
    -- Where the rest names no place, it has neither lines nor a frame.
    have hnolines : part.lines.getD offset #[] = #[] := by
      by_contra hne
      obtain ⟨label, hlabel⟩ := h.linesNamed offset hne
      rw [hpart] at hlabel
      cases hlabel
    have hnoframe : part.frames[offset]? = none := by
      by_contra hne
      obtain ⟨layout, hlayout⟩ := Option.ne_none_iff_exists'.1 hne
      obtain ⟨label, hlabel⟩ := h.framesNamed offset layout hlayout
      rw [hpart] at hlabel
      cases hlabel
    rw [hnolines] at hlines
    rw [hnoframe, Option.map_none] at hframes
    have hnothing : eventsBefore part offset = [] := by
      unfold eventsBefore
      rw [hpart]
    rw [hnothing, List.map_nil]
    refine left_eq_nil fun event hevent => ?_
    obtain ⟨label, hlabel, rfl | ⟨line, hline, rfl⟩ | ⟨layout, hlayout, rfl⟩⟩ :=
      mem_eventsBefore hevent
    · right
      refine Bool.eq_false_iff.2 fun hkept => ?_
      obtain ⟨label', hlabel'⟩ := (hkeep offset label hlabel).1 hkept
      rw [hpart] at hlabel'
      cases hlabel'
    · left
      show skip.debug = true
      by_contra hdebug
      rw [if_neg hdebug] at hlines
      rw [← hlines] at hline
      cases hline
    · left
      show skip.frames = true
      by_contra hskip
      rw [if_neg hskip, hlayout] at hframes
      cases hframes
  | some label =>
    have hfull := h.places offset label hpart
    have hkept : keep (name label) = true := (hkeep offset _ hfull).2 ⟨label, hpart⟩
    have hbefore : eventsBefore full offset = [.label (name label)] ++
        (((full.lines.getD offset #[]).toList.map fun line => .lineNumber line (name label)) ++
          (full.frames[offset]?).toList.map fun frame => .frame frame.locals frame.stack) := by
      unfold eventsBefore
      rw [hfull]
      cases full.frames[offset]? <;> simp
    have hbefore' : eventsBefore part offset = [.label label] ++
        (((part.lines.getD offset #[]).toList.map fun line => .lineNumber line label) ++
          (part.frames[offset]?).toList.map fun frame => .frame frame.locals frame.stack) := by
      unfold eventsBefore
      rw [hpart]
      cases part.frames[offset]? <;> simp
    rw [hbefore, hbefore', left_append, left_append, List.map_append, List.map_append]
    congr 1
    · exact left_eq_self fun event hevent => by
        obtain rfl := List.mem_singleton.1 hevent
        exact ⟨rfl, hkept⟩
    congr 1
    · rw [hlines]
      split
      · rename_i hdebug
        refine left_eq_nil fun event hevent => ?_
        obtain ⟨line, -, rfl⟩ := List.mem_map.1 hevent
        exact Or.inl hdebug
      · rename_i hdebug
        rw [left_eq_self, List.map_map]
        · rfl
        · intro event hevent
          obtain ⟨line, -, rfl⟩ := List.mem_map.1 hevent
          exact ⟨Bool.eq_false_iff.2 hdebug, rfl⟩
    · split at hframes
      · rename_i hskip
        rw [Option.map_eq_none_iff.1 hframes]
        refine left_eq_nil fun event hevent => ?_
        obtain ⟨layout, -, rfl⟩ := List.mem_map.1 hevent
        exact Or.inl hskip
      · rename_i hskip
        rw [← hframes, left_eq_self]
        · cases part.frames[offset]? <;> rfl
        · intro event hevent
          obtain ⟨layout, -, rfl⟩ := List.mem_map.1 hevent
          exact ⟨Bool.eq_false_iff.2 hskip, rfl⟩

theorem leaves_instruction (skip : Skip) {event : MethodEvent} (h : isInstruction event = true) :
    skip.leavesOut event = false := by
  cases event <;> first | rfl | cases h

theorem isKept_instruction (keep : Label → Bool) {event : MethodEvent}
    (h : isInstruction event = true) : isKept keep event = true := by
  cases event <;> first | rfl | cases h

/-- What is told at the instructions of a body is told without what is left out as well. -/
theorem tellings_of_renamed (h : Renamed skip name full part) (hkeep : KeepsNamed keep full part)
    {instructions : List (Nat × Instruction Label)} {told : List (Nat × MethodEvent)}
    (htold : Tellings image full (instructions.map fun x => (x.1, x.2.map name)) told) :
    ∃ told', Tellings image part instructions told' ∧
      left skip keep (told.map Prod.snd) = (told'.map Prod.snd).map (·.relabel name) := by
  induction instructions generalizing told with
  | nil =>
    cases htold
    exact ⟨[], .nil, rfl⟩
  | cons x rest ih =>
    cases htold with
    | @cons _ event _ others tells htold =>
      obtain ⟨others', hothers, hleft⟩ := ih htold
      have hinstruction := (instructionEvent_ok tells).1
      have htells : (image.instructionEvent x.2).map (·.relabel name) = .ok event :=
        (instructionEvent_map x.2).symm.trans tells
      obtain ⟨event', htells', rfl⟩ : ∃ event', image.instructionEvent x.2 = .ok event' ∧
          event'.relabel name = event := by
        cases hx : image.instructionEvent x.2 with
        | error e => rw [hx] at htells; cases htells
        | ok event' =>
          rw [hx] at htells
          exact ⟨event', rfl, Except.ok.inj htells⟩
      refine ⟨_, .cons htells' hothers, ?_⟩
      rw [List.map_append, List.map_map, Function.comp_def, List.map_id', List.map_cons,
        List.map_append, List.map_map, Function.comp_def, List.map_id', left_append,
        leaves_eventsBefore h hkeep, List.map_append, List.map_cons, List.map_cons, ← hleft]
      congr 1
      exact (left_append skip keep [_] _).trans (congrArg (· ++ _)
        (left_eq_self fun e he => List.mem_singleton.1 he ▸
          ⟨leaves_instruction skip hinstruction, isKept_instruction keep hinstruction⟩))

/-- The events of a body, with what is told at its instructions. -/
def bodyEvents (named : NamedBody) (told : List (Nat × MethodEvent)) : List MethodEvent :=
  eventsAhead named ++ (told.map Prod.snd ++ eventsBehind named)

/-- Events but for those that make labels. -/
def unmade (events : List MethodEvent) : List MethodEvent := events.filter (isKept fun _ => true)

theorem unmade_eq_self {events : List MethodEvent}
    (h : ∀ event ∈ events, isKept (fun _ => true) event = true) : unmade events = events :=
  List.filter_eq_self.2 h

theorem leaves_ahead (h : Renamed skip name full part) : left skip keep (eventsAhead full) =
    (unmade (eventsAhead part)).map (·.relabel name) := by
  have hahead : left skip keep (eventsAhead full) = .code ::
      full.handlers.map fun h => .handler h.start h.stop h.handler h.catchType := by
    show left skip keep (.code :: full.handlers.map
      fun h => .handler h.start h.stop h.handler h.catchType) = _
    refine left_eq_self fun event hevent => ?_
    rcases List.mem_cons.1 hevent with rfl | hevent
    · exact ⟨rfl, rfl⟩
    · obtain ⟨range, -, rfl⟩ := List.mem_map.1 hevent
      exact ⟨rfl, rfl⟩
  have hahead' : unmade (eventsAhead part) = .code ::
      part.handlers.map fun h => .handler h.start h.stop h.handler h.catchType := by
    show unmade (.code :: part.handlers.map
      fun h => .handler h.start h.stop h.handler h.catchType) = _
    refine unmade_eq_self fun event hevent => ?_
    rcases List.mem_cons.1 hevent with rfl | hevent
    · rfl
    · obtain ⟨range, -, rfl⟩ := List.mem_map.1 hevent
      rfl
  rw [hahead, hahead', h.handlers, List.map_cons, List.map_map, List.map_map]
  rfl

theorem leaves_after (h : Renamed skip name full part) : left skip keep (eventsAfter full) =
    (eventsAfter part).map (·.relabel name) := by
  have hvars := h.vars
  unfold eventsAfter
  rw [left_append, left_append, List.map_append, List.map_append]
  congr 1
  · split at hvars
    · rename_i hdebug
      rw [hvars]
      refine left_eq_nil fun event hevent => ?_
      obtain ⟨v, -, rfl⟩ := List.mem_map.1 hevent
      exact Or.inl hdebug
    · rename_i hdebug
      rw [left_eq_self, hvars, List.map_map, List.map_map]
      · rfl
      · intro event hevent
        obtain ⟨v, -, rfl⟩ := List.mem_map.1 hevent
        exact ⟨Bool.eq_false_iff.2 hdebug, rfl⟩
  congr 1
  · unfold left
    rw [h.attributes, List.filter_map, List.filter_map, List.map_map]
    have hkept : ∀ attributes : List RawAttribute,
        attributes.filter (isKept keep ∘ MethodEvent.codeAttribute) = attributes :=
      fun attributes => List.filter_eq_self.2 fun _ _ => rfl
    rw [hkept]
    rfl
  · rw [left_eq_self, h.maxs.1, h.maxs.2]
    · rfl
    · intro event hevent
      obtain rfl := List.mem_singleton.1 hevent
      exact ⟨rfl, rfl⟩

theorem leaves_behind (h : Renamed skip name full part) (hkeep : KeepsNamed keep full part) :
    left skip keep (eventsBehind full) = (eventsBehind part).map (·.relabel name) := by
  unfold eventsBehind
  rw [left_append, leaves_after h, List.map_append, h.size]
  congr 1
  cases hpart : part.places.get? part.size with
  | some label =>
    have hfull := h.places _ label hpart
    have hkept := (hkeep _ _ hfull).2 ⟨label, hpart⟩
    rw [hfull]
    exact left_eq_self fun event hevent => by
      obtain rfl := List.mem_singleton.1 hevent
      exact ⟨rfl, hkept⟩
  | none =>
    refine left_eq_nil fun event hevent => ?_
    obtain ⟨label, hlabel, rfl⟩ := List.mem_map.1 hevent
    right
    refine Bool.eq_false_iff.2 fun hkept => ?_
    obtain ⟨label', hlabel'⟩ := (hkeep _ label (by simpa using hlabel)).1 hkept
    rw [hpart] at hlabel'
    cases hlabel'

theorem unmade_told {named : NamedBody} {instructions : List (Nat × Instruction Label)}
    {told : List (Nat × MethodEvent)} (htold : Tellings image named instructions told) :
    unmade (told.map Prod.snd) = told.map Prod.snd := by
  refine unmade_eq_self fun event hevent => ?_
  obtain ⟨⟨p, event⟩, hmem, rfl⟩ := List.mem_map.1 hevent
  rcases htold.mem hmem with hbefore | ⟨i, -, htells⟩
  · obtain ⟨label, -, rfl | ⟨line, -, rfl⟩ | ⟨layout, -, rfl⟩⟩ := mem_eventsBefore hbefore <;> rfl
  · exact isKept_instruction _ (instructionEvent_ok htells).1

theorem unmade_behind (named : NamedBody) : unmade (eventsBehind named) = eventsBehind named := by
  refine unmade_eq_self fun event hevent => ?_
  rcases mem_eventsBehind hevent with ⟨label, rfl⟩ | h
  · rfl
  · obtain ⟨v, -, rfl⟩ | ⟨a, rfl⟩ | rfl := mem_eventsAfter h <;> rfl

/-- A body without what is left out is told as what is left of the whole body, with other labels. -/
theorem leaves_body (h : Renamed skip name full part) (hkeep : KeepsNamed keep full part)
    {told : List (Nat × MethodEvent)} (htold : Tellings image full full.instructions told) :
    ∃ told', Tellings image part part.instructions told' ∧
      left skip keep (bodyEvents full told) =
        (unmade (bodyEvents part told')).map (·.relabel name) := by
  rw [h.instructions] at htold
  obtain ⟨told', htold', hleft⟩ := tellings_of_renamed h hkeep htold
  refine ⟨told', htold', ?_⟩
  unfold bodyEvents
  have hunmade : unmade (eventsAhead part ++ (told'.map Prod.snd ++ eventsBehind part)) =
      unmade (eventsAhead part) ++ (told'.map Prod.snd ++ eventsBehind part) := by
    conv_rhs => rw [← unmade_told htold', ← unmade_behind part]
    unfold unmade
    rw [List.filter_append, List.filter_append]
  rw [left_append, left_append, leaves_ahead h, leaves_behind h hkeep, hleft, hunmade,
    List.map_append, List.map_append]

end Bodies

section Comparing

variable {body : StoredBody} {tables : BodyTables} {told : List (Nat × MethodEvent)}

theorem count_told {named : NamedBody} {instructions : List (Nat × Instruction Label)}
    (htold : Tellings image named instructions told) :
    ((told.map Prod.snd).filter isInstruction).length = instructions.length := by
  induction htold with
  | nil => rfl
  | @cons x event rest told tells _ ih =>
    have hquiet : (eventsBefore named x.1).filter isInstruction = [] :=
      List.filter_eq_nil_iff.2 fun e he => by simp [eventsBefore_quiet e he]
    rw [List.map_append, List.map_map, Function.comp_def, List.map_id', List.filter_append, hquiet,
      List.map_cons, List.nil_append, List.filter_cons, if_pos (instructionEvent_ok tells).1,
      List.length_cons, ih, List.length_cons]

theorem count_body {named : NamedBody} (htold : Tellings image named named.instructions told) :
    ((bodyEvents named told).filter isInstruction).length = named.instructions.length := by
  have hquiet (events : List MethodEvent) (h : ∀ event ∈ events, isInstruction event = false) :
      events.filter isInstruction = [] :=
    List.filter_eq_nil_iff.2 fun event hevent => by simp [h event hevent]
  unfold bodyEvents
  rw [List.filter_append, List.filter_append, hquiet _ eventsAhead_quiet,
    hquiet _ eventsBehind_quiet, List.nil_append, List.append_nil, count_told htold]

/-- Leaving out takes no instruction. -/
theorem filter_isInstruction (skip : Skip) (events : List MethodEvent) :
    (events.filter (!skip.leavesOut ·)).filter isInstruction = events.filter isInstruction := by
  rw [List.filter_filter]
  refine List.filter_congr fun event _ => ?_
  cases hi : isInstruction event with
  | false => rfl
  | true => rw [leaves_instruction skip hi]; rfl

/-- A label comes where it has been named. -/
theorem named_of_visit {named : NamedBody} (hnamed : Named named body tables)
    (htold : Tellings image named named.instructions told) {p : Nat} {label : Label}
    (h : (p, .label label) ∈ body.located (bodyEvents named told)) :
    named.places.get? p = some label := by
  have hvisit : (p, label) ∈ visits id (body.located (bodyEvents named told)) := mem_visits.2 h
  unfold bodyEvents at hvisit
  rw [visits_located hnamed htold] at hvisit
  obtain ⟨-, label', hlabel', he⟩ := mem_labelsAlong.1 hvisit
  rw [hlabel', show label = label' from he]

/-- Every label in the events of a body is that of a place. -/
theorem named_of_labels {named : NamedBody} (hnamed : Named named body tables)
    (htold : Tellings image named named.instructions told) {x : Nat × MethodEvent}
    (hx : x ∈ body.located (bodyEvents named told)) {label : Label} (hlabel : label ∈ x.2.labels) :
    ∃ p, named.places.get? p = some label := by
  rcases List.mem_append.1 hlabel with hvisited | hrefers
  · obtain ⟨p, event⟩ := x
    cases event <;> simp only [MethodEvent.label?, Option.toList_none, Option.toList_some,
      List.not_mem_nil, List.mem_singleton] at hvisited
    subst hvisited
    exact ⟨p, named_of_visit hnamed htold hx⟩
  · refine htold.refers hnamed ?_ hrefers
    have := List.mem_map_of_mem (f := Prod.snd) hx
    unfold StoredBody.located at this
    rwa [map_snd_locate] at this

/-- Where a line or a frame is not left out, the rest has a label. -/
theorem named_of_next (h : Renamed skip name full part) {p : Nat} {event : MethodEvent}
    (hbefore : event ∈ eventsBefore full p) (hnext : event.describesNext = true)
    (hstays : skip.leavesOut event = false) : ∃ label, part.places.get? p = some label := by
  have hlines := h.lines p
  have hframes := h.frames p
  obtain ⟨label, -, rfl | ⟨line, hline, rfl⟩ | ⟨layout, hlayout, rfl⟩⟩ := mem_eventsBefore hbefore
  · cases hnext
  · have hdebug : ¬ skip.debug = true := Bool.eq_false_iff.1 hstays
    rw [if_neg hdebug] at hlines
    refine h.linesNamed p fun hempty => ?_
    rw [← hlines, hempty] at hline
    cases hline
  · have hskip : ¬ skip.frames = true := Bool.eq_false_iff.1 hstays
    rw [if_neg hskip, hlayout] at hframes
    obtain ⟨found, hfound, -⟩ := Option.map_eq_some_iff.1 hframes
    exact h.framesNamed p found hfound

variable {others : BodyTables}

/-- The events of a body without what is left out are what is left of those of the whole body. -/
theorem sameByPlace_body (hfull : Named full body tables) (hpart : Named part body others)
    (h : Renamed skip name full part) (hascending : (body.starts ++ [body.size]).Pairwise (· < ·))
    (htold : Tellings image full full.instructions told) :
    ∃ told', Tellings image part part.instructions told' ∧
      SameByPlace ((bodyEvents full told).filter (!skip.leavesOut ·)) (bodyEvents part told') := by
  classical
  let keep : Label → Bool := fun label =>
    decide (∃ p label', part.places.get? p = some label' ∧ full.places.get? p = some label)
  have hkeep : KeepsNamed keep full part := by
    intro p label hp
    simp only [keep, decide_eq_true_eq]
    constructor
    · rintro ⟨q, label', hq, hq'⟩
      exact ⟨label', hfull.sound.injective q p label hq' hp ▸ hq⟩
    · rintro ⟨label', hlabel'⟩
      exact ⟨p, label', hlabel', hp⟩
  obtain ⟨told', htold', hleft⟩ := leaves_body h hkeep htold
  refine ⟨told', htold', .of_offsets hascending ?_ ?_⟩
  · rw [filter_isInstruction, count_body htold, starts_eq hfull, List.length_map]
  let rest := (bodyEvents full told).filter (!skip.leavesOut ·)
  have hrest : body.located rest =
      (body.located (bodyEvents full told)).filter fun x => !skip.leavesOut x.2 :=
    locate_filter fun event hi => by rw [leaves_instruction skip hi]; rfl
  -- What is needed is what the rest refers to, or describes, and that has a label there.
  have hdrop : ∀ p label, (p, .label label) ∈ body.located rest → keep label = false →
      isNeeded (body.located rest) p = false := by
    intro p label hp hdropped
    rw [hrest] at hp
    have hplace := named_of_visit hfull htold (List.mem_of_mem_filter hp)
    refine Bool.eq_false_iff.2 fun hneeded => ?_
    rw [(hkeep p label hplace).2] at hdropped
    · cases hdropped
    obtain ⟨x, hx, ⟨hnext, rfl⟩ | ⟨referred, hrefers, hreferred⟩⟩ := isNeeded_iff.1 hneeded
    · rw [hrest] at hx
      obtain ⟨hx, hstays⟩ := List.mem_filter.1 hx
      exact named_of_next h (mem_before hfull htold hx hnext) hnext (by simpa using hstays)
    · have hvisit := visited_of_placeOf hreferred
      rw [hrest] at hvisit
      have hsame := named_of_visit hfull htold (List.mem_of_mem_filter hvisit)
      obtain rfl : referred = label := Option.some.inj (hsame.symm.trans hplace)
      -- An event that refers to a label is one of the rest, with other labels.
      have hmem : x.2 ∈ left skip keep (bodyEvents full told) := by
        refine List.mem_filter.2 ⟨?_, ?_⟩
        · have := List.mem_map_of_mem (f := Prod.snd) hx
          unfold StoredBody.located at this
          rwa [map_snd_locate] at this
        · by_contra hkept
          rw [(quiet_of_not_isKept (Bool.eq_false_iff.2 hkept)).1] at hrefers
          cases hrefers
      rw [hleft] at hmem
      obtain ⟨event, hevent, he⟩ := List.mem_map.1 hmem
      rw [← he, MethodEvent.refers_relabel] at hrefers
      obtain ⟨own, hown, rfl⟩ := List.mem_map.1 hrefers
      obtain ⟨q, hq⟩ := htold'.refers hpart (List.mem_of_mem_filter hevent) hown
      have hq' := hfull.sound.injective q p _ (h.places q own hq) hplace
      exact ⟨own, hq' ▸ hq⟩
  have hlocated (keep : Label → Bool) (events : List MethodEvent) :
      (body.located events).filter (fun x => isKept keep x.2) =
        body.located (events.filter (isKept keep)) :=
    (locate_filter fun event hi => isKept_instruction keep hi).symm
  have hapart : NamesApart name (body.located (unmade (bodyEvents part told'))) := by
    intro x hx y hy l hl m hm he
    have hsub : ∀ z ∈ body.located (unmade (bodyEvents part told')),
        z ∈ body.located (bodyEvents part told') := fun z hz =>
      List.mem_of_mem_filter (hlocated (fun _ => true) (bodyEvents part told') ▸ hz)
    obtain ⟨p, hp⟩ := named_of_labels hpart htold' (hsub x hx) hl
    obtain ⟨q, hq⟩ := named_of_labels hpart htold' (hsub y hy) hm
    have hfp := h.places p l hp
    have hfq := h.places q m hq
    rw [he] at hfp
    obtain rfl := hfull.sound.injective p q _ hfp hfq
    exact Option.some.inj (hp.symm.trans hq)
  calc byPlace (body.located rest)
      = byPlace ((body.located rest).filter fun x => isKept keep x.2) := (byPlace_filter hdrop).symm
    _ = byPlace (body.located ((unmade (bodyEvents part told')).map (·.relabel name))) := by
        rw [hlocated, ← hleft]
        rfl
    _ = byPlace (relabelAll name (body.located (unmade (bodyEvents part told')))) := by
        unfold StoredBody.located
        rw [locate_relabel]
    _ = byPlace (body.located (unmade (bodyEvents part told'))) := byPlace_relabel hapart
    _ = byPlace (body.located (bodyEvents part told')) := by
        unfold unmade
        rw [← hlocated]
        exact byPlace_filter fun _ _ _ h => nomatch h

end Comparing

section Methods

open Tell (Tells Succeeds)

theorem Tellings.tells {named : NamedBody} {instructions : List (Nat × Instruction Label)}
    {told : List (Nat × MethodEvent)} (htold : Tellings image named instructions told) :
    Tells (image.tellInstructions named instructions) (told.map Prod.snd) := by
  induction htold with
  | nil => exact Tell.tells_nothing
  | @cons x event rest told tells _ ih =>
    rw [List.map_append, List.map_map, Function.comp_def, List.map_id']
    exact (Tell.tells_all _).then (.of tells ((Tell.tells_event event).then ih))

theorem tells_bodyEvents {named : NamedBody} {told : List (Nat × MethodEvent)}
    (htold : Tellings image named named.instructions told) :
    Tells (image.tellBody named) (bodyEvents named told) := by
  refine (Tell.tells_event _).then ((Tell.tells_event _).then ((Tell.tells_all _).then
    (htold.tells.then ?_)))
  unfold eventsBehind eventsAfter
  cases named.places.get? named.size with
  | none => exact (Tell.tells_all _).then ((Tell.tells_all _).then (Tell.tells_event _))
  | some label =>
    exact (Tell.tells_event _).then ((Tell.tells_all _).then ((Tell.tells_all _).then
      (Tell.tells_event _)))

/-- A body that is read and told is so without what is left out. -/
theorem filtered_code {d : MethodDeclaration} {span : AttributeSpan}
    (hread : image.readNamedBody skip.unflagged d span = .ok full)
    (h : Succeeds (image.tellBody full)) :
    ∃ part body tables told told', image.readNamedBody skip d span = .ok part ∧
      Named full body tables ∧ Tellings image full full.instructions told ∧
      Tells (image.tellBody full) (bodyEvents full told) ∧
      Tells (image.tellBody part) (bodyEvents part told') ∧
      SameByPlace ((bodyEvents full told).filter (!skip.leavesOut ·)) (bodyEvents part told') := by
  obtain ⟨body, hbody, hread⟩ := Step.except_bind_ok.1 hread
  obtain ⟨tables, htables, hread⟩ := Step.except_bind_ok.1 hread
  split at hread
  case h_2 => cases hread
  rename_i named s hnamed
  cases hread
  have hempty : Trimmed skip ⟨#[], #[], [], #[]⟩ ⟨#[], #[], [], #[]⟩ := by
    constructor <;> simp
  obtain ⟨others, hothers, htrimmed⟩ := trimmed_foldlM hempty htables
  obtain ⟨part, s', hpart, name, hrenamed⟩ := renamed_of_nameBody htrimmed hnamed
  obtain ⟨told, htold, -⟩ := tellBody_ok h
  obtain ⟨told', htold', hsame⟩ := sameByPlace_body (named_of_nameBody hnamed)
    (named_of_nameBody hpart) hrenamed (starts_ascending hbody) htold
  refine ⟨part, body, tables, told, told', ?_, named_of_nameBody hnamed, htold,
    tells_bodyEvents htold, tells_bodyEvents htold', hsame⟩
  refine Step.except_bind_ok.2 ⟨body, hbody, Step.except_bind_ok.2 ⟨others, hothers, ?_⟩⟩
  rw [hpart]
  rfl

/-- Leaving out the code of a method leaves what it holds beside that, and the labels made. -/
theorem outsideCode_body {named : NamedBody} {body : StoredBody} {tables : BodyTables}
    {told : List (Nat × MethodEvent)} (hnamed : Named named body tables)
    (htold : Tellings image named named.instructions told) {before after : List MethodEvent}
    (hbefore : ∀ event ∈ before, event.isOutside = true) :
    Skip.outsideCode (before ++ (bodyEvents named told ++ after)) =
      before ++ ([.newLabels named.places.count] ++ after) := by
  have hcode : ∀ event ∈ before, (!event.isCode) = true := by
    intro event hevent
    rw [(MethodEvent.beside (hbefore event hevent)).code]
    rfl
  obtain ⟨front, hfront, hmaxs⟩ := last_maxs hnamed htold
  have hnomaxs : ∀ event ∈ before ++ front, (!event.isMaxs) = true := by
    intro event hevent
    rcases List.mem_append.1 hevent with hevent | hevent
    · rw [(MethodEvent.beside (hbefore event hevent)).maxs]
      rfl
    · cases event with
      | maxs stack locals => exact absurd hevent (hmaxs stack locals)
      | _ => rfl
  have htake : (before ++ (bodyEvents named told ++ after)).takeWhile (!·.isCode) =
      before ++ [.newLabels named.places.count] := by
    rw [List.takeWhile_append_of_pos hcode]
    rfl
  have hdrop : (before ++ (bodyEvents named told ++ after)).dropWhile (!·.isMaxs) =
      .maxs body.maxStack body.maxLocals :: after := by
    unfold bodyEvents
    rw [hfront, List.append_assoc, ← List.append_assoc before, List.dropWhile_append_of_pos hnomaxs]
    rfl
  unfold Skip.outsideCode
  rw [htake, hdrop, List.append_assoc]
  rfl

theorem outsideCode_eq_self {events : List MethodEvent}
    (h : ∀ event ∈ events, event.isOutside = true) : Skip.outsideCode events = events := by
  have hnone : ∀ event ∈ events, (!event.isCode) = true ∧ (!event.isMaxs) = true := by
    intro event hevent
    have hbeside := MethodEvent.beside (h event hevent)
    rw [hbeside.code, hbeside.maxs]
    exact ⟨rfl, rfl⟩
  unfold Skip.outsideCode
  rw [List.takeWhile_eq_self_iff.2 fun event hevent => (hnone event hevent).1,
    List.dropWhile_eq_nil_iff.2 fun event hevent => (hnone event hevent).2]
  exact List.append_nil _

/-- The events of a method without what is left out are what is left of all of its events. -/
theorem filtered_method {d : MethodDeclaration} {attributes : MethodAttributes}
    (h : Succeeds (image.tellMethod skip.unflagged d attributes)) :
    ∃ full part, Tells (image.tellMethod skip.unflagged d attributes) full ∧
      Tells (image.tellMethod skip d attributes) part ∧ SameByPlace (skip.remaining full) part := by
  obtain ⟨hattributes, h⟩ := h.then
  obtain ⟨all, hall⟩ := tellAttributes_ok hattributes
  obtain ⟨before, htells, houtside⟩ : ∃ before, Tells (image.tellAttributes attributes.common
      MethodEvent.annotated MethodEvent.attribute) before ∧
        ∀ event ∈ before, event.isOutside = true := by
    refine ⟨_, tells_attributes hall, fun event hevent => ?_⟩
    rcases List.mem_append.1 hevent with hevent | hevent
    all_goals
      obtain ⟨_, -, rfl⟩ := List.mem_map.1 hevent
      rfl
  have hend : ∀ event ∈ [MethodEvent.finish], event.isOutside = true := by
    intro event hevent
    obtain rfl := List.mem_singleton.1 hevent
    rfl
  have hstays {events : List MethodEvent} (h : ∀ event ∈ events, event.isOutside = true) :
      events.filter (!skip.leavesOut ·) = events := by
    refine List.filter_eq_self.2 fun event hevent => ?_
    rw [(MethodEvent.beside (h event hevent)).stays]
    rfl
  have hrest (b : List MethodEvent) :
      (before ++ (b ++ [MethodEvent.finish])).filter (!skip.leavesOut ·) =
        before ++ (b.filter (!skip.leavesOut ·) ++ [.finish]) := by
    rw [List.filter_append, List.filter_append, hstays houtside, hstays hend]
  cases hspan : attributes.code with
  | none =>
    have hall : ∀ event ∈ before ++ [MethodEvent.finish], event.isOutside = true :=
      fun event hevent => (List.mem_append.1 hevent).elim (houtside event) (hend event)
    have hremaining : skip.remaining (before ++ [.finish]) = before ++ [.finish] := by
      unfold Skip.remaining
      split
      · rw [outsideCode_eq_self hall, hstays hall]
      · exact hstays hall
    refine ⟨before ++ [.finish], before ++ [.finish], htells.then ?_, htells.then ?_, ?_⟩
    · simp only [hspan]
      exact Tell.tells_event _
    · simp only [hspan]
      exact Tell.tells_event _
    · rw [hremaining]
      exact fun _ _ _ _ => rfl
  | some span =>
    simp only [hspan, Skip.unflagged, Bool.not_false, if_true] at h
    obtain ⟨named, hread, h⟩ := h.of
    obtain ⟨part, body, tables, told, told', hread', hnamed, htellings, htold, htold', hsame⟩ :=
      filtered_code hread h.then.1
    have hwhole : Tells (image.tellMethod skip.unflagged d attributes)
        (before ++ (bodyEvents named told ++ [.finish])) := by
      refine htells.then ?_
      simp only [hspan, Skip.unflagged, Bool.not_false, if_true]
      exact .of hread (htold.then (Tell.tells_event _))
    cases hcode : skip.code with
    | true =>
      refine ⟨_, before ++ ([] ++ [.finish]), hwhole, htells.then ?_, ?_⟩
      · simp only [hspan, hcode, Bool.not_true, Bool.false_eq_true, if_false]
        exact Tell.tells_event _
      · unfold Skip.remaining
        rw [if_pos hcode, outsideCode_body hnamed htellings houtside, hrest]
        -- Labels that are made are no events of the code.
        exact SameByPlace.context houtside hend fun _ _ _ _ => rfl
    | false =>
      refine ⟨_, before ++ (bodyEvents part told' ++ [.finish]), hwhole, htells.then ?_, ?_⟩
      · simp only [hspan, hcode, Bool.not_false, if_true]
        exact .of hread' (htold'.then (Tell.tells_event _))
      · unfold Skip.remaining
        rw [if_neg (by simp [hcode]), hrest]
        exact hsame.context houtside hend

end Methods

section Classes

open Tell (Tells Succeeds)

/-- Telling that reports, when nothing puts an end to it, all that another telling does and what is
left out. -/
def Filters (skip : Skip) (tell tell' : Tell ClassEvent Unit) : Prop :=
  Succeeds tell → ∃ full part, Tells tell full ∧ Tells tell' part ∧
    List.Forall₂ skip.LeavesOf (full.filter (!skip.leavesOutOfClass ·)) part

namespace Filters

variable {tell tell' : Tell ClassEvent Unit} {rest rest' : PUnit → Tell ClassEvent Unit} {α : Type}

theorem nothing (skip : Skip) : Filters skip (pure ()) (pure ()) := fun _ =>
  ⟨[], [], Tell.tells_nothing, Tell.tells_nothing, .nil⟩

/-- An event that is not left out, and is not a method. -/
theorem event (e : ClassEvent) (hstays : skip.leavesOutOfClass e = false) (hself : skip.LeavesOf e e) :
    Filters skip (Tell.event e) (Tell.event e) := by
  refine fun _ => ⟨[e], [e], Tell.tells_event e, Tell.tells_event e, ?_⟩
  rw [List.filter_cons_of_pos (by rw [hstays]; rfl)]
  exact .cons hself .nil

theorem «then» (h : Filters skip tell tell') (h' : Filters skip (rest ()) (rest' ())) :
    Filters skip (tell >>= rest) (tell' >>= rest') := by
  intro hs
  obtain ⟨hfirst, hrest⟩ := hs.then
  obtain ⟨full, part, htells, htells', hpart⟩ := h hfirst
  obtain ⟨more, more', hmore, hmore', hpart'⟩ := h' hrest
  refine ⟨_, _, htells.then hmore, htells'.then hmore', ?_⟩
  rw [List.filter_append]
  exact List.rel_append hpart hpart'

theorem of {x : Except ClassError α} {k k' : α → Tell ClassEvent Unit}
    (h : ∀ a, x = .ok a → Filters skip (k a) (k' a)) :
    Filters skip (Step.of x >>= k) (Step.of x >>= k') := by
  intro hs
  obtain ⟨a, hx, hs⟩ := hs.of
  obtain ⟨full, part, htells, htells', hpart⟩ := h a hx hs
  exact ⟨full, part, .of hx htells, .of hx htells', hpart⟩

theorem all (events : List ClassEvent) (hstays : ∀ e ∈ events, skip.leavesOutOfClass e = false)
    (hself : ∀ e ∈ events, skip.LeavesOf e e) :
    Filters skip (Tell.all events) (Tell.all events) := by
  refine fun _ => ⟨events, events, Tell.tells_all events, Tell.tells_all events, ?_⟩
  rw [List.filter_eq_self.2 fun e he => by rw [hstays e he]; rfl]
  exact List.forall₂_same.2 hself

theorem tellIf {span : Option AttributeSpan} {tell tell' : AttributeSpan → Tell ClassEvent Unit}
    (h : ∀ span, Filters skip (tell span) (tell' span)) :
    Filters skip (ClassImage.tellIf span tell) (ClassImage.tellIf span tell') := by
  cases span with
  | none => exact nothing skip
  | some span => exact h span

theorem table {read : Scan α} {tell tell' : α → Tell ClassEvent Unit}
    (h : ∀ c a c', read c = .ok a c' → Filters skip (tell a) (tell' a)) (n : Nat) (c : Cursor) :
    Filters skip (image.tellTable read tell n c) (image.tellTable read tell' n c) := by
  induction n generalizing c with
  | zero => exact nothing skip
  | succ n ih =>
    unfold tellTable
    split
    · rintro ⟨s, s', hs⟩
      exact (Step.throw_ok.1 hs).elim
    · rename_i a c' hread
      exact (h _ a c' hread).then (ih _)

theorem members {start : Nat} {read : Scan α} {tell tell' : α → Tell ClassEvent Unit}
    (h : ∀ c a c', read c = .ok a c' → Filters skip (tell a) (tell' a)) :
    Filters skip (image.tellMembers start read tell) (image.tellMembers start read tell') := by
  unfold tellMembers
  split
  · rintro ⟨s, s', hs⟩
    exact (Step.throw_ok.1 hs).elim
  · exact table h _ _

/-- A method with what is left of its events. -/
theorem method {d : MethodDeclaration} {tell tell' : Tell MethodEvent Unit}
    (h : Succeeds tell → ∃ full part, Tells tell full ∧ Tells tell' part ∧
      SameByPlace (skip.remaining full) part) :
    Filters skip (tellMember (.method d) tell) (tellMember (.method d) tell') := by
  intro hs
  obtain ⟨full, part, htells, htells', hsame⟩ := h (tellMember_ok hs)
  exact ⟨_, _, tells_member htells, tells_member htells', .cons ⟨part, rfl, hsame⟩ .nil⟩

end Filters

theorem filters_tellAttributes (attributes : MemberAttributes) :
    Filters skip (image.tellAttributes attributes .annotated .attribute)
      (image.tellAttributes attributes .annotated .attribute) := by
  refine .of fun all _ => .then (.all _ ?_ ?_) (.all _ ?_ ?_)
  all_goals
    intro e he
    obtain ⟨_, -, rfl⟩ := List.mem_map.1 he
    rfl

theorem filters_tellField {d : FieldDeclaration} {attributes : MemberAttributes} {only : Bool} :
    Filters skip
      (tellMember (.field d) (if only then pure () else image.tellField attributes))
      (tellMember (.field d) (if only then pure () else image.tellField attributes)) := by
  intro hs
  obtain ⟨events, hevents⟩ : ∃ events,
      Tells (if only then pure () else image.tellField attributes) events := by
    cases only with
    | true => exact ⟨[], Tell.tells_nothing⟩
    | false =>
      obtain ⟨all, hall⟩ := tellField_ok (tellMember_ok hs)
      exact ⟨_, tells_field hall⟩
  exact ⟨_, _, tells_member hevents, tells_member hevents, .cons rfl .nil⟩

theorem enclosing_of_read {c c' : Cursor} {e : ClassEvent}
    (h : image.readEnclosingMethod c = .ok e c') :
    skip.leavesOutOfClass e = false ∧ skip.LeavesOf e e := by
  obtain ⟨_, _, -, h⟩ := Step.bind_ok.1 h
  obtain ⟨_, _, -, h⟩ := Step.bind_ok.1 h
  obtain ⟨index, _, -, h⟩ := Step.bind_ok.1 h
  split at h
  · obtain ⟨rfl, -⟩ := Step.pure_ok.1 h
    exact ⟨rfl, rfl⟩
  · obtain ⟨_, _, -, h⟩ := Step.bind_ok.1 h
    obtain ⟨rfl, -⟩ := Step.pure_ok.1 h
    exact ⟨rfl, rfl⟩

theorem nestMember_of_read {c c' : Cursor} {e : ClassEvent}
    (h : image.readNestMember c = .ok e c') :
    skip.leavesOutOfClass e = false ∧ skip.LeavesOf e e := by
  obtain ⟨_, _, -, h⟩ := Step.bind_ok.1 h
  obtain ⟨_, _, -, h⟩ := Step.bind_ok.1 h
  obtain ⟨rfl, -⟩ := Step.pure_ok.1 h
  exact ⟨rfl, rfl⟩

theorem innerClass_of_read {c c' : Cursor} {e : ClassEvent}
    (h : image.readInnerClass c = .ok e c') :
    skip.leavesOutOfClass e = false ∧ skip.LeavesOf e e := by
  obtain ⟨_, _, -, h⟩ := Step.bind_ok.1 h
  obtain ⟨_, _, -, h⟩ := Step.bind_ok.1 h
  obtain ⟨_, _, -, h⟩ := Step.bind_ok.1 h
  obtain ⟨_, _, -, h⟩ := Step.bind_ok.1 h
  obtain ⟨_, _, -, h⟩ := Step.bind_ok.1 h
  obtain ⟨_, _, -, h⟩ := Step.bind_ok.1 h
  obtain ⟨_, _, -, h⟩ := Step.bind_ok.1 h
  obtain ⟨rfl, -⟩ := Step.pure_ok.1 h
  exact ⟨rfl, rfl⟩

/-- The source file is told unless it is left out. -/
theorem filters_sourceFile {span : Option AttributeSpan} {rest rest' : PUnit → Tell ClassEvent Unit}
    (h : Filters skip (rest ()) (rest' ())) :
    Filters skip
      (tellIf span (fun span => do
        Tell.event (.sourceFile (← Step.of (image.readTextOf span)))) >>= rest)
      (if !skip.debug then tellIf span (fun span => do
        Tell.event (.sourceFile (← Step.of (image.readTextOf span)))) >>= rest'
        else rest' ()) := by
  cases hdebug : skip.debug with
  | false =>
    refine .then (.tellIf fun span => .of fun text _ => .event _ ?_ ?_) h
    · exact hdebug
    · rfl
  | true =>
    intro hs
    obtain ⟨hfirst, hrest⟩ := hs.then
    obtain ⟨full, part, htells, htells', hpart⟩ := h hrest
    cases span with
    | none => exact ⟨_, part, Tell.tells_nothing.then htells, htells', hpart⟩
    | some span =>
      obtain ⟨text, htext, -⟩ := hfirst.of
      refine ⟨_, part, Tell.Tells.then (.of htext (Tell.tells_event _)) htells, htells', ?_⟩
      rw [List.cons_append, List.nil_append, List.filter_cons_of_neg]
      · exact hpart
      · simp [Skip.leavesOutOfClass, hdebug]

theorem filters_tellClass (image : ClassImage) (skip : Skip) :
    Filters skip (image.tellClass skip.unflagged) (image.tellClass skip) := by
  unfold tellClass
  refine .of fun interfaces _ => .of fun spans _ => .of fun attributes _ => .of fun flags _ =>
    .of fun name _ => .of fun superName _ => .then (.event _ rfl rfl) (filters_sourceFile ?_)
  refine .then (.tellIf fun span => .of fun index _ => .of fun host _ => .event _ rfl rfl) ?_
  refine .then (.tellIf fun span => .of fun e he => ?_) ?_
  · obtain ⟨c, he⟩ := Scan.runAt_ok.1 he
    exact .event e (enclosing_of_read he).1 (enclosing_of_read he).2
  refine .then (filters_tellAttributes _) ?_
  refine .then (.tellIf fun span => .members fun c e c' he => ?_) ?_
  · exact .event e (nestMember_of_read he).1 (nestMember_of_read he).2
  refine .then (.tellIf fun span => .members fun c e c' he => ?_) ?_
  · exact .event e (innerClass_of_read he).1 (innerClass_of_read he).2
  refine .then (.members fun _ field _ _ => filters_tellField) ?_
  refine .then (.members fun _ method _ _ => .method fun hs => ?_) (.event _ rfl rfl)
  by_cases hmembers : skip.members = true
  · have hmembers' : skip.unflagged.members = true := hmembers
    rw [if_pos hmembers, if_pos hmembers']
    refine ⟨[], [], Tell.tells_nothing, Tell.tells_nothing, fun _ _ _ _ => ?_⟩
    have hnothing : skip.remaining [] = [] := by
      unfold Skip.remaining
      split <;> rfl
    rw [hnothing]
  · have hmembers' : ¬ skip.unflagged.members = true := hmembers
    rw [if_neg hmembers'] at hs
    rw [if_neg hmembers, if_neg hmembers']
    exact filtered_method hs

/-- **Leaving out only leaves out.** If a class file is told to the end when nothing is left out, it
is so whatever is left out, and the events are the same in the same order but for those that are left
out: code from its beginning to its maximums; source files, line numbers, local variables and their
types; frames. The events of a method are compared with each label named for the place where it is
visited; visits where no event that is left refers to, and no line or frame is, do not count. -/
theorem events_filtered (image : ClassImage) (skip : Skip)
    (h : (image.events skip.unflagged).fault = none) :
    ∃ full part, image.events skip.unflagged = ⟨full, none⟩ ∧ image.events skip = ⟨part, none⟩ ∧
      List.Forall₂ skip.LeavesOf (full.filter (!skip.leavesOutOfClass ·)) part := by
  obtain ⟨full, part, hfull, hpart, hsame⟩ :=
    filters_tellClass image skip (Tell.succeeds_of_trace h)
  exact ⟨full, part, hfull.trace_eq, hpart.trace_eq, hsame⟩

/-- A method that jumps over nothing and returns, told without its code. -/
theorem events_filtered_goto_return : ∃ image skip full part,
    parse (classWithCode [167, 0, 3, 177]) = .ok image ∧ skip.code = true ∧
      (image.events skip.unflagged).fault = none ∧
      image.events skip.unflagged = ⟨full, none⟩ ∧ image.events skip = ⟨part, none⟩ ∧
      List.Forall₂ skip.LeavesOf (full.filter (!skip.leavesOutOfClass ·)) part := by
  obtain ⟨image, m, span, body, himage, h, -⟩ :=
    tellsBody_of_decodesTo (show decodesTo [167, 0, 3, 177]
      [(0, .jump Opcode.goto 3), (3, .plain Opcode.return_void)] = true by decide +kernel)
  let skip : Skip := { code := true }
  have hfault : (image.events skip.unflagged).fault = none := h.told
  obtain ⟨full, part, hfull, hpart, hsame⟩ := events_filtered image skip hfault
  exact ⟨image, skip, full, part, himage, rfl, hfault, hfull, hpart, hsame⟩

end Classes

end ClassImage

end JvmClass
