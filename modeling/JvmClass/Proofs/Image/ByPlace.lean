import JvmClass.Proofs.Image.Visits
import Mathlib.Data.List.Find

/-!
# Events by place

How labels are numbered is up to whoever makes them. Events that come along a code say the same if
they do once each label is named for the place where it is visited and the visits that nothing needs
are left out (`byPlace`). What labels are called does not matter to that (`byPlace_relabel`), nor do
visits of labels at places that nothing needs (`byPlace_filter`), nor where exactly the instructions
start (`byPlace_move`).
-/

namespace JvmClass

open MethodBuilder (isInstruction)

namespace MethodEvent

/-- An event with other labels in place of its own. -/
def relabel (name : Label → Label) : MethodEvent → MethodEvent
  | .jump op target => .jump op (name target)
  | .label place => .label (name place)
  | .frame locals stack => .frame (locals.map (·.map id name)) (stack.map (·.map id name))
  | .tableSwitch low high fallback targets =>
    .tableSwitch low high (name fallback) (targets.map name)
  | .lookupSwitch fallback keys targets => .lookupSwitch (name fallback) keys (targets.map name)
  | .handler start stop entry catchType => .handler (name start) (name stop) (name entry) catchType
  | .localVariable text descriptor start stop slot =>
    .localVariable text descriptor (name start) (name stop) slot
  | .lineNumber line start => .lineNumber line (name start)
  | event => event

/-- The labels in an event. -/
def labels (event : MethodEvent) : List Label := event.label?.toList ++ event.refers

variable {name other : Label → Label}

theorem label?_relabel (event : MethodEvent) :
    (event.relabel name).label? = event.label?.map name := by
  cases event <;> rfl

theorem refers_relabel (event : MethodEvent) :
    (event.relabel name).refers = event.refers.map name := by
  have htypes (types : List LabelledType) :
      (MethodEvent.frame (types.map (·.map id name)) []).refers =
        (MethodEvent.frame types []).refers.map name := by
    simp only [refers, List.append_nil, List.filterMap_map, List.map_filterMap]
    refine List.filterMap_congr fun type _ => ?_
    cases type <;> rfl
  have hjoin (locals stack : List LabelledType) :
      (MethodEvent.frame locals stack).refers = (MethodEvent.frame (locals ++ stack) []).refers := by
    simp only [refers, List.append_nil]
  cases event with
  | frame locals stack =>
    rw [relabel, hjoin, hjoin locals stack, ← List.map_append]
    exact htypes _
  | _ => rfl

theorem describesNext_relabel (event : MethodEvent) :
    (event.relabel name).describesNext = event.describesNext := by
  cases event <;> rfl

theorem isInstruction_relabel (event : MethodEvent) :
    isInstruction (event.relabel name) = isInstruction event := by
  cases event <;> rfl

theorem relabel_relabel (event : MethodEvent) :
    (event.relabel name).relabel other = event.relabel (other ∘ name) := by
  have htypes (types : List LabelledType) : (types.map (·.map id name)).map (·.map id other) =
      types.map (·.map id (other ∘ name)) := by
    rw [List.map_map]
    refine List.map_congr_left fun type _ => ?_
    cases type <;> rfl
  cases event with
  | frame locals stack =>
    show MethodEvent.frame _ _ = _
    rw [htypes, htypes]
    rfl
  | tableSwitch low high fallback targets => simp [relabel]
  | lookupSwitch fallback keys targets => simp [relabel]
  | _ => rfl

/-- Only the names of the labels in it matter to an event. -/
theorem relabel_congr {event : MethodEvent} (h : ∀ label ∈ event.labels, name label = other label) :
    event.relabel name = event.relabel other := by
  cases event with
  | frame locals stack =>
    have htype : ∀ type ∈ locals ++ stack, type.map id name = type.map id other := by
      intro type hmem
      cases type with
      | uninitialized place =>
        have hplace : place ∈ (MethodEvent.frame locals stack).labels :=
          List.mem_filterMap.2 ⟨_, hmem, rfl⟩
        exact congrArg VerificationType.uninitialized (h place hplace)
      | _ => rfl
    simp only [relabel, frame.injEq, List.map_inj_left]
    exact ⟨fun type hmem => htype type (List.mem_append_left _ hmem),
      fun type hmem => htype type (List.mem_append_right _ hmem)⟩
  | tableSwitch | lookupSwitch | jump | label | handler | localVariable | lineNumber =>
    simpa [relabel, labels, label?, refers, targets] using h
  | _ => rfl

end MethodEvent

/-- The label that is named for a place: none has number 0 unless it is visited nowhere. -/
def Label.ofPlace : Option Nat → Label
  | none => ⟨0⟩
  | some p => ⟨p + 1⟩

/-- Where a label is visited. -/
def placeOf (along : List (Nat × MethodEvent)) (label : Label) : Option Nat :=
  ((visits id along).find? fun visit => visit.2 == label).map Prod.fst

/-- Whether an event refers to a place, or tells about what comes there. -/
def isNeeded (along : List (Nat × MethodEvent)) (p : Nat) : Bool :=
  along.any fun x => x.2.describesNext && x.1 == p ||
    x.2.refers.any fun label => placeOf along label == some p

/-- Whether an event is looked at: making labels is not, nor is visiting one where none is needed. -/
def isCompared (along : List (Nat × MethodEvent)) (x : Nat × MethodEvent) : Bool :=
  match x.2 with
  | .newLabels _ => false
  | .label _ => isNeeded along x.1
  | _ => true

/-- What a label is called for its place. -/
def nameIn (along : List (Nat × MethodEvent)) (label : Label) : Label :=
  .ofPlace (placeOf along label)

/-- The events along a code with each label named for its place, but for visits that nothing needs. -/
def byPlace (along : List (Nat × MethodEvent)) : List MethodEvent :=
  (along.filter (isCompared along)).map fun x => x.2.relabel (nameIn along)

section Relabelling

variable {name : Label → Label} {along : List (Nat × MethodEvent)}

/-- Events along a code with other labels. -/
def relabelAll (name : Label → Label) (along : List (Nat × MethodEvent)) :
    List (Nat × MethodEvent) := along.map fun x => (x.1, x.2.relabel name)

theorem visits_relabelAll : visits id (relabelAll name along) =
    (visits id along).map fun visit => (visit.1, name visit.2) := by
  unfold visits relabelAll
  rw [List.filterMap_map, List.map_filterMap]
  refine List.filterMap_congr fun x _ => ?_
  show ((x.2.relabel name).label?.map _) = _
  rw [MethodEvent.label?_relabel]
  cases x.2.label? <;> rfl

theorem mem_visits {visit : Nat × Label} : visit ∈ visits id along ↔
    (visit.1, MethodEvent.label visit.2) ∈ along := by
  unfold visits
  rw [List.mem_filterMap]
  constructor
  · rintro ⟨⟨p, event⟩, hmem, hvisit⟩
    obtain ⟨label, hlabel, rfl⟩ := Option.map_eq_some_iff.1 hvisit
    cases event <;> cases hlabel
    exact hmem
  · exact fun hmem => ⟨_, hmem, rfl⟩

/-- Labels in the events that have one name are one. -/
def NamesApart (name : Label → Label) (along : List (Nat × MethodEvent)) : Prop :=
  ∀ x ∈ along, ∀ y ∈ along, ∀ l ∈ x.2.labels, ∀ m ∈ y.2.labels, name l = name m → l = m

theorem placeOf_relabelAll (h : NamesApart name along) {x : Nat × MethodEvent} (hx : x ∈ along)
    {label : Label} (hlabel : label ∈ x.2.labels) :
    placeOf (relabelAll name along) (name label) = placeOf along label := by
  unfold placeOf
  rw [visits_relabelAll, List.find?_map, Option.map_map]
  have hsame : (visits id along).find? ((fun visit => visit.2 == name label) ∘
      fun visit => (visit.1, name visit.2)) =
        (visits id along).find? fun visit => visit.2 == label := by
    refine List.find?_congr fun visit hmem => ?_
    have hvisit := mem_visits.1 hmem
    rw [Bool.eq_iff_iff]
    simp only [Function.comp_apply, beq_iff_eq]
    exact ⟨h _ hvisit x hx visit.2 List.mem_cons_self label hlabel, fun he => he ▸ rfl⟩
  rw [hsame]
  rfl

theorem isNeeded_iff {p : Nat} : isNeeded along p = true ↔ ∃ x ∈ along,
    x.2.describesNext = true ∧ x.1 = p ∨ ∃ label ∈ x.2.refers, placeOf along label = some p := by
  simp [isNeeded]

theorem mem_labels_of_refers {event : MethodEvent} {label : Label} (h : label ∈ event.refers) :
    label ∈ event.labels := List.mem_append_right _ h

theorem isNeeded_relabelAll (h : NamesApart name along) (p : Nat) :
    isNeeded (relabelAll name along) p = isNeeded along p := by
  rw [Bool.eq_iff_iff, isNeeded_iff, isNeeded_iff]
  have hplace : ∀ x ∈ along, ((∃ label ∈ (x.2.relabel name).refers,
      placeOf (relabelAll name along) label = some p) ↔
        ∃ label ∈ x.2.refers, placeOf along label = some p) := by
    intro x hx
    rw [MethodEvent.refers_relabel]
    simp only [List.mem_map, exists_exists_and_eq_and]
    refine exists_congr fun label => and_congr_right fun hlabel => ?_
    rw [placeOf_relabelAll h hx (mem_labels_of_refers hlabel)]
  constructor
  · rintro ⟨_, hmem, hneeds⟩
    obtain ⟨x, hx, rfl⟩ := List.mem_map.1 hmem
    rw [MethodEvent.describesNext_relabel, hplace x hx] at hneeds
    exact ⟨x, hx, hneeds⟩
  · rintro ⟨x, hx, hneeds⟩
    refine ⟨_, List.mem_map_of_mem hx, ?_⟩
    rwa [MethodEvent.describesNext_relabel, hplace x hx]

theorem isCompared_relabelAll (h : NamesApart name along) (x : Nat × MethodEvent) :
    isCompared (relabelAll name along) (x.1, x.2.relabel name) = isCompared along x := by
  obtain ⟨p, event⟩ := x
  cases event with
  | label label => exact isNeeded_relabelAll h p
  | _ => rfl

/-- What labels are called does not matter, as long as they are told apart. -/
theorem byPlace_relabel (h : NamesApart name along) :
    byPlace (relabelAll name along) = byPlace along := by
  have hfilter : (relabelAll name along).filter (isCompared (relabelAll name along)) =
      relabelAll name (along.filter (isCompared along)) := by
    unfold relabelAll
    rw [List.filter_map]
    exact congrArg _ (List.filter_congr fun x _ => isCompared_relabelAll h x)
  have hname : ∀ x ∈ along, (x.2.relabel name).relabel (nameIn (relabelAll name along)) =
      x.2.relabel (nameIn along) := by
    intro x hx
    rw [MethodEvent.relabel_relabel]
    exact MethodEvent.relabel_congr fun label hlabel =>
      congrArg Label.ofPlace (placeOf_relabelAll h hx hlabel)
  unfold byPlace
  rw [hfilter]
  refine List.map_map.trans (List.map_congr_left fun x hx => ?_)
  exact hname x (List.mem_of_mem_filter hx)

end Relabelling

theorem visited_of_placeOf {along : List (Nat × MethodEvent)} {label : Label} {p : Nat}
    (h : placeOf along label = some p) : (p, .label label) ∈ along := by
  obtain ⟨visit, hfind, rfl⟩ := Option.map_eq_some_iff.1 h
  obtain rfl : visit.2 = label := by simpa using List.find?_some hfind
  exact mem_visits.1 (List.mem_of_find?_eq_some hfind)

theorem placeOf_visited {along : List (Nat × MethodEvent)} {label : Label} {p : Nat}
    (h : (p, .label label) ∈ along) : ∃ q, placeOf along label = some q := by
  have hsome : ((visits id along).find? fun visit => visit.2 == label).isSome = true :=
    List.find?_isSome.2 ⟨(p, label), mem_visits.2 h, beq_self_eq_true label⟩
  obtain ⟨visit, hvisit⟩ := Option.isSome_iff_exists.1 hsome
  exact ⟨visit.1, by rw [placeOf, hvisit]; rfl⟩

theorem placeOf_eq_none {along : List (Nat × MethodEvent)} {label : Label}
    (h : ∀ p, (p, .label label) ∉ along) : placeOf along label = none := by
  cases hplace : placeOf along label with
  | none => rfl
  | some p => exact absurd (visited_of_placeOf hplace) (h p)

section Filtering

variable {keep : Label → Bool} {along : List (Nat × MethodEvent)}

/-- Whether an event is among those in which only some labels are visited, and none made. -/
def isKept (keep : Label → Bool) : MethodEvent → Bool
  | .newLabels _ => false
  | .label place => keep place
  | _ => true

/-- An event that is not kept refers to no label, and tells nothing about what comes. -/
theorem quiet_of_not_isKept {event : MethodEvent} (h : isKept keep event = false) :
    event.refers = [] ∧ event.describesNext = false ∧ isInstruction event = false := by
  cases event with
  | newLabels | label => exact ⟨rfl, rfl, rfl⟩
  | _ => cases h

theorem placeOf_filter {label : Label} (h : keep label = true) :
    placeOf (along.filter fun x => isKept keep x.2) label = placeOf along label := by
  have hvisits : visits id (along.filter fun x => isKept keep x.2) =
      (visits id along).filter fun visit => keep visit.2 := by
    unfold visits
    rw [List.filterMap_filter, List.filter_filterMap]
    refine List.filterMap_congr fun x _ => ?_
    obtain ⟨p, event⟩ := x
    cases event with
    | label place => cases hkeep : keep place <;> simp [isKept, MethodEvent.label?, Option.filter, hkeep]
    | _ => rfl
  unfold placeOf
  rw [hvisits, List.find?_filter]
  refine congrArg _ (List.find?_congr fun visit _ => ?_)
  rw [Bool.eq_iff_iff]
  simp only [decide_eq_true_eq, beq_iff_eq, and_iff_right_iff_imp]
  exact fun he => he ▸ h

/-- Visits of labels that nothing needs where they come do not matter, and neither does making
labels. -/
theorem byPlace_filter (h : ∀ p label, (p, .label label) ∈ along → keep label = false →
    isNeeded along p = false) :
    byPlace (along.filter fun x => isKept keep x.2) = byPlace along := by
  -- A label that an event refers to is kept, or is visited nowhere.
  have hplace : ∀ x ∈ along, ∀ label ∈ x.2.refers,
      placeOf (along.filter fun x => isKept keep x.2) label = placeOf along label := by
    intro x hx label hlabel
    cases hkeep : keep label with
    | true => exact placeOf_filter hkeep
    | false =>
      have hnowhere : ∀ p, (p, .label label) ∉ along := by
        intro p hp
        obtain ⟨q, hq⟩ := placeOf_visited hp
        have hneeded : isNeeded along q = true :=
          isNeeded_iff.2 ⟨x, hx, Or.inr ⟨label, hlabel, hq⟩⟩
        rw [h q label (visited_of_placeOf hq) hkeep] at hneeded
        cases hneeded
      rw [placeOf_eq_none hnowhere, placeOf_eq_none fun p hp => hnowhere p (List.mem_of_mem_filter hp)]
  have hneeded : ∀ p, isNeeded (along.filter fun x => isKept keep x.2) p = isNeeded along p := by
    intro p
    rw [Bool.eq_iff_iff, isNeeded_iff, isNeeded_iff]
    constructor
    · rintro ⟨x, hx, hneeds⟩
      have hmem := List.mem_of_mem_filter hx
      refine ⟨x, hmem, hneeds.imp_right ?_⟩
      rintro ⟨label, hlabel, hp⟩
      exact ⟨label, hlabel, hplace x hmem label hlabel ▸ hp⟩
    · rintro ⟨x, hx, hneeds⟩
      have hkept : isKept keep x.2 = true := by
        by_contra hkept
        obtain ⟨hrefers, hnext, -⟩ := quiet_of_not_isKept (Bool.eq_false_iff.2 hkept)
        rw [hrefers, hnext] at hneeds
        rcases hneeds with ⟨hfalse, -⟩ | ⟨_, hfalse, -⟩ <;> cases hfalse
      refine ⟨x, List.mem_filter.2 ⟨hx, hkept⟩, hneeds.imp_right ?_⟩
      rintro ⟨label, hlabel, hp⟩
      exact ⟨label, hlabel, (hplace x hx label hlabel).trans hp⟩
  have hcompared : ∀ x ∈ along, (isKept keep x.2 &&
      isCompared (along.filter fun x => isKept keep x.2) x) = isCompared along x := by
    rintro ⟨p, event⟩ hx
    cases event with
    | newLabels => rfl
    | label place =>
      show (keep place && isNeeded _ p) = isNeeded along p
      rw [hneeded]
      cases hkeep : keep place with
      | true => rfl
      | false => rw [h p place hx hkeep]; rfl
    | _ => rfl
  unfold byPlace
  rw [List.filter_filter]
  have hsame : (along.filter fun x => isCompared (along.filter fun x => isKept keep x.2) x &&
      isKept keep x.2) = along.filter (isCompared along) :=
    List.filter_congr fun x hx => by rw [Bool.and_comm, hcompared x hx]
  rw [hsame]
  refine List.map_congr_left fun x hx => MethodEvent.relabel_congr fun label hlabel => ?_
  obtain ⟨hmem, hx⟩ := List.mem_filter.1 hx
  refine congrArg Label.ofPlace ?_
  rcases List.mem_append.1 hlabel with hvisited | hrefers
  · obtain ⟨p, event⟩ := x
    cases event <;> simp only [MethodEvent.label?, Option.toList_none, Option.toList_some,
      List.not_mem_nil, List.mem_singleton] at hvisited
    subst hvisited
    refine placeOf_filter ?_
    by_contra hkeep
    have hfalse : isNeeded along p = true := hx
    rw [h p label hmem (Bool.eq_false_iff.2 hkeep)] at hfalse
    cases hfalse
  · exact hplace x hmem label hrefers

end Filtering

section Moving

variable {move : Nat → Nat} {along : List (Nat × MethodEvent)}

/-- Events that come elsewhere. -/
def moveAll (move : Nat → Nat) (along : List (Nat × MethodEvent)) : List (Nat × MethodEvent) :=
  along.map fun x => (move x.1, x.2)

/-- Different places at which events come stay different. -/
def MovesApart (move : Nat → Nat) (along : List (Nat × MethodEvent)) : Prop :=
  ∀ x ∈ along, ∀ y ∈ along, move x.1 = move y.1 → x.1 = y.1

theorem placeOf_moveAll (label : Label) :
    placeOf (moveAll move along) label = (placeOf along label).map move := by
  have hvisits : visits id (moveAll move along) =
      (visits id along).map fun visit => (move visit.1, visit.2) := by
    unfold visits moveAll
    rw [List.filterMap_map, List.map_filterMap]
    refine List.filterMap_congr fun x _ => ?_
    rw [Function.comp_apply, Option.map_map]
    rfl
  unfold placeOf
  rw [hvisits, List.find?_map, Option.map_map, Option.map_map]
  rfl

theorem isNeeded_moveAll (h : MovesApart move along) {x : Nat × MethodEvent} (hx : x ∈ along) :
    isNeeded (moveAll move along) (move x.1) = isNeeded along x.1 := by
  have hplace (label : Label) : placeOf (moveAll move along) label = some (move x.1) ↔
      placeOf along label = some x.1 := by
    rw [placeOf_moveAll, Option.map_eq_some_iff]
    constructor
    · rintro ⟨p, hp, he⟩
      exact hp.trans (congrArg some (h (p, .label label) (visited_of_placeOf hp) x hx he))
    · exact fun hp => ⟨_, hp, rfl⟩
  rw [Bool.eq_iff_iff, isNeeded_iff, isNeeded_iff]
  simp only [hplace]
  constructor
  · rintro ⟨_, hmem, hneeds⟩
    obtain ⟨y, hy, rfl⟩ := List.mem_map.1 hmem
    exact ⟨y, hy, hneeds.imp_left (And.imp_right (h y hy x hx))⟩
  · rintro ⟨y, hy, hneeds⟩
    exact ⟨_, List.mem_map_of_mem hy, hneeds.imp_left (And.imp_right (congrArg move))⟩

/-- The name of a place after it has moved. -/
def Label.moved (move : Nat → Nat) : Label → Label
  | ⟨0⟩ => ⟨0⟩
  | ⟨p + 1⟩ => ⟨move p + 1⟩

/-- Where exactly events come does not matter, but for the names of places. -/
theorem byPlace_move (h : MovesApart move along) :
    byPlace (moveAll move along) = (byPlace along).map (·.relabel (.moved move)) := by
  have hcompared : ∀ x ∈ along,
      isCompared (moveAll move along) (move x.1, x.2) = isCompared along x := by
    rintro ⟨p, event⟩ hx
    cases event with
    | label place => exact isNeeded_moveAll h hx
    | _ => rfl
  have hfilter : (moveAll move along).filter (isCompared (moveAll move along)) =
      moveAll move (along.filter (isCompared along)) := by
    unfold moveAll
    rw [List.filter_map]
    exact congrArg _ (List.filter_congr fun x hx => hcompared x hx)
  unfold byPlace
  rw [hfilter, List.map_map]
  refine List.map_map.trans (List.map_congr_left fun x _ => ?_)
  rw [Function.comp_apply, Function.comp_apply, MethodEvent.relabel_relabel]
  refine MethodEvent.relabel_congr fun label _ => ?_
  show Label.ofPlace _ = Label.moved move (.ofPlace _)
  rw [placeOf_moveAll]
  cases placeOf along label <;> rfl

theorem locate_move (size : Nat) (starts : List Nat) (events : List MethodEvent) :
    locate (move size) (starts.map move) events = moveAll move (locate size starts events) := by
  induction events generalizing starts with
  | nil => rfl
  | cons event rest ih =>
    have hhead : (starts.map move).headD (move size) = move (starts.headD size) := by
      cases starts <;> rfl
    have htail : (if isInstruction event then (starts.map move).tail else starts.map move) =
        (if isInstruction event then starts.tail else starts).map move := by
      cases starts <;> split <;> rfl
    rw [locate, locate, hhead, htail, ih]
    rfl

/-- Events come at the starts of instructions or at the end. -/
theorem mem_locate {size : Nat} {starts : List Nat} {events : List MethodEvent}
    {x : Nat × MethodEvent} (h : x ∈ locate size starts events) : x.1 ∈ starts ++ [size] := by
  induction events generalizing starts with
  | nil => cases h
  | cons event rest ih =>
    rcases List.mem_cons.1 h with rfl | h
    · cases starts with
      | nil => exact List.mem_cons_self
      | cons start others => exact List.mem_cons_self
    · have hrest := ih h
      split at hrest
      · cases starts with
        | nil => exact hrest
        | cons start others => exact List.mem_cons_of_mem _ hrest
      · exact hrest

/-- Any different offsets can be moved to as many others. -/
theorem exists_move {a b : List Nat} (ha : a.Nodup) (hb : b.Nodup) (hlength : a.length = b.length) :
    ∃ move : Nat → Nat, a.map move = b ∧ ∀ p ∈ a, ∀ q ∈ a, move p = move q → p = q := by
  refine ⟨fun p => b[a.idxOf p]?.getD 0, ?_, ?_⟩
  · refine List.ext_getElem (by simp [hlength]) fun i hi hi' => ?_
    rw [List.getElem_map, ha.idxOf_getElem, List.getElem?_eq_getElem hi', Option.getD_some]
  · intro p hp q hq he
    have hp' := hlength ▸ List.idxOf_lt_length_of_mem hp
    have hq' := hlength ▸ List.idxOf_lt_length_of_mem hq
    simp only [List.getElem?_eq_getElem hp', List.getElem?_eq_getElem hq', Option.getD_some] at he
    exact (List.idxOf_inj hp).1 ((hb.getElem_inj_iff).1 he)

end Moving

/-- Events say the same by place, wherever their instructions start and the code ends. -/
def SameByPlace (events events' : List MethodEvent) : Prop :=
  ∀ (starts : List Nat) (size : Nat), (starts ++ [size]).Pairwise (· < ·) →
    starts.length = (events.filter isInstruction).length →
    byPlace (locate size starts events) = byPlace (locate size starts events')

/-- Offsets that tell the places apart are as good as all others. -/
theorem SameByPlace.of_offsets {events events' : List MethodEvent} {starts : List Nat} {size : Nat}
    (hascending : (starts ++ [size]).Pairwise (· < ·))
    (hcount : starts.length = (events.filter isInstruction).length)
    (h : byPlace (locate size starts events) = byPlace (locate size starts events')) :
    SameByPlace events events' := by
  intro others last hothers hcount'
  have hlength : (starts ++ [size]).length = (others ++ [last]).length := by
    simp [hcount, hcount']
  obtain ⟨move, hmove, hinj⟩ := exists_move (hascending.imp Nat.ne_of_lt)
    (hothers.imp Nat.ne_of_lt) hlength
  rw [List.map_append] at hmove
  obtain ⟨rfl, hlast⟩ := List.append_inj' hmove rfl
  obtain rfl : move size = last := by simpa using hlast
  have hapart (told : List MethodEvent) : MovesApart move (locate size starts told) :=
    fun x hx y hy => hinj _ (mem_locate hx) _ (mem_locate hy)
  rw [locate_move, locate_move, byPlace_move (hapart _), byPlace_move (hapart _), h]

end JvmClass
