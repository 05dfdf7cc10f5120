import JvmClass.Proofs.Image.Bodies

/-!
# What telling a class reads

When nothing puts an end to the events of a class file (`Tell.Succeeds`), every read that they rest
on has found something: those of the attributes of the class, and those of the tables of fields and
methods, whose items have been told in turn (`ClassImage.Told`).
-/

namespace JvmClass

namespace Tell

variable {ε α : Type} {tell : Tell ε Unit}

/-- Nothing puts an end to the events. -/
def Succeeds (tell : Tell ε Unit) : Prop := ∃ s s', tell s = .ok () s'

theorem succeeds_of_trace (h : tell.trace.fault = none) : Succeeds tell := by
  unfold trace at h
  split at h
  · rename_i s hs
    exact ⟨_, s, hs⟩
  · cases h

theorem Succeeds.then {rest : PUnit → Tell ε Unit} (h : Succeeds (tell >>= rest)) :
    Succeeds tell ∧ Succeeds (rest ()) := by
  obtain ⟨s, s', h⟩ := h
  obtain ⟨_, mid, h1, h2⟩ := Step.bind_ok.1 h
  exact ⟨⟨s, mid, h1⟩, ⟨mid, s', h2⟩⟩

theorem Succeeds.of {x : Except ClassError α} {k : α → Tell ε Unit}
    (h : Succeeds (Step.of x >>= k)) : ∃ a, x = .ok a ∧ Succeeds (k a) := by
  obtain ⟨s, s', h⟩ := h
  obtain ⟨a, mid, h1, h2⟩ := Step.bind_ok.1 h
  exact ⟨a, (Step.of_ok.1 h1).1, ⟨mid, s', h2⟩⟩

/-- Events that are left out under a condition. -/
theorem Succeeds.ite {c : Prop} [Decidable c] {rest : PUnit → Tell ε Unit}
    (h : Succeeds (if c then tell >>= rest else rest ())) :
    (c → Succeeds tell) ∧ Succeeds (rest ()) := by
  split at h
  · exact ⟨fun _ => h.then.1, h.then.2⟩
  · rename_i hc
    exact ⟨fun hc' => absurd hc' hc, h⟩

end Tell

namespace ClassImage

variable {image : ClassImage} {skip : Skip}

section Tables

variable {α : Type} {read : Scan α} {tell : α → Tell ClassEvent Unit}

theorem tellTable_ok {n : Nat} {c : Cursor} (h : Tell.Succeeds (image.tellTable read tell n c))
    (done : List α) : ∃ items c', Scan.timesFrom read done n c = .ok (done.reverse ++ items) c' ∧
      ∀ a ∈ items, Tell.Succeeds (tell a) := by
  induction n generalizing c done with
  | zero => exact ⟨[], c, by rw [List.append_nil]; rfl, fun _ h => nomatch h⟩
  | succ n ih =>
    unfold tellTable at h
    split at h
    · obtain ⟨s, s', h⟩ := h
      exact (Step.throw_ok.1 h).elim
    · rename_i a mid hread
      obtain ⟨ha, h⟩ := h.then
      obtain ⟨items, c', hrest, hitems⟩ := ih h (a :: done)
      refine ⟨a :: items, c', Step.bind_ok.2 ⟨a, mid, hread, ?_⟩, ?_⟩
      · rw [hrest, List.reverse_cons, List.append_assoc]
        rfl
      · exact List.forall_mem_cons.2 ⟨ha, hitems⟩

/-- A table that is told from its count on has been read, and its items have been told. -/
theorem tellMembers_ok {start : Nat} (h : Tell.Succeeds (image.tellMembers start read tell)) :
    ∃ items, Scan.runAt image.data start (Scan.counted read) = .ok items ∧
      ∀ a ∈ items, Tell.Succeeds (tell a) := by
  unfold tellMembers at h
  split at h
  · obtain ⟨s, s', h⟩ := h
    exact (Step.throw_ok.1 h).elim
  · rename_i n c hn
    obtain ⟨items, c', hread, hitems⟩ := tellTable_ok h []
    exact ⟨items, Scan.runAt_ok.2 ⟨c', Step.bind_ok.2 ⟨n, c, hn, hread⟩⟩, hitems⟩

end Tables

theorem tellMember_ok {ε : Type} {event : List ε → ClassEvent} {tell : Tell ε Unit}
    (h : Tell.Succeeds (tellMember event tell)) : Tell.Succeeds tell := by
  obtain ⟨-, h⟩ := h.then
  split at h
  · exact Tell.succeeds_of_trace ‹_›
  · obtain ⟨s, s', h⟩ := h
    exact (Step.throw_ok.1 h).elim

theorem tellAttributes_ok {ε : Type} {attributes : MemberAttributes}
    {annotated : Annotation → Bool → ε} {other : RawAttribute → ε}
    (h : Tell.Succeeds (image.tellAttributes attributes annotated other)) :
    ∃ all, image.annotations attributes = .ok all := by
  obtain ⟨all, hall, -⟩ := h.of
  exact ⟨all, hall⟩

theorem tellField_ok {attributes : MemberAttributes}
    (h : Tell.Succeeds (image.tellField attributes)) :
    ∃ all, image.annotations attributes = .ok all := tellAttributes_ok h.then.1

theorem tellMethod_ok {d : MethodDeclaration} {attributes : MethodAttributes}
    (h : Tell.Succeeds (image.tellMethod skip d attributes)) :
    (∃ all, image.annotations attributes.common = .ok all) ∧
      (skip.code = false → ∀ span, attributes.code = some span →
        ∃ named, image.readNamedBody skip d span = .ok named) := by
  obtain ⟨hattributes, h⟩ := h.then
  refine ⟨tellAttributes_ok hattributes, fun hskip span hspan => ?_⟩
  simp only [hspan, hskip, Bool.not_false, if_true] at h
  obtain ⟨named, hnamed, -⟩ := h.of
  exact ⟨named, hnamed⟩

/-- What the events of a class have had read. -/
structure Told (image : ClassImage) (skip : Skip) (spans : List AttributeSpan)
    (attributes : ClassAttributes) : Prop where
  spans_eq : Scan.runAt image.data image.attributesStart image.readAttributes = .ok spans
  attributes_eq : spans.foldlM image.addClassAttribute {} = .ok attributes
  sourceFile : skip.debug = false → ∀ span, attributes.sourceFile = some span →
    ∃ text, image.readTextOf span = .ok text
  nestHost : ∀ span, attributes.nestHost = some span →
    ∃ index, image.readBody span Scan.u16 = .ok index
  enclosingMethod : ∀ span, attributes.enclosingMethod = some span →
    ∃ event, image.readBody span image.readEnclosingMethod = .ok event
  annotations : ∃ all, image.annotations attributes.common = .ok all
  nestMembers : ∀ span, attributes.nestMembers = some span →
    ∃ events, image.readBody span (Scan.counted image.readNestMember) = .ok events
  innerClasses : ∀ span, attributes.innerClasses = some span →
    ∃ events, image.readBody span (Scan.counted image.readInnerClass) = .ok events
  fields : ∃ fields, Scan.runAt image.data image.fieldsStart (Scan.counted image.readField) =
    .ok fields ∧ (skip.members = false → ∀ field ∈ fields,
      ∃ all, image.annotations field.2 = .ok all)
  methods : ∃ methods, Scan.runAt image.data image.methodsStart (Scan.counted image.readMethod) =
    .ok methods ∧ (skip.members = false → ∀ method ∈ methods,
      Tell.Succeeds (image.tellMethod skip method.1 method.2))

theorem tellIf_ok {span : Option AttributeSpan} {tell : AttributeSpan → Tell ClassEvent Unit}
    (h : Tell.Succeeds (tellIf span tell)) {found : AttributeSpan} (hspan : span = some found) :
    Tell.Succeeds (tell found) := by
  rw [hspan] at h
  exact h

theorem told_of_events (h : (image.events skip).fault = none) :
    ∃ spans attributes, image.Told skip spans attributes := by
  have h := Tell.succeeds_of_trace h
  unfold tellClass at h
  obtain ⟨interfaces, -, h⟩ := h.of
  obtain ⟨spans, hspans, h⟩ := h.of
  obtain ⟨attributes, hattributes, h⟩ := h.of
  obtain ⟨flags, -, h⟩ := h.of
  obtain ⟨name, -, h⟩ := h.of
  obtain ⟨superName, -, h⟩ := h.of
  obtain ⟨-, h⟩ := h.then
  obtain ⟨hsource, h⟩ := h.ite
  obtain ⟨hhost, h⟩ := h.then
  obtain ⟨henclosing, h⟩ := h.then
  obtain ⟨hannotations, h⟩ := h.then
  obtain ⟨hnest, h⟩ := h.then
  obtain ⟨hinner, h⟩ := h.then
  obtain ⟨hfields, h⟩ := h.then
  obtain ⟨hmethods, -⟩ := h.then
  refine ⟨spans, attributes, hspans, hattributes, ?_, ?_, ?_, tellAttributes_ok hannotations,
    ?_, ?_, ?_, ?_⟩
  · intro hskip span hspan
    obtain ⟨text, htext, -⟩ := (tellIf_ok (hsource (by rw [hskip]; rfl)) hspan).of
    exact ⟨text, htext⟩
  · intro span hspan
    obtain ⟨index, hindex, -⟩ := (tellIf_ok hhost hspan).of
    exact ⟨index, hindex⟩
  · intro span hspan
    obtain ⟨event, hevent, -⟩ := (tellIf_ok henclosing hspan).of
    exact ⟨event, hevent⟩
  · intro span hspan
    obtain ⟨events, hevents, -⟩ := tellMembers_ok (tellIf_ok hnest hspan)
    exact ⟨events, hevents⟩
  · intro span hspan
    obtain ⟨events, hevents, -⟩ := tellMembers_ok (tellIf_ok hinner hspan)
    exact ⟨events, hevents⟩
  · obtain ⟨fields, hread, htold⟩ := tellMembers_ok hfields
    refine ⟨fields, hread, fun hskip field hfield => ?_⟩
    have hfield := tellMember_ok (htold field hfield)
    rw [hskip] at hfield
    exact tellField_ok hfield
  · obtain ⟨methods, hread, htold⟩ := tellMembers_ok hmethods
    refine ⟨methods, hread, fun hskip method hmethod => ?_⟩
    have hmethod := tellMember_ok (htold method hmethod)
    rw [hskip] at hmethod
    exact hmethod

end ClassImage

end JvmClass
