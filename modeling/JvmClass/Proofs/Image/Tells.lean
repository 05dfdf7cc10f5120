import JvmClass.Proofs.Image.Interpreted

/-!
# Events that are told

`Tell.Tells` says that telling ends, and which events it adds to whatever was told before. The events
of a class are those of its parts one after another, so that they are known once each part has been
read (`ClassImage.ReadsAs`).
-/

namespace JvmClass

namespace Tell

variable {ε α : Type} {tell : Tell ε Unit} {events others : List ε}

/-- Exactly these events are told, behind those told before, and nothing puts an end to them. -/
def Tells (tell : Tell ε Unit) (events : List ε) : Prop :=
  ∀ told : Array ε, tell told = .ok () (told ++ events.toArray)

theorem Tells.trace_eq (h : Tells tell events) : tell.trace = ⟨events, none⟩ := by
  unfold trace
  rw [h #[]]
  simp

theorem tells_nothing : Tells (pure () : Tell ε Unit) [] := by
  intro told
  rw [Array.append_empty]
  rfl

theorem tells_event (e : ε) : Tells (event e) [e] := by
  intro told
  show EStateM.Result.ok () (told.push e) = _
  rw [Array.push_eq_append]

theorem tells_all (events : List ε) : Tells (all events) events := by
  intro told
  show EStateM.Result.ok () (events.foldl Array.push told) = _
  rw [List.foldl_push_eq_append']

theorem Tells.then {rest : PUnit → Tell ε Unit} (h : Tells tell events)
    (h' : Tells (rest ()) others) : Tells (tell >>= rest) (events ++ others) := by
  intro told
  refine Step.bind_ok.2 ⟨(), _, h told, ?_⟩
  simp [h' _, Array.append_assoc]

theorem Tells.of {x : Except ClassError α} {a : α} {k : α → Tell ε Unit} (hx : x = .ok a)
    (h : Tells (k a) events) : Tells (Step.of x >>= k) events := by
  intro told
  exact Step.bind_ok.2 ⟨a, told, Step.of_ok.2 ⟨hx, rfl⟩, h told⟩

/-- Events that are left out under a condition. -/
theorem Tells.ite {c : Prop} [Decidable c] {rest : PUnit → Tell ε Unit}
    (h : c → Tells tell events) (hc : ¬ c → events = []) (h' : Tells (rest ()) others) :
    Tells (if c then tell >>= rest else rest ()) (events ++ others) := by
  split
  · rename_i hyes
    exact (h hyes).then h'
  · rename_i hno
    rw [hc hno]
    exact h'

end Tell

/-- What the events of a class tell, part by part. -/
structure ClassContent where
  header : ClassHeader
  sourceFile : Option String := none
  nestHost : Option String := none
  /-- The class around a local class, and the name and descriptor of the method around it. -/
  enclosing : Option (String × Option (String × String)) := none
  annotations : List Annotated := []
  attributes : List RawAttribute := []
  nestMembers : List String := []
  /-- The class, the class that it is a member of, and its own name. -/
  innerClasses : List (String × Option String × Option String × AccessFlags .ofInnerClass) := []
  fields : List (FieldDeclaration × List FieldEvent) := []
  methods : List (MethodDeclaration × List MethodEvent) := []

namespace ClassContent

/-- The event of a class around a local class. -/
def enclosingEvent (enclosing : String × Option (String × String)) : ClassEvent :=
  .enclosingMethod enclosing.1 (enclosing.2.map Prod.fst) (enclosing.2.map Prod.snd)

/-- The event of an inner class. -/
def innerEvent (c : String × Option String × Option String × AccessFlags .ofInnerClass) :
    ClassEvent := .innerClass c.1 c.2.1 c.2.2.1 c.2.2.2

/-- The events of a class in order. -/
def events (c : ClassContent) : List ClassEvent :=
  .header c.header :: ((c.sourceFile.toList.map .sourceFile) ++ ((c.nestHost.toList.map .nestHost) ++
    ((c.enclosing.toList.map enclosingEvent) ++
    ((c.annotations.map (fun (a, visible) => .annotated a visible) ++
      c.attributes.map .attribute) ++
    ((c.nestMembers.map .nestMember) ++ ((c.innerClasses.map innerEvent) ++
    ((c.fields.map fun (d, events) => .field d events) ++
    ((c.methods.map fun (d, events) => .method d events) ++ [.finish]))))))))

end ClassContent

namespace ClassImage

open Tell (Tells)

variable {image : ClassImage} {skip : Skip}

section Tables

variable {α β : Type} {read : Scan α} {tell : α → Tell ClassEvent Unit}

theorem tells_table {n : Nat} {c c' : Cursor} {done all : List α}
    (h : Scan.timesFrom read done n c = .ok all c') :
    ∃ items, all = done.reverse ++ items ∧ ∀ events : List ClassEvent,
      List.Forall₂ (fun a e => Tells (tell a) [e]) items events →
      Tells (image.tellTable read tell n c) events := by
  induction n generalizing c done with
  | zero =>
    obtain ⟨rfl, -⟩ := Step.pure_ok.1 h
    refine ⟨[], (List.append_nil _).symm, ?_⟩
    rintro _ ⟨⟩
    exact Tell.tells_nothing
  | succ n ih =>
    obtain ⟨a, mid, ha, h⟩ := Step.bind_ok.1 h
    obtain ⟨items, rfl, hitems⟩ := ih h
    refine ⟨a :: items, ?_, ?_⟩
    · rw [List.reverse_cons, List.append_assoc]
      rfl
    · rintro _ (_ | ⟨hfirst, hrest⟩)
      unfold tellTable
      rw [ha]
      exact hfirst.then (hitems _ hrest)

/-- A table whose items have been read is told item by item. -/
theorem tells_members {start : Nat} {items : List α} {events : List ClassEvent}
    (h : Scan.runAt image.data start (Scan.counted read) = .ok items)
    (htell : List.Forall₂ (fun a e => Tells (tell a) [e]) items events) :
    Tells (image.tellMembers start read tell) events := by
  obtain ⟨c, h⟩ := Scan.runAt_ok.1 h
  obtain ⟨n, mid, hn, h⟩ := Step.bind_ok.1 h
  unfold tellMembers
  rw [hn]
  obtain ⟨_, rfl, htold⟩ := @tells_table image _ _ tell _ _ _ _ _ h
  exact htold events htell

/-- A table in an attribute whose items are events. -/
theorem tells_listed {read : Scan ClassEvent} {span : Option AttributeSpan}
    {events : List ClassEvent}
    (h : ∀ found, span = some found → image.readBody found (Scan.counted read) = .ok events)
    (hnone : span = none → events = []) :
    Tells (tellIf span fun span => image.tellMembers span.offset read Tell.event) events := by
  cases span with
  | none =>
    rw [hnone rfl]
    exact Tell.tells_nothing
  | some found =>
    refine tells_members (h found rfl) ?_
    rw [List.forall₂_same]
    exact fun e _ => Tell.tells_event e

end Tables

theorem tells_member {ε : Type} {event : List ε → ClassEvent} {tell : Tell ε Unit}
    {events : List ε} (h : Tells tell events) : Tells (tellMember event tell) [event events] := by
  unfold tellMember
  rw [h.trace_eq]
  exact (Tell.tells_event _).then Tell.tells_nothing

theorem tells_attributes {ε : Type} {attributes : MemberAttributes}
    {annotated : Annotation → Bool → ε} {other : RawAttribute → ε} {all : List Annotated}
    (h : image.annotations attributes = .ok all) :
    Tells (image.tellAttributes attributes annotated other)
      (all.map (fun (a, visible) => annotated a visible) ++
        (attributes.others.toList.map image.raw).map other) := by
  rw [List.map_map]
  exact .of h ((Tell.tells_all _).then (Tell.tells_all _))

/-- A field tells its annotations, its attributes and its end. -/
theorem tells_field {attributes : MemberAttributes} {all : List Annotated}
    (h : image.annotations attributes = .ok all) :
    Tells (image.tellField attributes) ((all.map (fun (a, visible) => .annotated a visible) ++
      (attributes.others.toList.map image.raw).map .attribute) ++ [.finish]) :=
  (tells_attributes h).then (Tell.tells_event _)

/-- An attribute that may be missing holds a value, or is missing and there is none. -/
def Held {α : Type} (read : AttributeSpan → Except ClassError α) :
    Option AttributeSpan → Option α → Prop
  | none, value => value = none
  | some span, value => ∃ a, value = some a ∧ read span = .ok a

theorem tells_held {α : Type} {read : AttributeSpan → Except ClassError α} {event : α → ClassEvent}
    {span : Option AttributeSpan} {value : Option α} {tell : AttributeSpan → Tell ClassEvent Unit}
    (h : Held read span value) (htell : ∀ span a, read span = .ok a → Tells (tell span) [event a]) :
    Tells (tellIf span tell) (value.toList.map event) := by
  cases span with
  | none =>
    obtain rfl : value = none := h
    exact Tell.tells_nothing
  | some span =>
    obtain ⟨a, rfl, ha⟩ := h
    exact htell span a ha

/-- Reads an attribute whose body is the index of a class. -/
def readClassOf (image : ClassImage) (span : AttributeSpan) : Except ClassError String := do
  image.cls (← image.readBody span Scan.u16)

/-- The parts of a class file have been read as the given content. -/
structure ReadsAs (image : ClassImage) (skip : Skip) (spans : List AttributeSpan)
    (attributes : ClassAttributes) (content : ClassContent) : Prop where
  spans_eq : image.classAttributes = .ok spans
  attributes_eq : spans.foldlM image.addClassAttribute {} = .ok attributes
  version : image.version = content.header.version
  flags : image.accessFlags = .ok content.header.flags
  name : image.className = .ok content.header.name
  signature : attributes.common.signature = content.header.signature
  superName : image.superName = .ok content.header.superName
  interfaces : image.interfaces = .ok content.header.interfaces
  sourceFile : Held image.readTextOf (if skip.debug then none else attributes.sourceFile)
    content.sourceFile
  nestHost : Held image.readClassOf attributes.nestHost content.nestHost
  enclosing : Held (image.readBody · image.readEnclosingMethod) attributes.enclosingMethod
    (content.enclosing.map ClassContent.enclosingEvent)
  annotations : image.annotations attributes.common = .ok content.annotations
  others : attributes.common.others.toList.map image.raw = content.attributes
  nestMembers : ∀ span, attributes.nestMembers = some span →
    image.readBody span (Scan.counted image.readNestMember) =
      .ok (content.nestMembers.map .nestMember)
  noNestMembers : attributes.nestMembers = none → content.nestMembers = []
  innerClasses : ∀ span, attributes.innerClasses = some span →
    image.readBody span (Scan.counted image.readInnerClass) =
      .ok (content.innerClasses.map ClassContent.innerEvent)
  noInnerClasses : attributes.innerClasses = none → content.innerClasses = []
  fields : ∃ items, Scan.runAt image.data image.fieldsStart (Scan.counted image.readField) =
      .ok items ∧
    List.Forall₂ (fun item field => item.1 = field.1 ∧
      Tells (if skip.members then pure () else image.tellField item.2) field.2)
      items content.fields
  methods : ∃ items, Scan.runAt image.data image.methodsStart (Scan.counted image.readMethod) =
      .ok items ∧
    List.Forall₂ (fun item method => item.1 = method.1 ∧
      Tells (if skip.members then pure () else image.tellMethod skip item.1 item.2) method.2)
      items content.methods

section Bodies

variable {body : NamedBody}

theorem tells_instructions {instructions : List (Nat × Instruction Label)}
    (h : ∀ x ∈ instructions, ∃ e, image.instructionEvent x.2 = .ok e) :
    ∃ events, Tells (image.tellInstructions body instructions) events := by
  induction instructions with
  | nil => exact ⟨[], Tell.tells_nothing⟩
  | cons x rest ih =>
    obtain ⟨offset, i⟩ := x
    obtain ⟨e, he⟩ := h (offset, i) List.mem_cons_self
    obtain ⟨events, hevents⟩ := ih fun y hy => h y (List.mem_cons_of_mem _ hy)
    exact ⟨_, (Tell.tells_all _).then (.of he ((Tell.tells_event e).then hevents))⟩

/-- A body whose places have been named is told if each of its instructions can be. -/
theorem tells_body (h : ∀ x ∈ body.instructions, ∃ e, image.instructionEvent x.2 = .ok e) :
    ∃ events, Tells (image.tellBody body) events := by
  obtain ⟨events, hevents⟩ : ∃ events,
      Tells (image.tellInstructions body body.instructions) events := tells_instructions h
  unfold tellBody
  cases body.places.get? body.size with
  | none =>
    exact ⟨_, (Tell.tells_event _).then ((Tell.tells_event _).then ((Tell.tells_all _).then
      (hevents.then ((Tell.tells_all _).then ((Tell.tells_all _).then (Tell.tells_event _))))))⟩
  | some label =>
    exact ⟨_, (Tell.tells_event _).then ((Tell.tells_event _).then ((Tell.tells_all _).then
      (hevents.then ((Tell.tells_event _).then ((Tell.tells_all _).then ((Tell.tells_all _).then
        (Tell.tells_event _)))))))⟩

end Bodies

variable {spans : List AttributeSpan} {attributes : ClassAttributes} {content : ClassContent}

theorem ReadsAs.tells_fields (h : image.ReadsAs skip spans attributes content) :
    Tells (image.tellMembers image.fieldsStart image.readField fun (declaration, attributes) =>
      tellMember (.field declaration)
        (if skip.members then pure () else image.tellField attributes))
      (content.fields.map fun (d, events) => .field d events) := by
  obtain ⟨items, hread, hitems⟩ := h.fields
  refine tells_members hread (List.forall₂_map_right_iff.2 (hitems.imp ?_))
  rintro ⟨d, attributes⟩ ⟨d', events⟩ ⟨rfl, htell⟩
  exact tells_member htell

theorem ReadsAs.tells_methods (h : image.ReadsAs skip spans attributes content) :
    Tells (image.tellMembers image.methodsStart image.readMethod fun (declaration, attributes) =>
      tellMember (.method declaration)
        (if skip.members then pure () else image.tellMethod skip declaration attributes))
      (content.methods.map fun (d, events) => .method d events) := by
  obtain ⟨items, hread, hitems⟩ := h.methods
  refine tells_members hread (List.forall₂_map_right_iff.2 (hitems.imp ?_))
  rintro ⟨d, attributes⟩ ⟨d', events⟩ ⟨rfl, htell⟩
  exact tells_member htell

/-- A class whose parts have been read is told as its content, and nothing puts an end to it. -/
theorem ReadsAs.events_eq (h : image.ReadsAs skip spans attributes content) :
    image.events skip = ⟨content.events, none⟩ := by
  refine Tells.trace_eq ?_
  have hheader : ClassHeader.mk image.version content.header.flags content.header.name
      attributes.common.signature content.header.superName content.header.interfaces =
        content.header := by
    rw [h.version, h.signature]
  refine .of h.interfaces (.of h.spans_eq (.of h.attributes_eq (.of h.flags (.of h.name
    (.of h.superName ?_)))))
  rw [hheader]
  refine (Tell.tells_event _).then (.ite (fun hdebug => ?_) (fun hdebug => ?_) ?_)
  · have hsource := h.sourceFile
    rw [if_neg (by simpa using hdebug)] at hsource
    exact tells_held hsource fun span a ha => .of ha (Tell.tells_event _)
  · have hsource := h.sourceFile
    rw [if_pos (by simpa using hdebug)] at hsource
    rw [show content.sourceFile = none from hsource]
    rfl
  refine (tells_held h.nestHost fun span a ha => ?_).then ?_
  · obtain ⟨index, hindex, ha⟩ := Step.except_bind_ok.1 ha
    exact .of hindex (.of ha (Tell.tells_event _))
  refine Tells.then ?_ ?_
  · have hmap : content.enclosing.toList.map ClassContent.enclosingEvent =
        (content.enclosing.map ClassContent.enclosingEvent).toList.map id := by
      cases content.enclosing <;> rfl
    rw [hmap]
    exact tells_held h.enclosing fun span a ha => .of ha (Tell.tells_event _)
  have hannotations : Tells (image.tellAttributes attributes.common ClassEvent.annotated
      ClassEvent.attribute) _ := tells_attributes h.annotations
  rw [h.others] at hannotations
  refine hannotations.then ?_
  refine (tells_listed h.nestMembers fun hnone => ?_).then ?_
  · rw [h.noNestMembers hnone]
    rfl
  refine (tells_listed h.innerClasses fun hnone => ?_).then ?_
  · rw [h.noInnerClasses hnone]
    rfl
  exact h.tells_fields.then (h.tells_methods.then (Tell.tells_event _))

end ClassImage

end JvmClass
