import JvmClass.Proofs.Assembly.Members
import JvmClass.Proofs.Flow.HandlerTable

/-!
# What a class under construction records

The events of a class say what it is called, what it has, and what its members are (`ClassParts`).
A builder that has taken them up records just that: every image of its pool looks up what was said
(`ClassBuilder.Recorded`). One event is recorded at a time, and nothing that was recorded before is
lost, since pools are only added to.
-/

namespace JvmClass

open ConstantPool (Gives)

/-- An entry for an inner class: the class, the class that it is a member of, its own name, and its
flags. -/
abbrev InnerEntry := String × Option String × Option String × AccessFlags .ofInnerClass

namespace ClassEvent

def header? : ClassEvent → Option ClassHeader
  | header h => some h
  | _ => none

def sourceFile? : ClassEvent → Option String
  | sourceFile name => some name
  | _ => none

def nestHost? : ClassEvent → Option String
  | nestHost name => some name
  | _ => none

/-- The class around a local class, and the name and descriptor of the method around it. -/
def enclosing? : ClassEvent → Option (String × Option (String × String))
  | enclosingMethod owner (some name) (some descriptor) => some (owner, some (name, descriptor))
  | enclosingMethod owner _ _ => some (owner, none)
  | _ => none

def annotation? : ClassEvent → Option Annotated
  | annotated a visible => some (a, visible)
  | _ => none

def nestMember? : ClassEvent → Option String
  | nestMember name => some name
  | _ => none

def innerClass? : ClassEvent → Option InnerEntry
  | innerClass name outer inner flags => some (name, outer, inner, flags)
  | _ => none

/-- A field and its annotations. -/
def field? : ClassEvent → Option (FieldDeclaration × List Annotated)
  | field d events => some (d, events.filterMap FieldBuilder.annotation?)
  | _ => none

/-- A method and its annotations. -/
def method? : ClassEvent → Option (MethodDeclaration × List Annotated)
  | method d events => some (d, events.filterMap MethodBuilder.annotation?)
  | _ => none

def raw? : ClassEvent → Option RawAttribute
  | «attribute» a => some a
  | _ => none

/-- The event is about neither a field nor a method. -/
def IsPart : ClassEvent → Prop
  | field _ _ | method _ _ => False
  | _ => True

/-- The event holds no attribute that is not interpreted, and a field or method is finished once, at
the end of its events. -/
def Plain : ClassEvent → Prop
  | «attribute» _ => False
  | field _ events => ∃ front, events = front ++ [.finish] ∧
      ∀ e ∈ front, (FieldBuilder.annotation? e).isSome
  | method _ events => ∃ front, events = front ++ [.finish] ∧ ∀ e ∈ front, MethodBuilder.Inside e
  | _ => True

/-- The flags that an event holds have assigned bits only, as flags that were decoded do. -/
def Assigned : ClassEvent → Prop
  | header h => AccessFlags.decode h.flags.bits = h.flags
  | innerClass _ _ _ flags => AccessFlags.decode flags.bits = flags
  | field d _ => AccessFlags.decode d.flags.bits = d.flags
  | method d _ => AccessFlags.decode d.flags.bits = d.flags
  | _ => True

end ClassEvent

/-- Adds an entry unless there is one for the class. -/
def addEntry (entries : List InnerEntry) (c : InnerEntry) : List InnerEntry :=
  if entries.any (·.1 == c.1) then entries else entries ++ [c]

/-- Of the entries for one class the first one counts. -/
def firstEntries (entries : List InnerEntry) : List InnerEntry := entries.foldl addEntry []

theorem mem_of_firstEntries {entries : List InnerEntry} {c : InnerEntry}
    (h : c ∈ firstEntries entries) : c ∈ entries := by
  have hall (kept : List InnerEntry) (h : c ∈ entries.foldl addEntry kept) :
      c ∈ kept ∨ c ∈ entries := by
    clear * - h
    induction entries generalizing kept with
    | nil => exact Or.inl h
    | cons first rest ih =>
      rcases ih _ h with hkept | hrest
      · unfold addEntry at hkept
        split at hkept
        · exact Or.inl hkept
        · rcases List.mem_append.1 hkept with hkept | hfirst
          · exact Or.inl hkept
          · exact Or.inr (List.mem_cons.2 (Or.inl (List.mem_singleton.1 hfirst)))
      · exact Or.inr (List.mem_cons_of_mem _ hrest)
  exact (hall [] h).resolve_left nofun

/-- What the events of a class say, part by part, in the order in which it was said. -/
structure ClassParts where
  header : Option ClassHeader := none
  sourceFile : Option String := none
  nestHost : Option String := none
  enclosing : Option (String × Option (String × String)) := none
  annotations : List Annotated := []
  nestMembers : List String := []
  innerClasses : List InnerEntry := []
  fields : List (FieldDeclaration × List Annotated) := []
  methods : List (MethodDeclaration × List Annotated) := []

namespace ClassParts

/-- What events say. Of what can be said only once the last counts. -/
def of (events : List ClassEvent) : ClassParts where
  header := (events.filterMap ClassEvent.header?).getLast?
  sourceFile := (events.filterMap ClassEvent.sourceFile?).getLast?
  nestHost := (events.filterMap ClassEvent.nestHost?).getLast?
  enclosing := (events.filterMap ClassEvent.enclosing?).getLast?
  annotations := events.filterMap ClassEvent.annotation?
  nestMembers := events.filterMap ClassEvent.nestMember?
  innerClasses := firstEntries (events.filterMap ClassEvent.innerClass?)
  fields := events.filterMap ClassEvent.field?
  methods := events.filterMap ClassEvent.method?

/-- What is said after another event. -/
def add (parts : ClassParts) : ClassEvent → ClassParts
  | .header h => { parts with header := some h }
  | .sourceFile name => { parts with sourceFile := some name }
  | .nestHost name => { parts with nestHost := some name }
  | .enclosingMethod owner name descriptor =>
    { parts with enclosing := ClassEvent.enclosing? (.enclosingMethod owner name descriptor) }
  | .annotated a visible => { parts with annotations := parts.annotations ++ [(a, visible)] }
  | .attribute _ => parts
  | .nestMember name => { parts with nestMembers := parts.nestMembers ++ [name] }
  | .innerClass name outer inner flags =>
    { parts with innerClasses := addEntry parts.innerClasses (name, outer, inner, flags) }
  | .field d events =>
    { parts with fields := parts.fields ++ [(d, events.filterMap FieldBuilder.annotation?)] }
  | .method d events =>
    { parts with methods := parts.methods ++ [(d, events.filterMap MethodBuilder.annotation?)] }
  | .finish => parts

/-- What one event says is said last. -/
theorem filterMap_concat {β : Type} (part? : ClassEvent → Option β) (events : List ClassEvent)
    (e : ClassEvent) : (events ++ [e]).filterMap part? = match part? e with
      | none => events.filterMap part?
      | some said => events.filterMap part? ++ [said] := by
  rw [List.filterMap_append, List.filterMap_cons, List.filterMap_nil]
  cases part? e with
  | none => exact List.append_nil _
  | some said => rfl

theorem of_concat (events : List ClassEvent) (e : ClassEvent) :
    of (events ++ [e]) = (of events).add e := by
  have hlast {β : Type} (part? : ClassEvent → Option β) :
      ((events ++ [e]).filterMap part?).getLast? = match part? e with
        | none => (events.filterMap part?).getLast?
        | some said => some said := by
    rw [filterMap_concat]
    cases part? e with
    | none => rfl
    | some said => exact List.getLast?_concat
  have hfirst : firstEntries ((events ++ [e]).filterMap ClassEvent.innerClass?) =
      match ClassEvent.innerClass? e with
        | none => firstEntries (events.filterMap ClassEvent.innerClass?)
        | some c => addEntry (firstEntries (events.filterMap ClassEvent.innerClass?)) c := by
    rw [filterMap_concat]
    cases ClassEvent.innerClass? e with
    | none => rfl
    | some c => exact List.foldl_concat addEntry [] c _
  rw [of, hlast, hlast, hlast, hlast, hfirst, filterMap_concat, filterMap_concat, filterMap_concat,
    filterMap_concat]
  cases e with
  | enclosingMethod owner name descriptor => cases name <;> cases descriptor <;> rfl
  | _ => rfl

theorem header_mem {events : List ClassEvent} {h : ClassHeader} (hh : (of events).header = some h) :
    .header h ∈ events := by
  obtain ⟨e, he, heq⟩ := List.mem_filterMap.1 (List.mem_of_getLast? hh)
  cases e with
  | header found =>
    cases heq
    exact he
  | _ => cases heq

/-- All flags have assigned bits only. -/
structure Assigned (parts : ClassParts) : Prop where
  header : ∀ h, parts.header = some h → AccessFlags.decode h.flags.bits = h.flags
  innerClasses : ∀ c ∈ parts.innerClasses, AccessFlags.decode c.2.2.2.bits = c.2.2.2
  fields : ∀ field ∈ parts.fields, AccessFlags.decode field.1.flags.bits = field.1.flags
  methods : ∀ method ∈ parts.methods, AccessFlags.decode method.1.flags.bits = method.1.flags

theorem assigned_of {events : List ClassEvent} (h : ∀ e ∈ events, e.Assigned) :
    (of events).Assigned := by
  constructor
  case header => exact fun found hfound => h _ (header_mem hfound)
  case innerClasses =>
    intro c hc
    obtain ⟨e, he, heq⟩ := List.mem_filterMap.1 (mem_of_firstEntries hc)
    cases e with
    | innerClass name outer inner flags =>
      cases heq
      exact h _ he
    | _ => cases heq
  case fields =>
    intro field hfield
    obtain ⟨e, he, heq⟩ := List.mem_filterMap.1 hfield
    cases e with
    | field d events =>
      cases heq
      exact h _ he
    | _ => cases heq
  case methods =>
    intro method hmethod
    obtain ⟨e, he, heq⟩ := List.mem_filterMap.1 hmethod
    cases e with
    | method d events =>
      cases heq
      exact h _ he
    | _ => cases heq

/-- The parts as they are told: of annotations the visible ones first, and members with their
annotations and their end. -/
def content (parts : ClassParts) (header : ClassHeader) : ClassContent where
  header
  sourceFile := parts.sourceFile
  nestHost := parts.nestHost
  enclosing := parts.enclosing
  annotations := toldAnnotations parts.annotations
  nestMembers := parts.nestMembers
  innerClasses := parts.innerClasses
  fields := parts.fields.map fun (d, annotations) =>
    (d, (toldAnnotations annotations).map (fun (a, visible) => .annotated a visible) ++ [.finish])
  methods := parts.methods.map fun (d, annotations) =>
    (d, (toldAnnotations annotations).map (fun (a, visible) => .annotated a visible) ++ [.finish])

end ClassParts

namespace ConstantPool

theorem gives_clsOrZero (name : Option String) :
    Gives (clsOrZero name) fun image i => image.cls? i = .ok name := by
  cases name with
  | none =>
    refine (gives_pure (0 : PoolIndex)).mono ?_
    rintro _ _ rfl
    rfl
  | some name => exact gives_of_denotes (stable_cls name) (ClassImage.cls?_back name)

theorem gives_utf8OrZero (text : Option String) :
    Gives (utf8OrZero text) fun image i => image.utf8? i = .ok text := by
  cases text with
  | none =>
    refine (gives_pure (0 : PoolIndex)).mono ?_
    rintro _ _ rfl
    rfl
  | some text =>
    refine ⟨stable_utf8 text, fun {p i p' image} h hi => ?_⟩
    unfold ClassImage.utf8?
    rw [if_neg (ClassImage.ne_zero_intern (ClassImage.intern_of_utf8 h) hi),
      ClassImage.utf8_back text h hi]
    rfl

/-- A name and a descriptor never have index zero. -/
theorem gives_nameAndType_ne (name descriptor : String) :
    Gives (nameAndType name descriptor) fun image i =>
      i ≠ 0 ∧ image.nameAndType i = .ok (name, descriptor) := by
  refine ⟨stable_nameAndType name descriptor, fun {p i p' image} h hi => ⟨?_, ?_⟩⟩
  · obtain ⟨_, _, -, hrest⟩ := Step.bind_ok.1 h
    obtain ⟨_, _, -, hintern⟩ := Step.bind_ok.1 hrest
    exact ClassImage.ne_zero_intern hintern hi
  · exact ClassImage.nameAndType_back name descriptor h hi

end ConstantPool

/-- The entry holds an inner class, for which the pool has been asked. -/
structure InnerClass.Records (c : InnerClass) (pool : ConstantPool) (image : ClassImage)
    (entry : InnerEntry) : Prop where
  /-- The pool would give the same index again. -/
  asked : ∀ q, pool.Grows q → ConstantPool.cls entry.1 q = .ok c.inner q
  inner : image.cls c.inner = .ok entry.1
  outer : image.cls? c.outer = .ok entry.2.1
  name : image.utf8? c.name = .ok entry.2.2.1
  flags : c.flags = entry.2.2.2

/-- The stored header is that of the class. -/
structure StoredHeader.Records (stored : StoredHeader) (image : ClassImage) (h : ClassHeader) :
    Prop where
  version : stored.version = h.version
  flags : stored.flags = h.flags
  parsed : ClassName.parse h.name = .ok stored.name
  name : image.cls stored.thisClass = .ok h.name
  superName : image.cls? stored.superClass = .ok h.superName
  interfaces : List.Forall₂ (fun name i => image.cls i = .ok name) h.interfaces stored.interfaces
  signature : Option.Rel (fun i text => image.utf8 i = .ok text) stored.signature h.signature

/-- The class around a class, and the method if there is one. -/
def Encloses (image : ClassImage) (stored : PoolIndex × Option PoolIndex)
    (enclosing : String × Option (String × String)) : Prop :=
  image.cls stored.1 = .ok enclosing.1 ∧
    Option.Rel (fun i method => i ≠ 0 ∧ image.nameAndType i = .ok method) stored.2 enclosing.2

namespace ClassBuilder

/-- The builder has recorded the parts of a class, but for its attributes, fields and methods. -/
structure Recorded (b : ClassBuilder) (parts : ClassParts) (image : ClassImage) : Prop where
  header : Option.Rel (fun stored h => stored.Records image h) b.header parts.header
  sourceFile : Option.Rel (fun i name => image.utf8 i = .ok name) b.sourceFile parts.sourceFile
  nestHost : Option.Rel (fun i name => image.cls i = .ok name) b.nestHost parts.nestHost
  enclosing : Option.Rel (Encloses image) b.enclosingMethod parts.enclosing
  annotations : b.annotations.toList = parts.annotations
  nestMembers : List.Forall₂ (fun i name => image.cls i = .ok name) b.nestMembers.toList
    parts.nestMembers
  innerClasses : List.Forall₂ (fun c entry => c.Records b.pool image entry) b.innerClasses.toList
    parts.innerClasses

/-- The builder has recorded the fields and methods of a class without attributes. -/
structure RecordedMembers (b : ClassBuilder) (parts : ClassParts) (image : ClassImage) : Prop where
  attributes : b.attributes = #[]
  fields : List.Forall₂ (fun m field => m.IsField image field.1 field.2 []) b.fields.toList
    parts.fields
  methods : List.Forall₂ (fun m method => ∃ body, m.IsMethod image method.1 body method.2 [])
    b.methods.toList parts.methods

variable {b b' : ClassBuilder} {parts : ClassParts} {image : ClassImage} {u : Unit}

/-- A pool that has been added to. -/
theorem Recorded.grows {pool : ConstantPool} (h : b.Recorded parts image)
    (hgrows : b.pool.Grows pool) : Recorded { b with pool } parts image :=
  { h with
    innerClasses := h.innerClasses.imp fun _ _ hc =>
      { hc with asked := fun q hq => hc.asked q (hgrows.trans hq) } }

/-- A step adds to the pool, and records an event. -/
def Records (b : ClassBuilder) (e : ClassEvent) (b' : ClassBuilder) : Prop :=
  b.pool.Extended b'.pool ∧ ∀ (image : ClassImage) (parts : ClassParts), image.Holds b'.pool →
    b.Recorded parts image → b'.Recorded (parts.add e) image

/-- A step records what an event says of members. -/
def RecordsMembers (b : ClassBuilder) (e : ClassEvent) (b' : ClassBuilder) : Prop :=
  ∀ (image : ClassImage) (parts : ClassParts), image.Holds b'.pool →
    b.RecordedMembers parts image → b'.RecordedMembers (parts.add e) image

/-- The constants of the header. -/
def headerConstants (h : ClassHeader) :
    ConstantPool.Request (PoolIndex × PoolIndex × List PoolIndex × Option PoolIndex) := do
  let thisClass ← ConstantPool.cls h.name
  let superClass ← ConstantPool.clsOrZero h.superName
  let interfaces ← ConstantPool.classes h.interfaces
  let signature ← ConstantPool.utf8? h.signature
  return (thisClass, superClass, interfaces, signature)

theorem gives_headerConstants (h : ClassHeader) : Gives (headerConstants h) fun image found =>
    image.cls found.1 = .ok h.name ∧ image.cls? found.2.1 = .ok h.superName ∧
      List.Forall₂ (fun name i => image.cls i = .ok name) h.interfaces found.2.2.1 ∧
      Option.Rel (fun i text => image.utf8 i = .ok text) found.2.2.2 h.signature := by
  refine ((ConstantPool.gives_cls h.name).bind fun _ =>
    (ConstantPool.gives_clsOrZero h.superName).bind fun _ =>
    (ConstantPool.gives_classes h.interfaces).bind fun _ =>
    (ConstantPool.gives_utf8? h.signature).map).mono ?_
  rintro image _ ⟨thisClass, hthis, superClass, hsuper, interfaces, hinterfaces, signature,
    hsignature, rfl⟩
  exact ⟨hthis, hsuper, hinterfaces, hsignature⟩

/-- The header as it is stored. -/
def storedHeader (h : ClassHeader) (name : ClassName)
    (found : PoolIndex × PoolIndex × List PoolIndex × Option PoolIndex) : StoredHeader :=
  { version := h.version, flags := h.flags, name, thisClass := found.1, superClass := found.2.1
    interfaces := found.2.2.1, signature := found.2.2.2 }

/-- Stores a header, once its version has settled what is computed. -/
def storeHeader (h : ClassHeader) : Build Unit := do
  let thisClass ← ask (ConstantPool.cls h.name)
  let superClass ← ask (ConstantPool.clsOrZero h.superName)
  let interfaces ← ask (ConstantPool.classes h.interfaces)
  let _ ← Step.of (count16 "interfaces" interfaces.length)
  let signature ← ask (ConstantPool.utf8? h.signature)
  let name ← Step.of (ClassName.parse h.name)
  modify fun b =>
    { b with header := some (storedHeader h name (thisClass, superClass, interfaces, signature)) }

theorem storeHeader_ok {h : ClassHeader} (hstore : storeHeader h b = .ok u b') :
    ∃ name found pool, ClassName.parse h.name = .ok name ∧
      headerConstants h b.pool = .ok found pool ∧
      b' = { b with pool, header := some (storedHeader h name found) } := by
  simp only [storeHeader, Step.bind_ok, ask_ok, Step.of_ok, Step.modify_ok] at hstore
  obtain ⟨thisClass, _, ⟨p1, h1, rfl⟩, superClass, _, ⟨p2, h2, rfl⟩, interfaces, _, ⟨p3, h3, rfl⟩,
    _, _, ⟨-, rfl⟩, signature, _, ⟨p4, h4, rfl⟩, name, _, ⟨hname, rfl⟩, rfl⟩ := hstore
  refine ⟨name, (thisClass, superClass, interfaces, signature), p4, hname, ?_, rfl⟩
  simp only [headerConstants, Step.bind_ok]
  exact ⟨thisClass, p1, h1, superClass, p2, h2, interfaces, p3, h3, signature, p4, h4, rfl⟩

theorem beginClass_ok {h : ClassHeader} (hbegin : beginClass h b = .ok u b') :
    ∃ compute name found pool, (compute = b.compute ∨ compute = b.compute.withoutFrames) ∧
      ClassName.parse h.name = .ok name ∧ headerConstants h b.pool = .ok found pool ∧
      b' = { b with compute, pool, header := some (storedHeader h name found) } := by
  have hstore : ∃ compute, (compute = b.compute ∨ compute = b.compute.withoutFrames) ∧
      storeHeader h { b with compute } = .ok u b' := by
    unfold beginClass at hbegin
    split at hbegin
    · obtain ⟨_, _, hmodify, hstore⟩ := Step.bind_ok.1 hbegin
      obtain rfl := Step.modify_ok.1 hmodify
      exact ⟨_, Or.inr rfl, hstore⟩
    · exact ⟨b.compute, Or.inl rfl, hbegin⟩
  obtain ⟨compute, hcompute, hstore⟩ := hstore
  obtain ⟨name, found, pool, hname, hask, rfl⟩ := storeHeader_ok hstore
  exact ⟨compute, name, found, pool, hcompute, hname, hask, rfl⟩

theorem records_header {h : ClassHeader} (hfeed : beginClass h b = .ok u b') :
    b.Records (.header h) b' := by
  obtain ⟨compute, name, found, pool, -, hname, hask, rfl⟩ := beginClass_ok hfeed
  have hgives := gives_headerConstants h
  have hext := (hgives.stable _ _ _ hask).1
  refine ⟨hext, fun image parts hi hb => ?_⟩
  obtain ⟨hthis, hsuper, hinterfaces, hsignature⟩ := hgives.answer hask hi
  exact { hb.grows hext.grows with
    header := .some ⟨rfl, rfl, hname, hthis, hsuper, hinterfaces, hsignature⟩ }

theorem records_sourceFile {name : String} (hfeed : feed (.sourceFile name) b = .ok u b') :
    b.Records (.sourceFile name) b' := by
  simp only [feed, Step.bind_ok, ask_ok, Step.modify_ok] at hfeed
  obtain ⟨index, _, ⟨pool, hask, rfl⟩, rfl⟩ := hfeed
  have hgives := ConstantPool.gives_utf8 name
  have hext := (hgives.stable _ _ _ hask).1
  exact ⟨hext, fun image parts hi hb =>
    { hb.grows hext.grows with sourceFile := .some (hgives.answer hask hi) }⟩

theorem records_nestHost {name : String} (hfeed : feed (.nestHost name) b = .ok u b') :
    b.Records (.nestHost name) b' := by
  simp only [feed, Step.bind_ok, ask_ok, Step.modify_ok] at hfeed
  obtain ⟨index, _, ⟨pool, hask, rfl⟩, rfl⟩ := hfeed
  have hgives := ConstantPool.gives_cls name
  have hext := (hgives.stable _ _ _ hask).1
  exact ⟨hext, fun image parts hi hb =>
    { hb.grows hext.grows with nestHost := .some (hgives.answer hask hi) }⟩

/-- The constants of the class and method around a class. -/
def enclosingConstants (enclosing : String × Option (String × String)) :
    ConstantPool.Request (PoolIndex × Option PoolIndex) := do
  let cls ← ConstantPool.cls enclosing.1
  match enclosing.2 with
  | none => return (cls, none)
  | some (name, descriptor) => return (cls, some (← ConstantPool.nameAndType name descriptor))

theorem gives_enclosingConstants (enclosing : String × Option (String × String)) :
    Gives (enclosingConstants enclosing) fun image stored => Encloses image stored enclosing := by
  obtain ⟨owner, _ | ⟨name, descriptor⟩⟩ := enclosing
  · refine (ConstantPool.gives_cls owner).map.mono ?_
    rintro image _ ⟨cls, hcls, rfl⟩
    exact ⟨hcls, .none⟩
  · refine ((ConstantPool.gives_cls owner).bind fun _ =>
      (ConstantPool.gives_nameAndType_ne name descriptor).map).mono ?_
    rintro image _ ⟨cls, hcls, method, hmethod, rfl⟩
    exact ⟨hcls, .some hmethod⟩

theorem encloseIn_ok {owner : String} {name descriptor : Option String}
    (hfeed : encloseIn owner name descriptor b = .ok u b') :
    ∃ enclosing stored pool,
      ClassEvent.enclosing? (.enclosingMethod owner name descriptor) = some enclosing ∧
      enclosingConstants enclosing b.pool = .ok stored pool ∧
      b' = { b with pool, enclosingMethod := some stored } := by
  obtain ⟨cls, _, hcls, hfeed⟩ := Step.bind_ok.1 hfeed
  obtain ⟨pool, howner, rfl⟩ := ask_ok.1 hcls
  cases name with
  | none =>
    cases descriptor with
    | none =>
      obtain rfl := Step.modify_ok.1 hfeed
      exact ⟨_, _, pool, rfl, Step.bind_ok.2 ⟨cls, pool, howner, rfl⟩, rfl⟩
    | some descriptor =>
      obtain ⟨_, _, hthrow, -⟩ := Step.bind_ok.1 hfeed
      exact (Step.throw_ok.1 hthrow).elim
  | some name =>
    cases descriptor with
    | none =>
      obtain ⟨_, _, hthrow, -⟩ := Step.bind_ok.1 hfeed
      exact (Step.throw_ok.1 hthrow).elim
    | some descriptor =>
      obtain ⟨method, mid, hmethod, hfeed⟩ := Step.bind_ok.1 hfeed
      obtain rfl := Step.modify_ok.1 hfeed
      replace hmethod : (do return some (← ask (ConstantPool.nameAndType name descriptor)) :
        Build (Option PoolIndex)) { b with pool } = .ok method mid := hmethod
      obtain ⟨index, _, hindex, hmethod⟩ := Step.bind_ok.1 hmethod
      obtain ⟨pool', hmember, rfl⟩ := ask_ok.1 hindex
      obtain ⟨rfl, rfl⟩ := Step.pure_ok.1 hmethod
      exact ⟨_, _, pool', rfl, Step.bind_ok.2 ⟨cls, pool, howner,
        Step.bind_ok.2 ⟨index, pool', hmember, rfl⟩⟩, rfl⟩

theorem records_enclosingMethod {owner : String} {name descriptor : Option String}
    (hfeed : encloseIn owner name descriptor b = .ok u b') :
    b.Records (.enclosingMethod owner name descriptor) b' := by
  obtain ⟨enclosing, stored, pool, henclosing, hask, rfl⟩ := encloseIn_ok hfeed
  have hgives := gives_enclosingConstants enclosing
  have hext := (hgives.stable _ _ _ hask).1
  refine ⟨hext, fun image parts hi hb => ?_⟩
  have hparts : parts.add (.enclosingMethod owner name descriptor) =
      { parts with enclosing := some enclosing } := by
    rw [← henclosing]
    rfl
  rw [hparts]
  exact { hb.grows hext.grows with enclosing := .some (hgives.answer hask hi) }

theorem forall₂_concat {α β : Type} {related : α → β → Prop} {items : List α} {things : List β}
    {a : α} {c : β} (h : List.Forall₂ related items things) (hlast : related a c) :
    List.Forall₂ related (items ++ [a]) (things ++ [c]) :=
  List.rel_append h (.cons hlast .nil)

theorem records_nestMember {name : String} (hfeed : addNestMember name b = .ok u b') :
    b.Records (.nestMember name) b' := by
  simp only [addNestMember, Step.bind_ok, ask_ok, Step.modify_ok, Step.get_ok, Step.of_ok] at hfeed
  obtain ⟨cls, _, ⟨pool, hask, rfl⟩, _, _, rfl, _, _, ⟨rfl, rfl⟩, _, _, ⟨-, rfl⟩, hend⟩ := hfeed
  obtain ⟨-, rfl⟩ := Step.pure_ok.1 hend
  have hgives := ConstantPool.gives_cls name
  have hext := (hgives.stable _ _ _ hask).1
  refine ⟨hext, fun image parts hi hb => ?_⟩
  refine { hb.grows hext.grows with nestMembers := ?_ }
  rw [Array.toList_push]
  exact forall₂_concat hb.nestMembers (hgives.answer hask hi)

/-- Whether there is an entry for a class already is seen from its index. -/
theorem any_innerClasses {stored : List InnerClass} {entries : List InnerEntry} {name : String}
    {cls : PoolIndex} {p pool : ConstantPool} (hask : ConstantPool.cls name p = .ok cls pool)
    (hgrows : p.Grows pool) (hi : image.Holds pool)
    (h : List.Forall₂ (fun c entry => InnerClass.Records c p image entry) stored entries) :
    stored.any (·.inner == cls) = entries.any (·.1 == name) := by
  have hcls := ClassImage.cls_back name hask hi
  induction h with
  | nil => rfl
  | @cons c entry stored entries hc _ ih =>
    rw [List.any_cons, List.any_cons, ih]
    congr 1
    rw [Bool.eq_iff_iff, beq_iff_eq, beq_iff_eq]
    constructor
    · rintro rfl
      exact Except.ok.inj (hc.inner.symm.trans hcls)
    · rintro rfl
      -- the pool answers as it did when the entry came about
      have hagain := hc.asked pool hgrows
      have hsame := ((ConstantPool.stable_cls _) _ _ _ hask).2 pool (.refl pool)
      rw [hagain] at hsame
      cases hsame
      rfl

theorem records_innerClass {name : String} {outer inner : Option String}
    {flags : AccessFlags .ofInnerClass} (hfeed : addInnerClass name outer inner flags b = .ok u b') :
    b.Records (.innerClass name outer inner flags) b' := by
  obtain ⟨cls, _, hcls, hfeed⟩ := Step.bind_ok.1 hfeed
  obtain ⟨pool, hask, rfl⟩ := ask_ok.1 hcls
  obtain ⟨_, _, hget, hfeed⟩ := Step.bind_ok.1 hfeed
  obtain ⟨rfl, rfl⟩ := Step.get_ok.1 hget
  obtain ⟨hext, hagain⟩ := ConstantPool.stable_cls _ _ _ _ hask
  have hknown {image : ClassImage} {parts : ClassParts} (hi : image.Holds pool)
      (hb : b.Recorded parts image) : b.innerClasses.any (·.inner == cls) =
        parts.innerClasses.any (·.1 == name) := by
    rw [← any_innerClasses hask hext.grows hi hb.innerClasses, Array.any_toList]
  split at hfeed
  · rename_i hnew
    simp only [Step.bind_ok, ask_ok, Step.modify_ok, Step.get_ok, Step.of_ok] at hfeed
    obtain ⟨_, _, ⟨pool', houter, rfl⟩, _, _, ⟨pool'', hinner, rfl⟩, _, _, rfl, _, _, ⟨rfl, rfl⟩, _,
      _, ⟨-, rfl⟩, hend⟩ := hfeed
    obtain ⟨-, rfl⟩ := Step.pure_ok.1 hend
    have houtward := ConstantPool.gives_clsOrZero outer
    have hnamed := ConstantPool.gives_utf8OrZero inner
    have hext' := (houtward.stable _ _ _ houter).1
    have hext'' := (hnamed.stable _ _ _ hinner).1
    have hgrows := hext'.grows.trans hext''.grows
    refine ⟨(hext.trans hext').trans hext'', fun image parts hi hb => ?_⟩
    have hparts : parts.add (.innerClass name outer inner flags) =
        { parts with innerClasses := parts.innerClasses ++ [(name, outer, inner, flags)] } := by
      have hno := hknown (hi.of_grows hgrows) hb
      simp only [Bool.not_eq_true', hno] at hnew
      simp [ClassParts.add, addEntry, hnew]
    rw [hparts]
    refine { hb.grows (hext.grows.trans hgrows) with innerClasses := ?_ }
    rw [Array.toList_push]
    refine forall₂_concat (hb.grows (hext.grows.trans hgrows)).innerClasses ⟨?_, ?_, ?_, ?_, rfl⟩
    · exact fun q hq => hagain q (hgrows.trans hq)
    · exact ClassImage.cls_back name hask (hi.of_grows hgrows)
    · exact houtward.answer houter (hi.of_grows hext''.grows)
    · exact hnamed.answer hinner hi
  · rename_i hold
    obtain ⟨-, rfl⟩ := Step.pure_ok.1 hfeed
    refine ⟨hext, fun image parts hi hb => ?_⟩
    have hparts : parts.add (.innerClass name outer inner flags) = parts := by
      have hyes := hknown hi hb
      simp only [Bool.not_eq_true', hyes, Bool.not_eq_false] at hold
      simp [ClassParts.add, addEntry, hold]
    rw [hparts]
    exact hb.grows hext.grows

theorem records_annotated {a : Annotation} {visible : Bool}
    (hfeed : feed (.annotated a visible) b = .ok u b') : b.Records (.annotated a visible) b' := by
  obtain rfl := Step.modify_ok.1 hfeed
  refine ⟨.refl, fun image parts hi hb => ?_⟩
  refine { hb with annotations := ?_ }
  rw [Array.toList_push, hb.annotations]
  rfl

/-- The end of a class changes nothing. -/
theorem endClass_ok (hfeed : endClass b = .ok u b') : b' = b := by
  simp only [endClass, Step.bind_ok, getHeader_ok, Step.get_ok, Step.of_ok] at hfeed
  obtain ⟨_, _, ⟨-, rfl⟩, _, _, ⟨rfl, rfl⟩, _, _, ⟨-, rfl⟩, _, _, ⟨-, rfl⟩, hend⟩ := hfeed
  exact (Step.pure_ok.1 hend).2.symm

theorem records_finish (hfeed : endClass b = .ok u b') : b.Records .finish b' := by
  obtain rfl := endClass_ok hfeed
  exact ⟨.refl, fun image parts hi hb => hb⟩

theorem onField_ok {step : Step FieldBuilder Unit} {f : FieldBuilder} :
    (∃ result, onField step f b = .ok result b' ∧ result.1 = .ok u) ↔
      ∃ g, step { f with pool := b.pool } = .ok u g ∧
        b' = { b with pool := g.pool, fields := b.fields ++ g.finished } := by
  unfold onField
  cases hstep : step { f with pool := b.pool } with
  | ok a g =>
    simp only [hstep]
    constructor
    · rintro ⟨_, ⟨⟩, -⟩
      exact ⟨g, rfl, rfl⟩
    · rintro ⟨_, ⟨⟩, rfl⟩
      exact ⟨_, rfl, rfl⟩
  | error e g =>
    simp only [hstep]
    constructor
    · rintro ⟨_, ⟨⟩, ⟨⟩⟩
    · rintro ⟨_, ⟨⟩, -⟩

theorem onMethod_ok {step : Assemble Unit} {m : MethodBuilder} :
    (∃ result, onMethod step m b = .ok result b' ∧ result.1 = .ok u) ↔
      ∃ g, step { m with pool := b.pool } = .ok u g ∧
        b' = { b with pool := g.pool, methods := b.methods ++ g.finished } := by
  unfold onMethod
  cases hstep : step { m with pool := b.pool } with
  | ok a g =>
    simp only [hstep]
    constructor
    · rintro ⟨_, ⟨⟩, -⟩
      exact ⟨g, rfl, rfl⟩
    · rintro ⟨_, ⟨⟩, rfl⟩
      exact ⟨_, rfl, rfl⟩
  | error e g =>
    simp only [hstep]
    constructor
    · rintro ⟨_, ⟨⟩, ⟨⟩⟩
    · rintro ⟨_, ⟨⟩, -⟩

/-- A field gets its constants first and then takes up its events. -/
theorem feed_field {d : FieldDeclaration} {events : List FieldEvent} :
    feed (.field d events) b = .ok u b' ↔ ∃ header found pool g, b.header = some header ∧
      FieldBuilder.constants d b.pool = .ok found pool ∧
      feedField events (FieldBuilder.ofConstants d b.copiedPool found pool) = .ok () g ∧
      b' = { b with pool := g.pool, fields := b.fields ++ g.finished } := by
  simp only [feed, startField, Step.bind_ok, getHeader_ok, ask_ok, Step.get_ok, Step.pure_ok,
    Step.of_ok]
  constructor
  · rintro ⟨_, _, ⟨header, _, ⟨hheader, rfl⟩, found, _, ⟨pool, hask, rfl⟩, _, _, ⟨rfl, rfl⟩, rfl,
      rfl⟩, result, _, htaken, hok, rfl⟩
    obtain ⟨g, hrun, rfl⟩ := onField_ok.1 ⟨result, htaken, hok⟩
    exact ⟨header, found, pool, g, hheader, hask, hrun, rfl⟩
  · rintro ⟨header, found, pool, g, hheader, hask, hrun, rfl⟩
    obtain ⟨result, htaken, hok⟩ := (onField_ok (b := { b with pool })
      (f := FieldBuilder.ofConstants d b.copiedPool found ConstantPool.empty)).2 ⟨g, hrun, rfl⟩
    exact ⟨_, _, ⟨header, _, ⟨hheader, rfl⟩, found, _, ⟨pool, hask, rfl⟩, _, _, ⟨rfl, rfl⟩, rfl,
      rfl⟩, result, _, htaken, hok, rfl⟩

/-- A method gets what is fixed first and then takes up its events. -/
theorem feed_method {d : MethodDeclaration} {events : List MethodEvent} :
    feed (.method d events) b = .ok u b' ↔ ∃ header setting pool g, b.header = some header ∧
      MethodBuilder.start b.compute b.copiedPool b.hierarchy header.name d b.pool =
        .ok setting pool ∧
      feedMethod events (MethodBuilder.ofSetting setting pool) = .ok () g ∧
      b' = { b with pool := g.pool, methods := b.methods ++ g.finished } := by
  simp only [feed, startMethod, Step.bind_ok, getHeader_ok, ask_ok, Step.get_ok, Step.pure_ok,
    Step.of_ok]
  constructor
  · rintro ⟨_, _, ⟨header, _, ⟨hheader, rfl⟩, _, _, ⟨rfl, rfl⟩, setting, _, ⟨pool, hask, rfl⟩, rfl,
      rfl⟩, result, _, htaken, hok, rfl⟩
    obtain ⟨g, hrun, rfl⟩ := onMethod_ok.1 ⟨result, htaken, hok⟩
    exact ⟨header, setting, pool, g, hheader, hask, hrun, rfl⟩
  · rintro ⟨header, setting, pool, g, hheader, hask, hrun, rfl⟩
    obtain ⟨result, htaken, hok⟩ := (onMethod_ok (b := { b with pool })
      (m := MethodBuilder.ofSetting setting ConstantPool.empty)).2 ⟨g, hrun, rfl⟩
    exact ⟨_, _, ⟨header, _, ⟨hheader, rfl⟩, _, _, ⟨rfl, rfl⟩, setting, _, ⟨pool, hask, rfl⟩, rfl,
      rfl⟩, result, _, htaken, hok, rfl⟩

theorem records_attribute {a : RawAttribute} (hfeed : feed (.attribute a) b = .ok u b') :
    b.Records (.attribute a) b' := by
  simp only [feed, Step.bind_ok, Step.get_ok, Step.of_ok, Step.modify_ok] at hfeed
  obtain ⟨_, _, ⟨rfl, rfl⟩, _, _, ⟨-, rfl⟩, rfl⟩ := hfeed
  exact ⟨.refl, fun image parts hi hb => { hb with }⟩

theorem records_field {d : FieldDeclaration} {events : List FieldEvent}
    (hfeed : feed (.field d events) b = .ok u b') : b.Records (.field d events) b' := by
  obtain ⟨header, found, pool, g, -, hask, hrun, rfl⟩ := feed_field.1 hfeed
  have hext : b.pool.Extended g.pool :=
    ((FieldBuilder.gives_constants d).stable _ _ _ hask).1.trans (FieldBuilder.extended_run hrun)
  exact ⟨hext, fun image parts hi hb => { hb.grows hext.grows with }⟩

theorem records_method {d : MethodDeclaration} {events : List MethodEvent}
    (hfeed : feed (.method d events) b = .ok u b') : b.Records (.method d events) b' := by
  obtain ⟨header, setting, pool, g, -, hask, hrun, rfl⟩ := feed_method.1 hfeed
  have hext : b.pool.Extended g.pool :=
    ((MethodBuilder.gives_start _ _ _ _ d).stable _ _ _ hask).1.trans
      (MethodBuilder.extended_run hrun)
  exact ⟨hext, fun image parts hi hb => { hb.grows hext.grows with }⟩

/-- Every event is recorded. -/
theorem records_feed {e : ClassEvent} (hfeed : feed e b = .ok u b') : b.Records e b' := by
  cases e with
  | header h => exact records_header hfeed
  | sourceFile name => exact records_sourceFile hfeed
  | nestHost name => exact records_nestHost hfeed
  | enclosingMethod owner name descriptor => exact records_enclosingMethod hfeed
  | annotated a visible => exact records_annotated hfeed
  | «attribute» a => exact records_attribute hfeed
  | nestMember name => exact records_nestMember hfeed
  | innerClass name outer inner flags => exact records_innerClass hfeed
  | field d events => exact records_field hfeed
  | method d events => exact records_method hfeed
  | finish => exact records_finish hfeed

/-- A run of events is recorded. -/
theorem recorded_feedAll {events : List ClassEvent} (hfed : feedAll events b = .ok u b') :
    b.pool.Extended b'.pool ∧ ∀ (image : ClassImage) (before : List ClassEvent),
      image.Holds b'.pool → b.Recorded (.of before) image →
      b'.Recorded (.of (before ++ events)) image := by
  induction events generalizing b with
  | nil =>
    obtain ⟨-, rfl⟩ := Step.pure_ok.1 hfed
    refine ⟨.refl, fun image before hi hb => ?_⟩
    rwa [List.append_nil]
  | cons e rest ih =>
    obtain ⟨_, mid, hfirst, hrest⟩ := Step.bind_ok.1 hfed
    obtain ⟨hext, hrecords⟩ := records_feed hfirst
    obtain ⟨hext', hrun⟩ := ih hrest
    refine ⟨hext.trans hext', fun image before hi hb => ?_⟩
    have hmid := hrecords image _ (hi.of_grows hext'.grows) hb
    rw [← ClassParts.of_concat] at hmid
    rw [List.append_cons]
    exact hrun image _ hi hmid

section Members

theorem recordsMembers_field {d : FieldDeclaration} {events : List FieldEvent}
    (hplain : (ClassEvent.field d events).Plain) (hfeed : feed (.field d events) b = .ok u b') :
    b.RecordsMembers (.field d events) b' := by
  obtain ⟨front, rfl, hfront⟩ := hplain
  obtain ⟨header, found, pool, g, -, hask, hrun, rfl⟩ := feed_field.1 hfeed
  have honly := fun e he => FieldBuilder.inside_of_annotation (hfront e he)
  obtain ⟨m, hm, -, hfield⟩ :=
    FieldBuilder.isField_of_run hask (fun e he => (honly e he).1) hrun
  rw [List.filterMap_eq_nil_iff.2 fun e he => (honly e he).2] at hfield
  intro image parts hi hb
  have hparts : parts.add (.field d (front ++ [.finish])) =
      { parts with fields := parts.fields ++ [(d, front.filterMap FieldBuilder.annotation?)] } := by
    simp [ClassParts.add, FieldBuilder.annotation?]
  rw [hparts]
  refine { hb with fields := ?_ }
  rw [hm, Array.toList_append]
  exact forall₂_concat hb.fields (hfield image hi)

theorem recordsMembers_method {d : MethodDeclaration} {events : List MethodEvent}
    (hplain : (ClassEvent.method d events).Plain) (hfeed : feed (.method d events) b = .ok u b') :
    b.RecordsMembers (.method d events) b' := by
  obtain ⟨front, rfl, hfront⟩ := hplain
  obtain ⟨header, setting, pool, g, -, hask, hrun, rfl⟩ := feed_method.1 hfeed
  obtain ⟨m, body, hm, -, hmethod⟩ := MethodBuilder.isMethod_of_run hask hfront hrun
  intro image parts hi hb
  have hparts : parts.add (.method d (front ++ [.finish])) =
      { parts with
        methods := parts.methods ++ [(d, front.filterMap MethodBuilder.annotation?)] } := by
    simp [ClassParts.add, MethodBuilder.annotation?]
  rw [hparts]
  refine { hb with methods := ?_ }
  rw [hm, Array.toList_append]
  exact forall₂_concat hb.methods ⟨body, hmethod image hi⟩

/-- Fields and methods stay as they are, attributes are added, and nothing comes to be computed. -/
structure Leaves (b : ClassBuilder) (attributes : List RawAttribute) (b' : ClassBuilder) :
    Prop where
  fields : b'.fields = b.fields
  methods : b'.methods = b.methods
  attributes : b'.attributes.toList = b.attributes.toList ++ attributes
  compute : b.compute = ⟨false, false⟩ → b'.compute = ⟨false, false⟩

theorem addInnerClass_ok {name : String} {outer inner : Option String}
    {flags : AccessFlags .ofInnerClass} (hfeed : addInnerClass name outer inner flags b = .ok u b') :
    ∃ pool innerClasses, b' = { b with pool, innerClasses } := by
  obtain ⟨cls, _, hcls, hfeed⟩ := Step.bind_ok.1 hfeed
  obtain ⟨pool, hask, rfl⟩ := ask_ok.1 hcls
  obtain ⟨_, _, hget, hfeed⟩ := Step.bind_ok.1 hfeed
  obtain ⟨rfl, rfl⟩ := Step.get_ok.1 hget
  split at hfeed
  · simp only [Step.bind_ok, ask_ok, Step.modify_ok, Step.get_ok, Step.of_ok] at hfeed
    obtain ⟨_, _, ⟨pool', houter, rfl⟩, _, _, ⟨pool'', hinner, rfl⟩, _, _, rfl, _, _, ⟨rfl, rfl⟩, _,
      _, ⟨-, rfl⟩, hend⟩ := hfeed
    obtain ⟨-, rfl⟩ := Step.pure_ok.1 hend
    exact ⟨pool'', _, rfl⟩
  · obtain ⟨-, rfl⟩ := Step.pure_ok.1 hfeed
    exact ⟨pool, _, rfl⟩

theorem leaves_feed {e : ClassEvent} (hpart : e.IsPart) (hfeed : feed e b = .ok u b') :
    b.Leaves e.raw?.toList b' := by
  have hnothing : b.attributes.toList = b.attributes.toList ++ [] := (List.append_nil _).symm
  cases e with
  | header h =>
    obtain ⟨compute, name, found, pool, hcompute, -, -, rfl⟩ := beginClass_ok hfeed
    refine ⟨rfl, rfl, hnothing, fun hnone => ?_⟩
    rcases hcompute with rfl | rfl
    · exact hnone
    · rw [hnone]
      rfl
  | sourceFile name =>
    simp only [feed, Step.bind_ok, ask_ok, Step.modify_ok] at hfeed
    obtain ⟨index, _, ⟨pool, -, rfl⟩, rfl⟩ := hfeed
    exact ⟨rfl, rfl, hnothing, id⟩
  | nestHost name =>
    simp only [feed, Step.bind_ok, ask_ok, Step.modify_ok] at hfeed
    obtain ⟨index, _, ⟨pool, -, rfl⟩, rfl⟩ := hfeed
    exact ⟨rfl, rfl, hnothing, id⟩
  | enclosingMethod owner name descriptor =>
    obtain ⟨enclosing, stored, pool, -, -, rfl⟩ := encloseIn_ok hfeed
    exact ⟨rfl, rfl, hnothing, id⟩
  | annotated a visible =>
    obtain rfl := Step.modify_ok.1 hfeed
    exact ⟨rfl, rfl, hnothing, id⟩
  | «attribute» a =>
    simp only [feed, Step.bind_ok, Step.get_ok, Step.of_ok, Step.modify_ok] at hfeed
    obtain ⟨_, _, ⟨rfl, rfl⟩, _, _, ⟨-, rfl⟩, rfl⟩ := hfeed
    exact ⟨rfl, rfl, Array.toList_push, id⟩
  | nestMember name =>
    simp only [feed, addNestMember, Step.bind_ok, ask_ok, Step.modify_ok, Step.get_ok,
      Step.of_ok] at hfeed
    obtain ⟨cls, _, ⟨pool, -, rfl⟩, _, _, rfl, _, _, ⟨rfl, rfl⟩, _, _, ⟨-, rfl⟩, hend⟩ := hfeed
    obtain ⟨-, rfl⟩ := Step.pure_ok.1 hend
    exact ⟨rfl, rfl, hnothing, id⟩
  | innerClass name outer inner flags =>
    obtain ⟨pool, innerClasses, rfl⟩ := addInnerClass_ok hfeed
    exact ⟨rfl, rfl, hnothing, id⟩
  | field d events => exact hpart.elim
  | method d events => exact hpart.elim
  | finish =>
    obtain rfl := endClass_ok hfeed
    exact ⟨rfl, rfl, hnothing, id⟩

theorem RecordedMembers.leaves {parts : ClassParts} {image : ClassImage} {e : ClassEvent}
    (h : b.RecordedMembers parts image) (hleaves : b.Leaves [] b')
    (hfields : (parts.add e).fields = parts.fields)
    (hmethods : (parts.add e).methods = parts.methods) :
    b'.RecordedMembers (parts.add e) image where
  attributes := by
    rw [← Array.toList_inj, hleaves.attributes, List.append_nil, h.attributes]
  fields := by
    rw [hleaves.fields, hfields]
    exact h.fields
  methods := by
    rw [hleaves.methods, hmethods]
    exact h.methods

/-- Every event that holds no attribute records what it says of members. -/
theorem recordsMembers_feed {e : ClassEvent} (hplain : e.Plain) (hfeed : feed e b = .ok u b') :
    b.RecordsMembers e b' := by
  cases e with
  | «attribute» a => exact hplain.elim
  | field d events => exact recordsMembers_field hplain hfeed
  | method d events => exact recordsMembers_method hplain hfeed
  | _ =>
    have hleaves := leaves_feed (by exact trivial) hfeed
    exact fun image parts hi hb => hb.leaves hleaves rfl rfl

/-- A run of events records the members. -/
theorem recordedMembers_feedAll {events : List ClassEvent} (hplain : ∀ e ∈ events, e.Plain)
    (hfed : feedAll events b = .ok u b') (image : ClassImage) (before : List ClassEvent)
    (hi : image.Holds b'.pool) (hb : b.RecordedMembers (.of before) image) :
    b'.RecordedMembers (.of (before ++ events)) image := by
  induction events generalizing b before with
  | nil =>
    obtain ⟨-, rfl⟩ := Step.pure_ok.1 hfed
    rwa [List.append_nil]
  | cons e rest ih =>
    obtain ⟨_, mid, hfirst, hrest⟩ := Step.bind_ok.1 hfed
    obtain ⟨hfirstPlain, hrestPlain⟩ := List.forall_mem_cons.1 hplain
    have hmid := recordsMembers_feed hfirstPlain hfirst image _
      (hi.of_grows (recorded_feedAll hrest).1.grows) hb
    rw [← ClassParts.of_concat] at hmid
    rw [List.append_cons]
    exact ih hrestPlain hrest _ hmid

end Members

end ClassBuilder

end JvmClass
