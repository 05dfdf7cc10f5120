import JvmClass.Proofs.Assembly.RoundTrip
import JvmClass.Proofs.Image.Telling
import JvmClass.Proofs.Image.Visits

/-!
# The content of a class that is told

When nothing puts an end to the events of a class file, they are those of some content
(`ClassImage.readsAs_of_events`). What is kept as its bytes has no name that is interpreted, and
flags have assigned bits only.
-/

namespace JvmClass

open Tell (Tells Succeeds)

theorem AccessFlags.decode_decode {kind : FlagKind} (raw : UInt16) :
    AccessFlags.decode (AccessFlags.decode raw : AccessFlags kind).bits =
      (AccessFlags.decode raw : AccessFlags kind) := by
  simp only [AccessFlags.decode, UInt16.and_assoc, UInt16.and_self]

namespace Scan

variable {α : Type} {read : Scan α} {good : α → Prop}

theorem timesFrom_forall (hread : ∀ c a c', read c = .ok a c' → good a) {n : Nat}
    {done items : List α} {c c' : Cursor} (hdone : ∀ a ∈ done, good a)
    (h : timesFrom read done n c = .ok items c') : ∀ a ∈ items, good a := by
  induction n generalizing c done with
  | zero =>
    obtain ⟨rfl, -⟩ := Step.pure_ok.1 h
    exact fun a ha => hdone a (List.mem_reverse.1 ha)
  | succ n ih =>
    obtain ⟨a, mid, ha, h⟩ := Step.bind_ok.1 h
    exact ih (List.forall_mem_cons.2 ⟨hread _ _ _ ha, hdone⟩) h

/-- What is read item by item is good if every item is. -/
theorem counted_forall (hread : ∀ c a c', read c = .ok a c' → good a) {data : Bytes} {start : Nat}
    {items : List α} (h : runAt data start (counted read) = .ok items) : ∀ a ∈ items, good a := by
  obtain ⟨c, h⟩ := runAt_ok.1 h
  obtain ⟨n, mid, -, h⟩ := Step.bind_ok.1 h
  exact timesFrom_forall hread (List.forall_mem_nil _) h

end Scan

/-- Each item has a counterpart. -/
theorem forall₂_of_forall_exists {α β : Type} {related : α → β → Prop} {items : List α}
    (h : ∀ a ∈ items, ∃ b, related a b) : ∃ others, List.Forall₂ related items others := by
  induction items with
  | nil => exact ⟨[], .nil⟩
  | cons a rest ih =>
    obtain ⟨⟨b, hb⟩, hrest⟩ := List.forall_mem_cons.1 h
    obtain ⟨others, hothers⟩ := ih hrest
    exact ⟨b :: others, .cons hb hothers⟩

namespace ClassImage

variable {image : ClassImage} {skip : Skip}

section Others

variable {span : AttributeSpan}

/-- An attribute is kept as it is only if its name is not interpreted. -/
def KeepsOthers (interpreted : String → Bool) (span : AttributeSpan) (s s' : MemberAttributes) :
    Prop :=
  ∀ other ∈ s'.others, other ∈ s.others ∨ (other = span ∧ interpreted span.name = false)

theorem keepsOthers_addAttribute {s s' : MemberAttributes} (h : image.addAttribute s span =
    .ok s') : KeepsOthers isCommon span s s' := by
  unfold addAttribute at h
  split_ifs at h with h1 h2 h3
  · obtain ⟨text, -, h⟩ := Step.except_bind_ok.1 h
    cases h
    exact fun other hother => Or.inl hother
  · cases h
    exact fun other hother => Or.inl hother
  · cases h
    exact fun other hother => Or.inl hother
  · cases h
    intro other hother
    rcases Array.mem_push.1 hother with hother | rfl
    · exact Or.inl hother
    · exact Or.inr ⟨rfl, by simp [isCommon, h1, h2, h3]⟩

theorem keepsOthers_addClassAttribute {s s' : ClassAttributes}
    (h : image.addClassAttribute s span = .ok s') :
    KeepsOthers ClassBuilder.isClassAttribute span s.common s'.common := by
  unfold addClassAttribute at h
  split_ifs at h with h1 h2 h3 h4 h5 h6
  case neg =>
    obtain ⟨common, hcommon, h⟩ := Step.except_bind_ok.1 h
    cases h
    refine fun other hother => (keepsOthers_addAttribute hcommon other hother).imp_right ?_
    rintro ⟨rfl, hname⟩
    exact ⟨rfl, by simp [ClassBuilder.isClassAttribute, h1, h2, h3, h4, h5, h6, hname]⟩
  all_goals
    cases h
    exact fun other hother => Or.inl hother

theorem keepsOthers_addFieldAttribute {s s' : FieldAttributes}
    (h : image.addFieldAttribute s span = .ok s') :
    KeepsOthers Member.isFieldAttribute span s.common s'.common := by
  unfold addFieldAttribute at h
  split_ifs at h with h1
  · obtain ⟨_, -, h⟩ := Step.except_bind_ok.1 h
    obtain ⟨_, -, h⟩ := Step.except_bind_ok.1 h
    cases h
    exact fun other hother => Or.inl hother
  · obtain ⟨common, hcommon, h⟩ := Step.except_bind_ok.1 h
    cases h
    refine fun other hother => (keepsOthers_addAttribute hcommon other hother).imp_right ?_
    rintro ⟨rfl, hname⟩
    exact ⟨rfl, by simp [Member.isFieldAttribute, h1, hname]⟩

theorem keepsOthers_addMethodAttribute {s s' : MethodAttributes}
    (h : image.addMethodAttribute s span = .ok s') :
    KeepsOthers Member.isMethodAttribute span s.common s'.common := by
  unfold addMethodAttribute at h
  split_ifs at h with h1 h2
  · cases h
    exact fun other hother => Or.inl hother
  · obtain ⟨_, -, h⟩ := Step.except_bind_ok.1 h
    cases h
    exact fun other hother => Or.inl hother
  · obtain ⟨common, hcommon, h⟩ := Step.except_bind_ok.1 h
    cases h
    refine fun other hother => (keepsOthers_addAttribute hcommon other hother).imp_right ?_
    rintro ⟨rfl, hname⟩
    exact ⟨rfl, by simp [Member.isMethodAttribute, h1, h2, hname]⟩

theorem others_of_foldlM {σ : Type} {f : σ → AttributeSpan → Except ClassError σ}
    (common : σ → MemberAttributes) {interpreted : String → Bool}
    (hf : ∀ t span t', f t span = .ok t' → KeepsOthers interpreted span (common t) (common t'))
    {spans : List AttributeSpan} {s r : σ} (h : spans.foldlM f s = .ok r) :
    ∀ other ∈ (common r).others, other ∈ (common s).others ∨ interpreted other.name = false := by
  induction spans generalizing s with
  | nil =>
    cases h
    exact fun other hother => Or.inl hother
  | cons span rest ih =>
    rw [List.foldlM_cons] at h
    obtain ⟨t, ht, h⟩ := Step.except_bind_ok.1 h
    intro other hother
    rcases ih h other hother with hother | hname
    · refine (hf _ _ _ ht other hother).imp_right ?_
      rintro ⟨rfl, hname⟩
      exact hname
    · exact Or.inr hname

end Others

section Members

/-- The field has been declared with assigned flags, and its other attributes are not
interpreted. -/
theorem readField_good {c c' : Cursor} {item : FieldDeclaration × MemberAttributes}
    (h : image.readField c = .ok item c') :
    AccessFlags.decode item.1.flags.bits = item.1.flags ∧
      ∀ span ∈ item.2.others.toList, Member.isFieldAttribute span.name = false := by
  rw [readField_eq] at h
  obtain ⟨m, mid, -, h⟩ := Step.bind_ok.1 h
  obtain ⟨attributes, hattributes, h⟩ := Step.except_bind_ok.1 (Step.of_ok.1 h).1
  cases h
  refine ⟨AccessFlags.decode_decode m.flags, fun span hspan => ?_⟩
  rcases others_of_foldlM FieldAttributes.common
    (fun _ _ _ => keepsOthers_addFieldAttribute) hattributes span (Array.mem_toList_iff.1 hspan)
    with hnone | hname
  · exact absurd hnone (Array.not_mem_empty _)
  · exact hname

/-- The method has been declared with assigned flags, and its other attributes are not
interpreted. -/
theorem readMethod_good {c c' : Cursor} {item : MethodDeclaration × MethodAttributes}
    (h : image.readMethod c = .ok item c') :
    AccessFlags.decode item.1.flags.bits = item.1.flags ∧
      ∀ span ∈ item.2.common.others.toList, Member.isMethodAttribute span.name = false := by
  rw [readMethod_eq] at h
  obtain ⟨m, mid, -, h⟩ := Step.bind_ok.1 h
  obtain ⟨attributes, hattributes, h⟩ := Step.except_bind_ok.1 (Step.of_ok.1 h).1
  cases h
  refine ⟨AccessFlags.decode_decode m.flags, fun span hspan => ?_⟩
  rcases others_of_foldlM MethodAttributes.common
    (fun _ _ _ => keepsOthers_addMethodAttribute) hattributes span (Array.mem_toList_iff.1 hspan)
    with hnone | hname
  · exact absurd hnone (Array.not_mem_empty _)
  · exact hname

end Members

section Events

variable {c c' : Cursor} {e : ClassEvent}

theorem readEnclosingMethod_ok (h : image.readEnclosingMethod c = .ok e c') :
    ∃ enclosing, e = ClassContent.enclosingEvent enclosing := by
  obtain ⟨_, _, -, h⟩ := Step.bind_ok.1 h
  obtain ⟨owner, _, -, h⟩ := Step.bind_ok.1 h
  obtain ⟨index, _, -, h⟩ := Step.bind_ok.1 h
  split at h
  · obtain ⟨rfl, -⟩ := Step.pure_ok.1 h
    exact ⟨(owner, none), rfl⟩
  · obtain ⟨⟨name, descriptor⟩, _, -, h⟩ := Step.bind_ok.1 h
    obtain ⟨rfl, -⟩ := Step.pure_ok.1 h
    exact ⟨(owner, some (name, descriptor)), rfl⟩

theorem readNestMember_ok (h : image.readNestMember c = .ok e c') :
    ∃ name, ClassEvent.nestMember name = e := by
  obtain ⟨_, _, -, h⟩ := Step.bind_ok.1 h
  obtain ⟨name, _, -, h⟩ := Step.bind_ok.1 h
  obtain ⟨rfl, -⟩ := Step.pure_ok.1 h
  exact ⟨name, rfl⟩

/-- Flags of inner classes have assigned bits only. -/
theorem readInnerClass_ok (h : image.readInnerClass c = .ok e c') :
    ∃ entry : InnerEntry, AccessFlags.decode entry.2.2.2.bits = entry.2.2.2 ∧
      ClassContent.innerEvent entry = e := by
  obtain ⟨_, _, -, h⟩ := Step.bind_ok.1 h
  obtain ⟨name, _, -, h⟩ := Step.bind_ok.1 h
  obtain ⟨_, _, -, h⟩ := Step.bind_ok.1 h
  obtain ⟨outer, _, -, h⟩ := Step.bind_ok.1 h
  obtain ⟨_, _, -, h⟩ := Step.bind_ok.1 h
  obtain ⟨inner, _, -, h⟩ := Step.bind_ok.1 h
  obtain ⟨flags, _, -, h⟩ := Step.bind_ok.1 h
  obtain ⟨rfl, -⟩ := Step.pure_ok.1 h
  exact ⟨(name, outer, inner, .decode flags), AccessFlags.decode_decode flags, rfl⟩

/-- An attribute that may be missing holds what has been told of it. -/
theorem held_of_succeeds {α : Type} {read : AttributeSpan → Except ClassError α}
    {span : Option AttributeSpan} {tell : AttributeSpan → Tell ClassEvent Unit}
    (h : Succeeds (tellIf span tell))
    (hread : ∀ span, Succeeds (tell span) → ∃ a, read span = .ok a) :
    ∃ value, Held read span value := by
  cases span with
  | none => exact ⟨none, rfl⟩
  | some span =>
    obtain ⟨a, ha⟩ := hread span h
    exact ⟨some a, a, rfl, ha⟩

/-- A table in an attribute that may be missing holds what has been told of it. -/
theorem listed_of_succeeds {β : Type} {read : Scan ClassEvent} {event : β → ClassEvent}
    {span : Option AttributeSpan}
    (h : Succeeds (tellIf span fun span => image.tellMembers span.offset read Tell.event))
    (hread : ∀ c e c', read c = .ok e c' → ∃ b, event b = e) :
    ∃ items : List β, (∀ found, span = some found →
        image.readBody found (Scan.counted read) = .ok (items.map event)) ∧
      (span = none → items = []) := by
  cases span with
  | none => exact ⟨[], nofun, fun _ => rfl⟩
  | some span =>
    obtain ⟨events, hevents, -⟩ := tellMembers_ok h
    have hall := Scan.counted_forall hread hevents
    obtain ⟨items, rfl⟩ := (Set.ext_iff.1 (Set.range_list_map event) events).2 hall
    refine ⟨items, ?_, nofun⟩
    rintro _ ⟨⟩
    exact hevents

end Events

section Methods

variable {d : MethodDeclaration} {attributes : MethodAttributes}

/-- The events of the body of a method, if it has one. -/
inductive TellsCode (image : ClassImage) (d : MethodDeclaration) :
    Option AttributeSpan → List MethodEvent → Prop
  | none : TellsCode image d none []
  | some {span : AttributeSpan} {named : NamedBody} {events : List MethodEvent}
    (read : image.readNamedBody {} d span = .ok named) (tells : Tells
    (image.tellBody named) events) : TellsCode image d (some span) events

/-- A method tells its annotations, its attributes, its body and its end. -/
theorem tells_method {all : List Annotated} {body : List MethodEvent}
    (hall : image.annotations attributes.common = .ok all)
    (hcode : image.TellsCode d attributes.code body) :
    Tells (image.tellMethod {} d attributes)
      ((all.map (fun (a, visible) => .annotated a visible) ++
        (attributes.common.others.toList.map image.raw).map .attribute) ++ (body ++ [.finish])) :=
        by
  refine (tells_attributes hall).then ?_
  generalize attributes.code = code at hcode ⊢
  cases hcode with
  | none => exact Tell.tells_event _
  | some read tells => exact .of read (tells.then (Tell.tells_event _))

theorem told_of_tellMethod (h : Succeeds (image.tellMethod {} d attributes)) : ∃ all body,
    image.annotations attributes.common = .ok all ∧ image.TellsCode d attributes.code body ∧
    Tells (image.tellMethod {} d attributes)
      ((all.map (fun (a, visible) => .annotated a visible) ++
        (attributes.common.others.toList.map image.raw).map .attribute) ++
          (body ++ [.finish])) := by
  obtain ⟨⟨all, hall⟩, -⟩ := tellMethod_ok h
  obtain ⟨body, hcode⟩ : ∃ body, image.TellsCode d attributes.code body := by
    have hrest := h.then.2
    generalize attributes.code = code at hrest ⊢
    cases code with
    | none => exact ⟨[], .none⟩
    | some span =>
      obtain ⟨named, hnamed, hbody⟩ := hrest.of
      obtain ⟨told, -, htells⟩ := tellBody_ok hbody.then.1
      exact ⟨_, .some hnamed htells⟩
  exact ⟨all, body, hall, hcode, tells_method hall hcode⟩

end Methods

section Content

/-- A table of members has been read, and each of them has been told. -/
theorem members_of_succeeds {ε α δ : Type} {start : Nat} {read : Scan (δ × α)}
    {tell : δ × α → Tell ClassEvent Unit} (own : δ → α → Tell ε Unit)
    (h : Succeeds (image.tellMembers start read tell))
    (htold : ∀ d a, Succeeds (tell (d, a)) → ∃ events, Tells (own d a) events) :
    ∃ items, Scan.runAt image.data start (Scan.counted read) = .ok items ∧
      ∃ members : List (δ × List ε), List.Forall₂ (fun item member => item.1 = member.1 ∧
        Tells (own item.1 item.2) member.2) items members := by
  obtain ⟨items, hitems, hall⟩ := tellMembers_ok h
  refine ⟨items, hitems, forall₂_of_forall_exists fun item hitem => ?_⟩
  obtain ⟨events, hevents⟩ := htold item.1 item.2 (hall item hitem)
  exact ⟨(item.1, events), rfl, hevents⟩

theorem enclosing_of_held {span : Option AttributeSpan} {event : Option ClassEvent}
    (h : Held (image.readBody · image.readEnclosingMethod) span event) :
    ∃ enclosing : Option (String × Option (String × String)),
      event = enclosing.map ClassContent.enclosingEvent := by
  cases span with
  | none => exact ⟨none, h⟩
  | some span =>
    obtain ⟨e, rfl, he⟩ := h
    obtain ⟨c, he⟩ := Scan.runAt_ok.1 he
    obtain ⟨enclosing, rfl⟩ := readEnclosingMethod_ok he
    exact ⟨some enclosing, rfl⟩

/-- **A class without a fault is told as some content.** -/
theorem readsAs_of_events (h : (image.events {}).fault = none) :
    ∃ spans attributes content, image.ReadsAs {} spans attributes content := by
  have h := Tell.succeeds_of_trace h
  unfold tellClass at h
  obtain ⟨interfaces, hinterfaces, h⟩ := h.of
  obtain ⟨spans, hspans, h⟩ := h.of
  obtain ⟨attributes, hattributes, h⟩ := h.of
  obtain ⟨flags, hflags, h⟩ := h.of
  obtain ⟨name, hname, h⟩ := h.of
  obtain ⟨superName, hsuper, h⟩ := h.of
  obtain ⟨-, h⟩ := h.then
  obtain ⟨hsource, h⟩ := h.then
  obtain ⟨hhost, h⟩ := h.then
  obtain ⟨henclosing, h⟩ := h.then
  obtain ⟨hannotations, h⟩ := h.then
  obtain ⟨hnest, h⟩ := h.then
  obtain ⟨hinner, h⟩ := h.then
  obtain ⟨hfields, h⟩ := h.then
  obtain ⟨hmethods, -⟩ := h.then
  obtain ⟨annotations, hannotations⟩ := tellAttributes_ok hannotations
  obtain ⟨sourceFile, hsourceFile⟩ : ∃ value, Held image.readTextOf attributes.sourceFile value :=
    held_of_succeeds hsource fun span hspan => by
      obtain ⟨text, htext, -⟩ := hspan.of
      exact ⟨text, htext⟩
  obtain ⟨nestHost, hnestHost⟩ : ∃ value, Held image.readClassOf attributes.nestHost value :=
    held_of_succeeds hhost fun span hspan => by
      obtain ⟨index, hindex, hspan⟩ := hspan.of
      obtain ⟨cls, hcls, -⟩ := hspan.of
      exact ⟨cls, Step.except_bind_ok.2 ⟨index, hindex, hcls⟩⟩
  obtain ⟨event, hevent⟩ : ∃ value, Held (image.readBody · image.readEnclosingMethod)
      attributes.enclosingMethod value :=
    held_of_succeeds henclosing fun span hspan => by
      obtain ⟨event, hevent, -⟩ := hspan.of
      exact ⟨event, hevent⟩
  obtain ⟨enclosing, rfl⟩ := enclosing_of_held hevent
  obtain ⟨nestMembers, hmember, hnoMember⟩ :=
    listed_of_succeeds hnest fun _ _ _ => readNestMember_ok
  obtain ⟨innerClasses, hclass, hnoClass⟩ := listed_of_succeeds hinner fun _ _ _ hread =>
    (readInnerClass_ok hread).imp fun _ => And.right
  obtain ⟨fields, hreadFields, fieldsTold, hfieldsTold⟩ := members_of_succeeds
    (fun _ attributes => image.tellField attributes) hfields fun d a htold => by
      obtain ⟨all, hall⟩ := tellField_ok (tellMember_ok htold)
      exact ⟨_, tells_field hall⟩
  obtain ⟨methods, hreadMethods, methodsTold, hmethodsTold⟩ := members_of_succeeds
    (fun d attributes => image.tellMethod {} d attributes) hmethods fun d a htold => by
      obtain ⟨all, body, -, -, htells⟩ := told_of_tellMethod (tellMember_ok htold)
      exact ⟨_, htells⟩
  refine ⟨spans, attributes, {
    header := ⟨image.version, flags, name, attributes.common.signature, superName, interfaces⟩
    sourceFile, nestHost, enclosing, annotations, nestMembers, innerClasses
    attributes := attributes.common.others.toList.map image.raw
    fields := fieldsTold
    methods := methodsTold }, ?_⟩
  exact ⟨hspans, hattributes, rfl, hflags, hname, rfl, hsuper, hinterfaces, hsourceFile, hnestHost,
    hevent, hannotations, rfl, hmember, hnoMember, hclass, hnoClass, ⟨fields, hreadFields,
    hfieldsTold⟩, ⟨methods, hreadMethods, hmethodsTold⟩⟩

/-- The annotations of a member are in the order in which they are told. -/
theorem toldAnnotations_eq {attributes : MemberAttributes} {all : List Annotated}
    (h : image.annotations attributes = .ok all) : toldAnnotations all = all := by
  obtain ⟨visible, -, h⟩ := Step.except_bind_ok.1 h
  obtain ⟨invisible, -, h⟩ := Step.except_bind_ok.1 h
  cases h
  simp [toldAnnotations, Attribute.chosen, List.filter_append, List.filter_map, Function.comp_def]

/-- Content that has been read: it is in the order in which it is told, flags have assigned bits
only, and what is kept as its bytes has no name that is interpreted. -/
structure Proper (image : ClassImage) (content : ClassContent) : Prop where
  headerFlags : AccessFlags.decode content.header.flags.bits = content.header.flags
  told : toldAnnotations content.annotations = content.annotations
  names : ∀ a ∈ content.attributes, ClassBuilder.isClassAttribute a.name = false
  innerFlags : ∀ c ∈ content.innerClasses, AccessFlags.decode c.2.2.2.bits = c.2.2.2
  fields : ∀ field ∈ content.fields, AccessFlags.decode field.1.flags.bits = field.1.flags ∧
    ∃ attributes : MemberAttributes,
      (∀ span ∈ attributes.others.toList, Member.isFieldAttribute span.name = false) ∧
      Tells (image.tellField attributes) field.2
  methods : ∀ method ∈ content.methods, AccessFlags.decode method.1.flags.bits = method.1.flags ∧
    ∃ attributes : MethodAttributes,
      (∀ span ∈ attributes.common.others.toList, Member.isMethodAttribute span.name = false) ∧
      Tells (image.tellMethod {} method.1 attributes) method.2

theorem ReadsAs.proper {spans : List AttributeSpan} {attributes : ClassAttributes}
    {content : ClassContent} (h : image.ReadsAs {} spans attributes content) :
    image.Proper content where
  headerFlags := by
    obtain ⟨bits, -, hflags⟩ := Step.except_bind_ok.1 h.flags
    rw [← Except.ok.inj hflags]
    exact AccessFlags.decode_decode bits
  told := toldAnnotations_eq h.annotations
  names := by
    rw [← h.others]
    refine List.forall_mem_map.2 fun span hspan => ?_
    refine (others_of_foldlM ClassAttributes.common (fun _ _ _ => keepsOthers_addClassAttribute)
      h.attributes_eq span (Array.mem_toList_iff.1 hspan)).resolve_left (Array.not_mem_empty _)
  innerFlags := by
    cases hspan : attributes.innerClasses with
    | none =>
      rw [h.noInnerClasses hspan]
      exact List.forall_mem_nil _
    | some span =>
      have hall := Scan.counted_forall (fun _ _ _ => readInnerClass_ok) (h.innerClasses span hspan)
      intro c hc
      obtain ⟨entry, hflags, heq⟩ := hall _ (List.mem_map_of_mem hc)
      obtain ⟨-, -, -, hsame⟩ := ClassEvent.innerClass.inj heq
      exact hsame ▸ hflags
  fields := by
    obtain ⟨items, hread, hitems⟩ := h.fields
    have hall := Scan.counted_forall (fun _ _ _ => readField_good) hread
    intro field hfield
    obtain ⟨item, hitem, hd, htold⟩ := exists_of_forall₂ hitems hfield
    obtain ⟨hflags, hnames⟩ := hall item hitem
    exact ⟨hd ▸ hflags, item.2, hnames, htold⟩
  methods := by
    obtain ⟨items, hread, hitems⟩ := h.methods
    have hall := Scan.counted_forall (fun _ _ _ => readMethod_good) hread
    intro method hmethod
    obtain ⟨item, hitem, hd, htold⟩ := exists_of_forall₂ hitems hmethod
    obtain ⟨hflags, hnames⟩ := hall item hitem
    exact ⟨hd ▸ hflags, item.2, hnames, hd ▸ htold⟩

end Content

end ClassImage

end JvmClass
