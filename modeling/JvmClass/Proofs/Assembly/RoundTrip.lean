import JvmClass.Proofs.Assembly.Content
import JvmClass.Proofs.ChainTable
import JvmClass.Proofs.Constant.Originals

/-!
# Classes that are read back

What a builder has recorded is written with it, and what was written is found where it was written.
Reading tells the parts of the class again (`ClassBuilder.parts_read_back`): of what was said more
than once the last, of inner classes the first entry for each class, annotations with the visible
ones first, and everything else in the order in which it was said.
-/

namespace JvmClass

open Scan (Finds Reads)

theorem Scan.reads_of_ok {α : Type} {x : Except ClassError α} {a : α} (h : x = .ok a) :
    Reads (Step.of x) [] a := h ▸ Scan.reads_of a

namespace ClassImage

variable {image : ClassImage} {span : Option AttributeSpan} {body : Option AttributeBody}

/-- An attribute that may be missing is kept where it is found. -/
theorem foldlM_span {σ : Type} {f : σ → AttributeSpan → Except ClassError σ}
    (put : Option AttributeSpan → σ) (name : String)
    (hf : ∀ span, span.name = name → f (put none) span = .ok (put (some span)))
    (hname : ∀ found : AttributeBody, body = some found → found.name = name)
    (hfound : image.Found body span) : span.toList.foldlM f (put none) = .ok (put span) := by
  cases hfound with
  | none => rfl
  | some hspan =>
    rw [Option.toList_some, foldlM_singleton]
    exact hf _ (hspan.name.trans (hname _ rfl))

theorem name_of_map {α : Type} {make : α → AttributeBody} {name : String} {index : Option α}
    (h : ∀ a, (make a).name = name) (found : AttributeBody) (hfound : index.map make = some found) :
    found.name = name := by
  obtain ⟨a, -, rfl⟩ := Option.map_eq_some_iff.1 hfound
  exact h a

theorem name_of_table {made : AttributeBody} {name : String} {missing : Bool}
    (h : made.name = name) (found : AttributeBody)
    (hfound : (if missing then none else some made) = some found) : found.name = name := by
  cases missing
  · cases hfound
    exact h
  · cases hfound

/-- An attribute for an index that may be missing holds what the index stands for. -/
theorem held_of_found {α β : Type} {make : β → AttributeBody}
    {read : AttributeSpan → Except ClassError α} {good : β → α → Prop} {index : Option β}
    {value : Option α} (hfound : image.Found (index.map make) span)
    (hvalue : Option.Rel good index value)
    (hread : ∀ i a span, span.Holds image.data (0, make i) → good i a → read span = .ok a) :
    Held read span value := by
  cases hvalue with
  | none =>
    cases hfound
    rfl
  | some hgood =>
    cases hfound with | some hspan =>
    exact ⟨_, rfl, hread _ _ _ hspan hgood⟩

/-- A table that is missing when it is empty is read where it is found. -/
theorem table_of_found {β : Type} {make : List β → AttributeBody} {items : Array β}
    {read : Scan ClassEvent} (events : List ClassEvent) (hlength : events.length = items.size)
    (hfound : image.Found (if items.isEmpty then none else some (make items.toList)) span)
    (hread : ¬ items.isEmpty → Reads (Scan.counted read) (make items.toList).encode events) :
    (∀ found, span = some found → image.readBody found (Scan.counted read) = .ok events) ∧
      (span = none → events = []) := by
  split at hfound
  · rename_i hempty
    cases hfound
    refine ⟨nofun, fun _ => List.eq_nil_of_length_eq_zero ?_⟩
    rw [hlength, Array.isEmpty_iff.1 hempty]
    rfl
  · rename_i hsome
    cases hfound with | some hspan =>
    refine ⟨?_, nofun⟩
    rintro _ ⟨⟩
    exact readBody_of_holds hspan (hread hsome)

theorem reads_enclosing {stored : PoolIndex × Option PoolIndex}
    {enclosing : String × Option (String × String)} (h : Encloses image stored enclosing) :
    Reads image.readEnclosingMethod (bytes16 stored.1 ++ bytes16 (stored.2.getD 0))
      (ClassContent.enclosingEvent enclosing) := by
  obtain ⟨howner, hmethod⟩ := h
  refine (Scan.reads_u16 _).bind ((Scan.reads_of_ok howner).after ?_)
  refine (Scan.reads_u16 _).before ?_
  obtain ⟨cls, index⟩ := stored
  obtain ⟨owner, method⟩ := enclosing
  cases hmethod with
  | none => exact Scan.reads_pure _
  | some h =>
    simp only [Option.getD_some]
    rw [if_neg h.1]
    exact (Scan.reads_of_ok h.2).after (Scan.reads_pure _)

theorem reads_nestMembers {classes : List PoolIndex} {names : List String}
    (h : List.Forall₂ (fun i name => image.cls i = .ok name) classes names)
    (hcount : classes.length < 65536) :
    Reads (Scan.counted image.readNestMember) (Put.countedBytes bytes16 classes)
      (names.map .nestMember) := by
  have hall : List.Forall₂ (Reads image.readNestMember) (classes.map bytes16)
      (names.map .nestMember) := by
    rw [List.forall₂_map_left_iff, List.forall₂_map_right_iff]
    refine h.imp fun i name hi => ?_
    refine (Scan.reads_u16 i).before ?_
    exact (Scan.reads_of_ok hi).map
  have hread := Scan.reads_counted hall (by rwa [List.length_map, ← h.length_eq])
  rw [List.length_map, ← h.length_eq] at hread
  exact hread.cast (by simp [Put.countedBytes, List.flatMap_def])

theorem reads_innerClass {c : InnerClass} {entry : InnerEntry} {pool : ConstantPool}
    (h : c.Records pool image entry)
    (hflags : AccessFlags.decode entry.2.2.2.bits = entry.2.2.2) :
    Reads image.readInnerClass c.encode (ClassContent.innerEvent entry) := by
  refine (Scan.reads_u16 _).bind ((Scan.reads_of_ok h.inner).after ?_)
  refine (Scan.reads_u16 _).bind ((Scan.reads_of_ok h.outer).after ?_)
  refine (Scan.reads_u16 _).bind ((Scan.reads_of_ok h.name).after ?_)
  have hread := (Scan.reads_u16 entry.2.2.2.bits).map (f := fun bits =>
    ClassEvent.innerClass entry.1 entry.2.1 entry.2.2.1 (.decode bits))
  rw [hflags] at hread
  rwa [h.flags]

theorem reads_innerClasses {classes : List InnerClass} {entries : List InnerEntry}
    {pool : ConstantPool}
    (h : List.Forall₂ (fun c entry => c.Records pool image entry) classes entries)
    (hflags : ∀ entry ∈ entries, AccessFlags.decode entry.2.2.2.bits = entry.2.2.2)
    (hcount : classes.length < 65536) :
    Reads (Scan.counted image.readInnerClass) (Put.countedBytes InnerClass.encode classes)
      (entries.map ClassContent.innerEvent) := by
  have hall : List.Forall₂ (Reads image.readInnerClass) (classes.map InnerClass.encode)
      (entries.map ClassContent.innerEvent) := by
    rw [List.forall₂_map_left_iff, List.forall₂_map_right_iff]
    clear hcount
    induction h with
    | nil => exact .nil
    | cons hc _ ih =>
      obtain ⟨hfirst, hrest⟩ := List.forall_mem_cons.1 hflags
      exact .cons (reads_innerClass hc hfirst) (ih hrest)
  have hread := Scan.reads_counted hall (by rwa [List.length_map, ← h.length_eq])
  rw [List.length_map, ← h.length_eq] at hread
  exact hread.cast (by simp [Put.countedBytes, List.flatMap_def])

end ClassImage

namespace ClassBuilder

variable {b b' : ClassBuilder} {header : StoredHeader} {image : ClassImage}

/-- The attributes of a class have been gathered, and each is where it was written. -/
structure Gathered (b : ClassBuilder) (header : StoredHeader) (image : ClassImage)
    (visible invisible : Option AttributeBody) (signature : Option String)
    (found : ClassImage.ClassAttributes) : Prop where
  sourceFile : image.Found (b.sourceFile.map .sourceFile) found.sourceFile
  enclosing : image.Found (b.enclosingMethod.map fun (cls, method) => .enclosingMethod cls method)
    found.enclosingMethod
  nestHost : image.Found (b.nestHost.map .nestHost) found.nestHost
  nestMembers : image.Found
    (if b.nestMembers.isEmpty then none else some (.nestMembers b.nestMembers.toList))
    found.nestMembers
  innerClasses : image.Found
    (if b.innerClasses.isEmpty then none else some (.innerClasses b.innerClasses.toList))
    found.innerClasses
  signature : found.common.signature = signature
  visible : image.Found visible found.common.visible
  invisible : image.Found invisible found.common.invisible
  others : found.common.others.toList.map image.raw = b.attributes.toList

/-- Whether an attribute of a class is interpreted. -/
def isClassAttribute (name : String) : Bool :=
  name == "SourceFile" || name == "NestHost" || name == "EnclosingMethod" ||
    name == "NestMembers" || name == "InnerClasses" || name == "BootstrapMethods" ||
      ClassImage.isCommon name

theorem gathered_of_holding {own last : List Attribute} {visible invisible : Option AttributeBody}
    {p : ConstantPool} {spans : List AttributeSpan} {signature : Option String}
    (howned : OwnListed b header image own visible invisible)
    (hnames : ∀ a ∈ b.attributes.toList, isClassAttribute a.name = false)
    (hlast : Attribute.Listed last image (bootstrapBody p).toList)
    (hsignature : Option.Rel (fun i text => image.utf8 i = .ok text) header.signature signature)
    (hholding : image.Holding (own ++ last) spans) :
    ∃ found, spans.foldlM image.addClassAttribute {} = .ok found ∧
      Gathered b header image visible invisible signature found := by
  have hspanned := hholding.spanned
  rw [(howned.listed.append hlast).bodies] at hspanned
  simp only [ownBodies, List.append_assoc] at hspanned
  rw [← List.append_nil (bootstrapBody p).toList] at hspanned
  obtain ⟨source, _, rfl, hsource, hspanned⟩ := hspanned.optional
  obtain ⟨text, _, rfl, htext, hspanned⟩ := hspanned.optional
  obtain ⟨enclosing, _, rfl, henclosing, hspanned⟩ := hspanned.optional
  obtain ⟨host, _, rfl, hhost, hspanned⟩ := hspanned.optional
  obtain ⟨members, _, rfl, hmembers, hspanned⟩ := hspanned.optional
  obtain ⟨classes, _, rfl, hclasses, hspanned⟩ := hspanned.optional
  obtain ⟨shown, _, rfl, hshown, hspanned⟩ := hspanned.optional
  obtain ⟨hidden, _, rfl, hhidden, hspanned⟩ := hspanned.optional
  obtain ⟨others, _, rfl, hothers, hspanned⟩ := hspanned.split
  obtain ⟨boots, _, rfl, hboots, hspanned⟩ := hspanned.optional
  cases hspanned
  have hother (s h e n i : Option AttributeSpan) (c : MemberAttributes) (span : AttributeSpan)
      (hspan : span.name = "Signature" ∨ span.name = "RuntimeVisibleAnnotations" ∨
        span.name = "RuntimeInvisibleAnnotations" ∨ isClassAttribute span.name = false) :
      image.addClassAttribute ⟨s, h, e, n, i, c⟩ span =
        (do return ⟨s, h, e, n, i, ← image.addAttribute c span⟩) := by
    rcases hspan with hspan | hspan | hspan | hspan
    · simp [ClassImage.addClassAttribute, hspan]
    · simp [ClassImage.addClassAttribute, hspan]
    · simp [ClassImage.addClassAttribute, hspan]
    · simp only [isClassAttribute, Bool.or_eq_false_iff] at hspan
      simp [ClassImage.addClassAttribute, hspan]
  refine ⟨⟨source, host, enclosing, members, classes, ⟨signature, shown, hidden, others.toArray⟩⟩,
    ?_, ⟨hsource, henclosing, hhost, hmembers, hclasses, rfl, hshown, hhidden, hothers.map_raw⟩⟩
  rw [List.foldlM_append]
  refine Step.except_bind_ok.2 ⟨_, ClassImage.foldlM_span
    (fun s => (⟨s, none, none, none, none, {}⟩ : ClassImage.ClassAttributes)) "SourceFile"
    (fun span hspan => ?_) (ClassImage.name_of_map fun _ => rfl) hsource, ?_⟩
  · simp [ClassImage.addClassAttribute, hspan, pure, Except.pure]
  rw [List.foldlM_append]
  refine Step.except_bind_ok.2 ⟨_, ClassImage.foldlM_signature
    (ClassImage.ClassAttributes.mk source none none none none) (c := {})
    (fun span hspan => hother _ _ _ _ _ _ _ (Or.inl hspan)) rfl htext hsignature, ?_⟩
  rw [List.foldlM_append]
  refine Step.except_bind_ok.2 ⟨_, ClassImage.foldlM_span
    (fun s => (⟨source, none, s, none, none, ⟨signature, none, none, #[]⟩⟩ :
      ClassImage.ClassAttributes)) "EnclosingMethod"
    (fun span hspan => ?_) (ClassImage.name_of_map fun _ => rfl) henclosing, ?_⟩
  · simp [ClassImage.addClassAttribute, hspan, pure, Except.pure]
  rw [List.foldlM_append]
  refine Step.except_bind_ok.2 ⟨_, ClassImage.foldlM_span
    (fun s => (⟨source, s, enclosing, none, none, ⟨signature, none, none, #[]⟩⟩ :
      ClassImage.ClassAttributes)) "NestHost"
    (fun span hspan => ?_) (ClassImage.name_of_map fun _ => rfl) hhost, ?_⟩
  · simp [ClassImage.addClassAttribute, hspan, pure, Except.pure]
  rw [List.foldlM_append]
  refine Step.except_bind_ok.2 ⟨_, ClassImage.foldlM_span
    (fun s => (⟨source, host, enclosing, s, none, ⟨signature, none, none, #[]⟩⟩ :
      ClassImage.ClassAttributes)) "NestMembers"
    (fun span hspan => ?_) (ClassImage.name_of_table rfl) hmembers, ?_⟩
  · simp [ClassImage.addClassAttribute, hspan, pure, Except.pure]
  rw [List.foldlM_append]
  refine Step.except_bind_ok.2 ⟨_, ClassImage.foldlM_span
    (fun s => (⟨source, host, enclosing, members, s, ⟨signature, none, none, #[]⟩⟩ :
      ClassImage.ClassAttributes)) "InnerClasses"
    (fun span hspan => ?_) (ClassImage.name_of_table rfl) hclasses, ?_⟩
  · simp [ClassImage.addClassAttribute, hspan, pure, Except.pure]
  rw [← List.append_assoc, List.foldlM_append]
  refine Step.except_bind_ok.2 ⟨_, ClassImage.foldlM_annotations
    (ClassImage.ClassAttributes.mk source host enclosing members classes)
    (fun c span hspan => hother _ _ _ _ _ _ _ (Or.inr (hspan.imp_right Or.inl))) ⟨rfl, rfl⟩
    howned.visibleBody howned.invisibleBody hshown hhidden, ?_⟩
  rw [List.foldlM_append]
  refine Step.except_bind_ok.2 ⟨_, ClassImage.foldlM_others
    (ClassImage.ClassAttributes.mk source host enclosing members classes)
    (fun c span hspan => hother _ _ _ _ _ _ _ (Or.inr (Or.inr (Or.inr ?_))))
    (fun a ha => ?_) hothers, ?_⟩
  · obtain ⟨a, ha, hname⟩ := List.mem_map.1 hspan
    exact hname ▸ hnames a ha
  · have hname := hnames a ha
    simp only [isClassAttribute, Bool.or_eq_false_iff] at hname
    exact hname.2
  rw [List.append_nil, Array.empty_append]
  refine ClassImage.foldlM_span (fun _ => _) "BootstrapMethods" (fun span hspan => ?_)
    (ClassImage.name_of_table rfl) hboots
  simp [ClassImage.addClassAttribute, hspan, pure, Except.pure]

/-- The header is found where it was written. -/
theorem Written.header_read {attributes : List Attribute} {h : ClassHeader}
    (hw : Written b header attributes image) (hrecords : header.Records image h)
    (hflags : AccessFlags.decode h.flags.bits = h.flags) :
    image.version = h.version ∧ image.accessFlags = .ok h.flags ∧ image.className = .ok h.name ∧
      image.superName = .ok h.superName ∧ image.interfaces = .ok h.interfaces := by
  have hname := hw.header.right
  have hsuper := hname.right
  refine ⟨hw.version.trans hrecords.version, ?_, ?_, ?_, ?_⟩
  · refine Step.except_bind_ok.2 ⟨_, (Scan.reads_u16 _).runAt hw.header.left, ?_⟩
    rw [hrecords.flags, hflags]
    rfl
  · exact Step.except_bind_ok.2 ⟨_, (Scan.reads_u16 _).runAt hname.left, hrecords.name⟩
  · exact Step.except_bind_ok.2 ⟨_, (Scan.reads_u16 _).runAt hsuper.left, hrecords.superName⟩
  · exact (Member.reads_classes hrecords.interfaces hw.fits.interfaces).runAt hsuper.right

/-- Fields are found where they were written. -/
theorem Written.fields_read {attributes : List Attribute} {γ : Type} {fields : List γ}
    {good : γ → FieldDeclaration × MemberAttributes → Prop}
    (hw : Written b header attributes image)
    (h : List.Forall₂ (fun m field => m.Fits →
      Finds image.data image.readField m.encode (good field)) b.fields.toList fields) :
    ∃ items, Scan.runAt image.data image.fieldsStart (Scan.counted image.readField) = .ok items ∧
      List.Forall₂ good fields items :=
  (Scan.finds_counted_for hw.fits.fields.1 h
    fun m hm _ _ hfinds => hfinds (hw.fits.fields.2 m hm)).runAt hw.fields

/-- Methods are found where they were written. -/
theorem Written.methods_read {attributes : List Attribute} {γ : Type} {methods : List γ}
    {good : γ → MethodDeclaration × ClassImage.MethodAttributes → Prop}
    (hw : Written b header attributes image)
    (h : List.Forall₂ (fun m method => m.Fits →
      Finds image.data image.readMethod m.encode (good method)) b.methods.toList methods) :
    ∃ items, Scan.runAt image.data image.methodsStart (Scan.counted image.readMethod) = .ok items ∧
      List.Forall₂ good methods items :=
  (Scan.finds_counted_for hw.fits.methods.1 h
    fun m hm _ _ hfinds => hfinds (hw.fits.methods.2 m hm)).runAt hw.methods

/-- The builder stores a class but for its fields and methods: the image looks up the content. -/
structure Stores (b : ClassBuilder) (image : ClassImage) (content : ClassContent) : Prop where
  header : ∃ stored, b.header = some stored ∧ stored.Records image content.header
  headerFlags : AccessFlags.decode content.header.flags.bits = content.header.flags
  sourceFile : Option.Rel (fun i name => image.utf8 i = .ok name) b.sourceFile content.sourceFile
  nestHost : Option.Rel (fun i name => image.cls i = .ok name) b.nestHost content.nestHost
  enclosing : Option.Rel (Encloses image) b.enclosingMethod content.enclosing
  annotations : toldAnnotations b.annotations.toList = content.annotations
  attributes : b.attributes.toList = content.attributes
  names : ∀ a ∈ content.attributes, isClassAttribute a.name = false
  nestMembers : List.Forall₂ (fun i name => image.cls i = .ok name) b.nestMembers.toList
    content.nestMembers
  innerClasses : List.Forall₂ (fun c entry => c.Records b.pool image entry) b.innerClasses.toList
    content.innerClasses
  innerFlags : ∀ c ∈ content.innerClasses, AccessFlags.decode c.2.2.2.bits = c.2.2.2

theorem Recorded.records_header {parts : ClassParts} (h : b.Recorded parts image)
    (hheader : b.header = some header) :
    ∃ declared, parts.header = some declared ∧ header.Records image declared := by
  have hrel := h.header
  rw [hheader] at hrel
  generalize parts.header = declared at hrel
  cases hrel with
  | some hrecords => exact ⟨_, rfl, hrecords⟩

/-- What was recorded is stored. -/
theorem Recorded.stores {parts : ClassParts} {h : ClassHeader} (hrecorded : b.Recorded parts image)
    (hmembers : b.RecordedMembers parts image) (hh : parts.header = some h)
    (hheader : b.header = some header) (hrecords : header.Records image h)
    (hassigned : parts.Assigned) : b.Stores image (parts.content h) where
  header := ⟨header, hheader, hrecords⟩
  headerFlags := hassigned.header h hh
  sourceFile := hrecorded.sourceFile
  nestHost := hrecorded.nestHost
  enclosing := hrecorded.enclosing
  annotations := by rw [hrecorded.annotations]; rfl
  attributes := by rw [hmembers.attributes]; rfl
  names := nofun
  nestMembers := hrecorded.nestMembers
  innerClasses := hrecorded.innerClasses
  innerFlags := hassigned.innerClasses

/-- Fields that were recorded are read back. -/
theorem RecordedMembers.fields_read {attributes : List Attribute} {parts : ClassParts}
    {h : ClassHeader}
    (hrecorded : b.RecordedMembers parts image) (hw : Written b header attributes image)
    (hassigned : parts.Assigned) : ∃ items,
      Scan.runAt image.data image.fieldsStart (Scan.counted image.readField) = .ok items ∧
      List.Forall₂ (fun field item => item.1 = field.1 ∧
        Tell.Tells (image.tellField item.2) field.2) (parts.content h).fields items := by
  refine hw.fields_read (List.forall₂_map_right_iff.2 ?_)
  refine ((List.forall₂_and_left _ _).2 ⟨hassigned.fields, hrecorded.fields.flip⟩).flip.imp ?_
  rintro m field ⟨hflags, hfield⟩ hfits
  refine (hfield.finds hfits hflags nofun).mono ?_
  rintro item ⟨hd, hannotations, hothers⟩
  refine ⟨hd, ?_⟩
  have htold := ClassImage.tells_field hannotations
  rwa [hothers, List.map_nil, List.append_nil] at htold

/-- Methods that were recorded are read back, when their code is left out. -/
theorem RecordedMembers.methods_read {attributes : List Attribute} {parts : ClassParts}
    {h : ClassHeader}
    (hrecorded : b.RecordedMembers parts image) (hw : Written b header attributes image)
    (hassigned : parts.Assigned) {skip : Skip} (hskip : skip.code = true) : ∃ items,
      Scan.runAt image.data image.methodsStart (Scan.counted image.readMethod) = .ok items ∧
      List.Forall₂ (fun method item => item.1 = method.1 ∧
        Tell.Tells (image.tellMethod skip item.1 item.2) method.2) (parts.content h).methods
        items := by
  refine hw.methods_read (List.forall₂_map_right_iff.2 ?_)
  refine ((List.forall₂_and_left _ _).2 ⟨hassigned.methods, hrecorded.methods.flip⟩).flip.imp ?_
  rintro m method ⟨hflags, body, hmethod⟩ hfits
  refine (hmethod.finds hfits hflags nofun).mono ?_
  rintro item ⟨hd, -, hannotations, hothers⟩
  refine ⟨hd, ?_⟩
  have htold : Tell.Tells (image.tellMethod skip item.1 item.2) (((toldAnnotations method.2).map
      (fun a => .annotated a.1 a.2) ++ (item.2.common.others.toList.map image.raw).map
        .attribute) ++ [.finish]) := by
    refine (ClassImage.tells_attributes hannotations).then ?_
    cases item.2.code with
    | none => exact Tell.tells_event _
    | some span =>
      simp only [hskip]
      exact Tell.tells_event _
  rwa [hothers, List.map_nil, List.append_nil] at htold

/-- What was stored is read back where it was written. -/
theorem readsAs_of_stores {own last : List Attribute} {visible invisible : Option AttributeBody}
    {p : ConstantPool} {skip : Skip} {content : ClassContent}
    (hw : Written b header (own ++ last) image) (hheader : b.header = some header)
    (hstores : b.Stores image content)
    (howned : OwnListed b header image own visible invisible)
    (hlast : Attribute.Listed last image (bootstrapBody p).toList)
    (hfields : ∃ items,
      Scan.runAt image.data image.fieldsStart (Scan.counted image.readField) = .ok items ∧
      List.Forall₂ (fun field item => item.1 = field.1 ∧
        Tell.Tells (image.tellField item.2) field.2) content.fields items)
    (hmethods : ∃ items,
      Scan.runAt image.data image.methodsStart (Scan.counted image.readMethod) = .ok items ∧
      List.Forall₂ (fun method item => item.1 = method.1 ∧
        Tell.Tells (image.tellMethod skip item.1 item.2) method.2) content.methods items)
    (hdebug : skip.debug = false) (hmembers : skip.members = false) :
    ∃ spans attributes, image.ReadsAs skip spans attributes content := by
  obtain ⟨spans, hspans, hholding⟩ :=
    (ClassImage.finds_readAttributes hw.fits.attributes.1 hw.fits.attributes.2
      (howned.listed.append hlast).named).runAt hw.attributes
  obtain ⟨stored, hstored, hrecords⟩ := hstores.header
  obtain rfl : header = stored := Option.some.inj (hheader.symm.trans hstored)
  obtain ⟨found, hfold, hgathered⟩ := gathered_of_holding howned
    (hstores.attributes ▸ hstores.names) hlast hrecords.signature hholding
  obtain ⟨hversion, hflags, hname, hsuper, hinterfaces⟩ :=
    hw.header_read hrecords hstores.headerFlags
  have hfit (body : AttributeBody) (hbody : body ∈ ownBodies b header) : body.Fits := by
    have hmem : body ∈ own.map Prod.snd := by
      rw [howned.listed.bodies]
      exact List.mem_append_left _ (List.mem_append_left _ hbody)
    obtain ⟨a, ha, rfl⟩ := List.mem_map.1 hmem
    exact (hw.fits.attributes.2.of_mem (List.mem_append_left last ha)).2
  obtain ⟨hmember, hnoMember⟩ := ClassImage.table_of_found
    (content.nestMembers.map .nestMember)
    (by rw [List.length_map, ← hstores.nestMembers.length_eq, Array.length_toList])
    hgathered.nestMembers fun hsome => ClassImage.reads_nestMembers hstores.nestMembers
      (hfit (.nestMembers b.nestMembers.toList) (by simp [ownBodies, hsome]))
  obtain ⟨hinner, hnoInner⟩ := ClassImage.table_of_found
    (content.innerClasses.map ClassContent.innerEvent)
    (by rw [List.length_map, ← hstores.innerClasses.length_eq, Array.length_toList])
    hgathered.innerClasses fun hsome => ClassImage.reads_innerClasses hstores.innerClasses
      hstores.innerFlags
      (hfit (.innerClasses b.innerClasses.toList) (by simp [ownBodies, hsome]))
  refine ⟨spans, found, ?_⟩
  constructor
  case spans_eq => exact hspans
  case attributes_eq => exact hfold
  case version => exact hversion
  case flags => exact hflags
  case name => exact hname
  case superName => exact hsuper
  case interfaces => exact hinterfaces
  case signature => exact hgathered.signature
  case nestMembers => exact hmember
  case noNestMembers => exact fun hnone => List.map_eq_nil_iff.1 (hnoMember hnone)
  case innerClasses => exact hinner
  case noInnerClasses => exact fun hnone => List.map_eq_nil_iff.1 (hnoInner hnone)
  case sourceFile =>
    rw [hdebug]
    refine ClassImage.held_of_found hgathered.sourceFile hstores.sourceFile
      fun i name span hspan hi => ?_
    exact Step.except_bind_ok.2
      ⟨i, ClassImage.readBody_of_holds hspan (Scan.reads_u16 i), hi⟩
  case nestHost =>
    refine ClassImage.held_of_found hgathered.nestHost hstores.nestHost
      fun i name span hspan hi => ?_
    exact Step.except_bind_ok.2
      ⟨i, ClassImage.readBody_of_holds hspan (Scan.reads_u16 i), hi⟩
  case enclosing =>
    have hrel : Option.Rel (fun stored event => ∃ enclosing,
        event = ClassContent.enclosingEvent enclosing ∧ Encloses image stored enclosing)
        b.enclosingMethod (content.enclosing.map ClassContent.enclosingEvent) := by
      have hrel := hstores.enclosing
      generalize b.enclosingMethod = stored, content.enclosing = enclosing at hrel ⊢
      cases hrel with
      | none => exact .none
      | some h => exact .some ⟨_, rfl, h⟩
    refine ClassImage.held_of_found hgathered.enclosing hrel ?_
    rintro stored _ span hspan ⟨enclosing, rfl, hencloses⟩
    exact ClassImage.readBody_of_holds hspan (ClassImage.reads_enclosing hencloses)
  case annotations =>
    have hv := howned.visibleBody
    have hi := howned.invisibleBody
    rw [← hstores.annotations]
    exact Step.except_bind_ok.2 ⟨_, ClassImage.annotationsOf_found hv hgathered.visible,
      Step.except_bind_ok.2 ⟨_, ClassImage.annotationsOf_found hi hgathered.invisible, rfl⟩⟩
  case others =>
    rw [hgathered.others, hstores.attributes]
  case fields =>
    obtain ⟨items, hread, hitems⟩ := hfields
    refine ⟨items, hread, ?_⟩
    rw [hmembers]
    exact hitems.flip
  case methods =>
    obtain ⟨items, hread, hitems⟩ := hmethods
    refine ⟨items, hread, ?_⟩
    rw [hmembers]
    exact hitems.flip

/-- A class that takes up its first event: its pool is fresh, or that of a class file. -/
def IsNew (b : ClassBuilder) : Prop := ∃ compute hierarchy,
  b = fresh compute hierarchy ∨ ∃ data image, ClassImage.parse data = .ok image ∧
    copying image compute hierarchy = .ok b

theorem IsNew.backed (h : b.IsNew) : ∃ v, b.pool.Backed v := by
  obtain ⟨compute, hierarchy, rfl | ⟨data, image, hparse, hcopy⟩⟩ := h
  · exact ⟨_, ConstantPool.backed_empty⟩
  · obtain ⟨pool, hpool, hbacked, -⟩ := ClassImage.backed_copyPool hparse
    obtain ⟨found, hfound, hcopy⟩ := Step.except_bind_ok.1 hcopy
    cases hcopy
    obtain rfl := Except.ok.inj (hpool.symm.trans hfound)
    exact ⟨_, hbacked⟩

theorem IsNew.recorded (h : b.IsNew) (image : ClassImage) :
    b.Recorded (.of []) image ∧ b.RecordedMembers (.of []) image := by
  obtain ⟨compute, hierarchy, rfl | ⟨data, copied, -, hcopy⟩⟩ := h
  · exact ⟨⟨.none, .none, .none, .none, rfl, .nil, .nil⟩, ⟨rfl, .nil, .nil⟩⟩
  · obtain ⟨pool, -, hcopy⟩ := Step.except_bind_ok.1 hcopy
    cases hcopy
    exact ⟨⟨.none, .none, .none, .none, rfl, .nil, .nil⟩, ⟨rfl, .nil, .nil⟩⟩

/-- A class that was written is found, and what was recorded is looked up in it. -/
theorem found_again {events : List ClassEvent} {bytes : Bytes} {last : ClassBuilder}
    (hnew : b.IsNew) (hversion : ∀ h, .header h ∈ events → h.version.isSupported = true)
    (hnames : ∀ a ∈ b'.attributes.toList, a.name ≠ "BootstrapMethods")
    (hfed : feedAll events b = .ok u b') (hwritten : toBytes b' = .ok bytes last) :
    ∃ image header h own tail visible invisible, ClassImage.parse bytes = .ok image ∧
      Written last header (own ++ tail) image ∧ OwnListed last header image own visible invisible ∧
      Attribute.Listed tail image (bootstrapBody last.pool).toList ∧
      last = { b' with pool := last.pool } ∧ image.copyPool = .ok last.pool ∧
      last.header = some header ∧ (ClassParts.of events).header = some h ∧
      header.Records image h ∧ last.Recorded (.of events) image := by
  obtain ⟨hext, hrun⟩ := recorded_feedAll hfed
  obtain ⟨v, hbacked⟩ := hnew.backed
  obtain ⟨cs, hcs⟩ := hbacked.extended hext
  have hrecorded (image : ClassImage) (hi : image.Holds b'.pool) :
      b'.Recorded (.of events) image := hrun image [] hi (hnew.recorded image).1
  obtain ⟨some, hsome⟩ := exists_holds_toBytes hcs.backed hwritten
  have hsupported : ∀ header, b'.header = .some header → header.version.isSupported = true := by
    intro header hheader
    obtain ⟨h, hh, hrecords⟩ :=
      (hrecorded some (hsome.of_grows (pool_toBytes hwritten).1.grows)).records_header hheader
    rw [hrecords.version]
    exact hversion h (ClassParts.header_mem hh)
  obtain ⟨header, own, tail, image, visible, invisible, hheader, hparse, hw, howned, hlisted,
    hgrown, hlast, hcopied⟩ := parse_toBytes hcs.backed hnames hsupported hwritten
  have hread := hrecorded image (hw.holds.of_grows hgrown.grows)
  obtain ⟨h, hh, hrecords⟩ := hread.records_header hheader
  have hread' := hread.grows hgrown.grows
  rw [← hlast] at hread'
  have howned' : OwnListed last header image own visible invisible := by
    rw [hlast]
    exact ⟨howned.visibleBody, howned.invisibleBody, howned.listed⟩
  have hheader' : last.header = .some header := by rw [hlast, hheader]
  exact ⟨image, header, h, own, tail, visible, invisible, hparse, hw, howned', hlisted, hlast,
    hcopied, hheader', hh, hrecords, hread'⟩

/-- A class survives writing and reading. Whatever events without uninterpreted attributes a new
builder takes up, in whatever order, a class that it writes then is read, and telling it without the
code of methods tells the parts that the events say. -/
theorem parts_read_back {events : List ClassEvent} {bytes : Bytes} {last : ClassBuilder}
    (hnew : b.IsNew) (hplain : ∀ e ∈ events, e.Plain) (hassigned : ∀ e ∈ events, e.Assigned)
    (hversion : ∀ h, .header h ∈ events → h.version.isSupported = true)
    (hfed : feedAll events b = .ok () b') (hwritten : toBytes b' = .ok bytes last) :
    ∃ image header, (ClassParts.of events).header = some header ∧
      ClassImage.parse bytes = .ok image ∧
      image.events { code := true } = ⟨((ClassParts.of events).content header).events, none⟩ := by
  have hmembers (image : ClassImage) (hi : image.Holds b'.pool) :
      b'.RecordedMembers (.of events) image :=
    recordedMembers_feedAll hplain hfed image [] hi (hnew.recorded image).2
  have hgrown := (pool_toBytes hwritten).1.grows
  have hnames : ∀ a ∈ b'.attributes.toList, a.name ≠ "BootstrapMethods" := by
    obtain ⟨v, hbacked⟩ := hnew.backed
    obtain ⟨cs, hcs⟩ := hbacked.extended (recorded_feedAll hfed).1
    obtain ⟨some, hsome⟩ := exists_holds_toBytes hcs.backed hwritten
    rw [(hmembers some (hsome.of_grows hgrown)).attributes]
    exact nofun
  obtain ⟨image, header, h, own, tail, visible, invisible, hparse, hw, howned, hlisted, hlast, -,
    hheader, hh, hrecords, hrecorded⟩ := found_again hnew hversion hnames hfed hwritten
  have hstored : last.RecordedMembers (.of events) image := by
    rw [hlast]
    exact { hmembers image (hw.holds.of_grows hgrown) with }
  have hall := ClassParts.assigned_of hassigned
  have hskip : ({ code := true } : Skip).code = true := rfl
  obtain ⟨spans, attributes, hreads⟩ := readsAs_of_stores hw hheader
    (hrecorded.stores hstored hh hheader hrecords hall) howned hlisted (hstored.fields_read hw hall)
    (hstored.methods_read hw hall hskip) rfl rfl
  exact ⟨image, h, hh, hparse, hreads.events_eq⟩

/-- A class with a field that is said twice to be an inner class. -/
def smallClass : List ClassEvent :=
  [.header ⟨⟨52, 0⟩, ⟨0x21⟩, "A", none, some "B", []⟩, .sourceFile "f", .innerClass "A" none none ⟨0⟩,
    .innerClass "A" none (some "x") ⟨0⟩, .field ⟨⟨0⟩, "f", "I", none, none⟩ [.finish], .finish]

theorem annotations_nil (visible : Bool) (p : ConstantPool) :
    Attribute.annotations [] visible p = .ok none p := rfl

theorem smallClass_fed : ∃ b header own pool,
    feedAll smallClass (fresh default Hierarchy.flat) = .ok () b ∧ b.header = some header ∧
      ownAttributes b header b.pool = .ok own pool ∧ pool.bootstraps = #[] ∧
      Fits { b with pool } header own := by
  have hsize (text : String) (h : text ∈ ["A", "B", "f", "I", "x", "SourceFile", "InnerClasses"]) :
      Text.ModifiedUtf8.encodedSize text < 65536 := by
    revert h text
    decide
  have hname : ClassName.parse "A" = .ok ⟨"A"⟩ := by rfl
  have htype : parseDescriptor FieldType "I" = .ok (.base .int) := by rfl
  have hframes : Version.needsFrames ⟨52, 0⟩ = true := by decide
  simp [smallClass, feedAll, feed, beginClass, addInnerClass, startField, onField, feedField,
    FieldBuilder.feed, FieldBuilder.finish, endClass, fresh, getHeader, FieldBuilder.constants,
    FieldBuilder.initialValue, hname, htype, hframes, hsize, annotations_nil, ask, FieldBuilder.ask,
    Step.on, Step.of, count16, ownAttributes, Attribute.makeIf, Attribute.makeSignature,
    Attribute.makeAnnotations, Attribute.makeRaw, Attribute.make, AttributeBody.name,
    ConstantPool.utf8, ConstantPool.cls, ConstantPool.clsOrZero, ConstantPool.classes,
    ConstantPool.utf8OrZero, ConstantPool.utf8?, ConstantPool.intern, ConstantPool.empty,
    ConstantPool.indexAfter, Constant.width, ChainTable.getElem?_insert, bind, EStateM.bind, pure,
    EStateM.pure, Step.get_run, Step.modify_run]
  exact ⟨by simp, ⟨by simp, by simp [Member.Fits, AttributeBody.AllFit]⟩, ⟨by simp, by simp⟩,
    by simp, by simp [AttributeBody.AllFit, AttributeBody.Fits, AttributeBody.byteSize]⟩

theorem smallClass_written : ∃ b bytes last,
    feedAll smallClass (fresh default Hierarchy.flat) = .ok () b ∧ toBytes b = .ok bytes last := by
  obtain ⟨b, header, own, pool, hfed, hheader, hown, hboots, hfits⟩ := smallClass_fed
  have hlast : Attribute.makeIf (bootstrapBody pool) pool = .ok [] pool := by
    unfold bootstrapBody
    rw [hboots]
    rfl
  rw [← List.append_nil own] at hfits
  exact ⟨b, _, _, hfed, toBytes_of_fits hheader hown hlast hfits⟩

theorem parts_read_back_smallClass : ∃ b bytes last image,
    feedAll smallClass (fresh default Hierarchy.flat) = .ok () b ∧ toBytes b = .ok bytes last ∧
      ClassImage.parse bytes = .ok image ∧ image.events { code := true } = ⟨[
        .header ⟨⟨52, 0⟩, ⟨0x21⟩, "A", none, some "B", []⟩, .sourceFile "f",
        .innerClass "A" none none ⟨0⟩, .field ⟨⟨0⟩, "f", "I", none, none⟩ [.finish], .finish], none⟩ := by
  obtain ⟨b, bytes, last, hfed, hwritten⟩ := smallClass_written
  have hassigned : ∀ e ∈ smallClass, e.Assigned := by
    simp only [smallClass, List.forall_mem_cons]
    exact ⟨rfl, trivial, rfl, rfl, rfl, trivial, nofun⟩
  have hversion : ∀ h, .header h ∈ smallClass → h.version.isSupported = true := by
    simp [smallClass, Version.isSupported, Version.oldestMajor, Version.latest]
  obtain ⟨image, header, hheader, hparse, hevents⟩ := parts_read_back
    ⟨default, Hierarchy.flat, Or.inl rfl⟩
    (by simp [smallClass, ClassEvent.Plain]) hassigned hversion hfed hwritten
  cases hheader
  exact ⟨b, bytes, last, image, hfed, hwritten, hparse, hevents⟩

end ClassBuilder

end JvmClass
