import JvmClass.Proofs.Assembly.ClassFile
import JvmClass.Proofs.Assembly.Keeping
import JvmClass.Proofs.Image.Tells

/-!
# Fields and methods that are read back

A finished field or method holds its declaration and its annotations (`Member.IsField`,
`Member.IsMethod`): what it has are indices and attributes, and every image of the pool looks up what
was declared. Reading gathers the attributes in the order in which they were made, each at most
once, and so finds the declaration again.
-/

namespace JvmClass

open ConstantPool (Gives)
open Scan (Finds)

namespace ConstantPool

theorem gives_utf8? (text : Option String) : Gives (utf8? text) fun image i =>
    Option.Rel (fun i text => image.utf8 i = .ok text) i text := by
  cases text with
  | none =>
    refine (gives_pure none).mono ?_
    rintro _ _ rfl
    exact .none
  | some text =>
    refine (gives_utf8 text).fmap.mono ?_
    rintro image _ ⟨i, hi, rfl⟩
    exact .some hi

theorem gives_classes (names : List String) : Gives (classes names) fun image is =>
    List.Forall₂ (fun name i => image.cls i = .ok name) names is :=
  gives_mapM gives_cls names

end ConstantPool

theorem count16_ok {what : String} {count : Nat} {n : UInt16} :
    count16 what count = .ok n ↔ count < 65536 ∧ UInt16.ofNat count = n := by
  unfold count16
  split <;> simp [*]

/-- Items that are found, of which each is good for the thing that belongs to it. -/
theorem Scan.finds_counted_for {α β γ : Type} {data : Bytes} {read : Scan α}
    {encode : β → List UInt8} {related : β → γ → Prop} {good : γ → α → Prop} {items : List β}
    {things : List γ} (hcount : items.length < 65536) (h : List.Forall₂ related items things)
    (hread : ∀ b ∈ items, ∀ c ∈ things, related b c → Finds data read (encode b) (good c)) :
    Finds data (Scan.counted read) (Put.countedBytes encode items) fun found =>
      List.Forall₂ good things found := by
  obtain ⟨hlength, hall⟩ := List.forall₂_iff_zip.1 h
  have hitems : items = (items.zip things).map Prod.fst := (List.map_fst_zip hlength.le).symm
  have hthings : things = (items.zip things).map Prod.snd := (List.map_snd_zip hlength.ge).symm
  have hpairs : Finds data (Scan.counted read)
      (Put.countedBytes (fun pair => encode pair.1) (items.zip things)) fun found =>
        List.Forall₂ (fun pair => good pair.2) (items.zip things) found :=
    Scan.finds_counted
      (by rwa [List.length_zip, ← hlength, Nat.min_self]) fun pair hpair =>
        hread _ (List.of_mem_zip hpair).1 _ (List.of_mem_zip hpair).2 (hall hpair)
  have hbytes : Put.countedBytes (fun pair => encode pair.1) (items.zip things) =
      Put.countedBytes encode items := by
    conv_rhs => rw [hitems]
    simp [Put.countedBytes, List.flatMap_map]
  rw [hbytes] at hpairs
  refine hpairs.mono fun found hfound => ?_
  rw [hthings, List.forall₂_map_left_iff]
  exact hfound

namespace ClassImage

variable {image : ClassImage} {span : Option AttributeSpan}

/-- The spans hold attributes with the given bodies, in order. -/
def Spanned (image : ClassImage) (bodies : List AttributeBody) (spans : List AttributeSpan) :
    Prop := List.Forall₂ (fun body span => span.Holds image.data (0, body)) bodies spans

/-- The span holds an attribute with the given body; without a body there is none. -/
def Found (image : ClassImage) (body : Option AttributeBody) (span : Option AttributeSpan) : Prop :=
  Option.Rel (fun body span => span.Holds image.data (0, body)) body span

theorem Holding.spanned {attributes : List Attribute} {spans : List AttributeSpan}
    (h : image.Holding attributes spans) : image.Spanned (attributes.map Prod.snd) spans := by
  rw [Spanned, List.forall₂_map_left_iff]
  exact h.imp fun a span h => ⟨h.name, h.size, h.body⟩

/-- An attribute that may be missing is found first, and the others behind it. -/
theorem Spanned.optional {body : Option AttributeBody} {rest : List AttributeBody}
    {spans : List AttributeSpan} (h : image.Spanned (body.toList ++ rest) spans) :
    ∃ span others, spans = span.toList ++ others ∧ image.Found body span ∧
      image.Spanned rest others := by
  cases body with
  | none => exact ⟨none, spans, rfl, .none, h⟩
  | some body =>
    obtain _ | ⟨hfirst, hrest⟩ := h
    exact ⟨some _, _, rfl, .some hfirst, hrest⟩

/-- The spans of attributes that are followed by others. -/
theorem Spanned.split {front rest : List AttributeBody} {spans : List AttributeSpan}
    (h : image.Spanned (front ++ rest) spans) : ∃ spans' others, spans = spans' ++ others ∧
      image.Spanned front spans' ∧ image.Spanned rest others := by
  refine ⟨spans.take front.length, spans.drop front.length, (List.take_append_drop _ _).symm, ?_,
    ?_⟩
  · exact List.forall₂_take_append _ _ _ h.flip |>.flip
  · exact List.forall₂_drop_append _ _ _ h.flip |>.flip

section Gathering

variable {σ : Type} {f : σ → AttributeSpan → Except ClassError σ} (put : MemberAttributes → σ)
  {c : MemberAttributes}

theorem foldlM_singleton (s : σ) (span : AttributeSpan) : [span].foldlM f s = f s span := by
  rw [List.foldlM_cons]
  cases f s span <;> rfl

/-- A signature is gathered. -/
theorem foldlM_signature {index : Option PoolIndex} {text : Option String}
    (hf : ∀ span, span.name = "Signature" →
      f (put c) span = (do return put (← image.addAttribute c span)))
    (hnone : c.signature = none) (hfound : image.Found (index.map .signature) span)
    (htext : Option.Rel (fun i text => image.utf8 i = .ok text) index text) :
    span.toList.foldlM f (put c) = .ok (put { c with signature := text }) := by
  cases htext with
  | none =>
    cases hfound
    have hsame : { c with signature := none } = c := by rw [← hnone]
    rw [hsame]
    rfl
  | some htext =>
    cases hfound with | some hspan =>
    have hread := readBody_of_holds hspan (Scan.reads_u16 _)
    have hname : _ = "Signature" := hspan.name
    rw [Option.toList_some, foldlM_singleton, hf _ hname]
    simp [addAttribute, hname, readTextOf, hread, htext, bind, Except.bind, pure, Except.pure]

/-- Annotations of one visibility are what is read where they are found. -/
theorem annotationsOf_found {flag : Bool} {chosen : List Annotation} {body : Option AttributeBody}
    (hbody : Attribute.AnnotationBody image flag chosen body) (hfound : image.Found body span) :
    image.annotationsOf span = .ok chosen := by
  cases hfound with
  | none =>
    obtain rfl : chosen = [] := hbody
    rfl
  | some hspan => exact readBody_of_holds hspan hbody.2

/-- Annotations are gathered, the visible ones first. -/
theorem foldlM_annotations {visible invisible : Option AttributeBody}
    {shown hidden : List Annotation} {span' : Option AttributeSpan}
    (hf : ∀ c span, span.name = "RuntimeVisibleAnnotations" ∨
        span.name = "RuntimeInvisibleAnnotations" →
      f (put c) span = (do return put (← image.addAttribute c span)))
    (hnone : c.visible = none ∧ c.invisible = none)
    (hshown : Attribute.AnnotationBody image true shown visible)
    (hhidden : Attribute.AnnotationBody image false hidden invisible)
    (hfound : image.Found visible span) (hfound' : image.Found invisible span') :
    (span.toList ++ span'.toList).foldlM f (put c) =
      .ok (put { c with visible := span, invisible := span' }) := by
  have hfirst : span.toList.foldlM f (put c) = .ok (put { c with visible := span }) := by
    cases hfound with
    | none =>
      have hsame : { c with visible := none } = c := by rw [← hnone.1]
      rw [hsame]
      rfl
    | some hspan =>
      obtain ⟨⟨count, encoded, rfl⟩, -⟩ := hshown
      have hname : _ = "RuntimeVisibleAnnotations" := hspan.name
      rw [Option.toList_some, foldlM_singleton, hf _ _ (Or.inl hname)]
      simp [addAttribute, hname, pure, Except.pure, bind, Except.bind]
  have hsecond (c : MemberAttributes) (hnone : c.invisible = none) :
      span'.toList.foldlM f (put c) = .ok (put { c with invisible := span' }) := by
    cases hfound' with
    | none =>
      have hsame : { c with invisible := none } = c := by rw [← hnone]
      rw [hsame]
      rfl
    | some hspan =>
      obtain ⟨⟨count, encoded, rfl⟩, -⟩ := hhidden
      have hname : _ = "RuntimeInvisibleAnnotations" := hspan.name
      rw [Option.toList_some, foldlM_singleton, hf _ _ (Or.inr hname)]
      simp [addAttribute, hname, pure, Except.pure, bind, Except.bind]
  rw [List.foldlM_append, hfirst]
  exact hsecond _ hnone.2

/-- Whether an attribute is interpreted in classes, fields and methods alike. -/
def isCommon (name : String) : Bool :=
  name == "Signature" || name == "RuntimeVisibleAnnotations" ||
    name == "RuntimeInvisibleAnnotations"

/-- Attributes that are not interpreted are gathered in order. -/
theorem foldlM_others {raws : List RawAttribute} {spans : List AttributeSpan}
    (hf : ∀ c span, span.name ∈ raws.map RawAttribute.name →
      f (put c) span = (do return put (← image.addAttribute c span)))
    (hnames : ∀ a ∈ raws, isCommon a.name = false)
    (hspanned : image.Spanned (raws.map fun a => .raw a.name a.data) spans) :
    spans.foldlM f (put c) = .ok (put { c with others := c.others ++ spans.toArray }) := by
  induction raws generalizing c spans with
  | nil =>
    cases hspanned
    simp [pure, Except.pure]
  | cons raw rest ih =>
    obtain _ | ⟨hspan, hrest⟩ := hspanned
    have hname : _ = raw.name := hspan.name
    have hother := hnames raw List.mem_cons_self
    simp only [isCommon, Bool.or_eq_false_iff] at hother
    rw [List.foldlM_cons, hf _ _ (by simp [hname])]
    simp only [addAttribute, hname, hother.1.1, hother.1.2, hother.2, Bool.false_eq_true, if_false,
      pure_bind]
    refine (ih (fun c span hspan => hf c span (List.mem_cons_of_mem _ hspan))
      (fun a ha => hnames a (List.mem_cons_of_mem _ ha)) hrest).trans ?_
    simp

/-- Attributes that are not interpreted are found as they were. -/
theorem Spanned.map_raw {raws : List RawAttribute} {spans : List AttributeSpan}
    (h : image.Spanned (raws.map fun a => .raw a.name a.data) spans) :
    spans.map image.raw = raws := by
  induction raws generalizing spans with
  | nil =>
    cases h
    rfl
  | cons raw rest ih =>
    obtain _ | ⟨hspan, hrest⟩ := h
    rw [List.map_cons, ih hrest, raw_of_holds hspan rfl]

end Gathering

section Members

theorem reads_utf8 {i : PoolIndex} {text : String} (h : image.utf8 i = .ok text) :
    Scan.Reads image.readUtf8 (bytes16 i) text := by
  refine (Scan.reads_u16 i).before ?_
  rw [h]
  exact Scan.reads_of text

/-- A member is found with its texts and its attributes. -/
theorem finds_readMember {m : JvmClass.Member} {name descriptor : String} (hfits : m.Fits)
    (hname : image.utf8 m.name = .ok name) (hdescriptor : image.utf8 m.descriptor = .ok descriptor)
    (hnamed : ∀ a ∈ m.attributes, a.Named image) :
    Finds image.data image.readMember m.encode fun stored => stored.flags = m.flags ∧
      stored.name = name ∧ stored.descriptor = descriptor ∧
      image.Holding m.attributes stored.attributes := by
  refine (Scan.reads_u16 m.flags).finds.bind ?_
  rintro _ rfl
  refine (reads_utf8 hname).finds.bind ?_
  rintro _ rfl
  refine (reads_utf8 hdescriptor).finds.bind ?_
  rintro _ rfl
  exact (finds_readAttributes hfits.1 hfits.2 hnamed).before fun spans hspans =>
    Scan.finds_pure ⟨rfl, rfl, rfl, hspans⟩

end Members

end ClassImage

/-- Annotations in the order in which they are told: the visible ones first. -/
def toldAnnotations (all : List Annotated) : List Annotated :=
  (Attribute.chosen all true).map (·, true) ++ (Attribute.chosen all false).map (·, false)

namespace Member

open ClassImage (Found foldlM_signature foldlM_annotations foldlM_others annotationsOf_found)

/-- The member holds a field: its declaration, its annotations, and attributes that are not
interpreted. -/
structure IsField (m : Member) (image : ClassImage) (d : FieldDeclaration)
    (annotations : List Annotated) (raws : List RawAttribute) : Prop where
  flags : m.flags = d.flags.bits
  name : image.utf8 m.name = .ok d.name
  descriptor : image.utf8 m.descriptor = .ok d.descriptor
  attributes : ∃ value signature visible invisible,
    Option.Rel (fun i value => image.loadable i = .ok value) value d.value ∧
    Option.Rel (fun i text => image.utf8 i = .ok text) signature d.signature ∧
    Attribute.AnnotationBody image true (Attribute.chosen annotations true) visible ∧
    Attribute.AnnotationBody image false (Attribute.chosen annotations false) invisible ∧
    Attribute.Listed m.attributes image ((value.map .constantValue).toList ++
      ((signature.map .signature).toList ++ (visible.toList ++ (invisible.toList ++
        raws.map fun a => .raw a.name a.data))))

variable {m : Member} {image : ClassImage} {annotations : List Annotated} {raws : List RawAttribute}

theorem foldlM_value {index : Option PoolIndex} {value : Option Loadable}
    {span : Option AttributeSpan} (hfound : Found image (index.map .constantValue) span)
    (hvalue : Option.Rel (fun i value => image.loadable i = .ok value) index value) :
    span.toList.foldlM image.addFieldAttribute {} = .ok ⟨value, {}⟩ := by
  cases hvalue with
  | none =>
    cases hfound
    rfl
  | some hvalue =>
    cases hfound with | some hspan =>
    have hread := ClassImage.readBody_of_holds hspan (Scan.reads_u16 _)
    have hname : _ = "ConstantValue" := hspan.name
    rw [Option.toList_some, ClassImage.foldlM_singleton]
    simp [ClassImage.addFieldAttribute, hname, hread, hvalue, bind, Except.bind, pure, Except.pure]

/-- Whether an attribute of a field is interpreted. -/
def isFieldAttribute (name : String) : Bool :=
  name == "ConstantValue" || ClassImage.isCommon name

theorem isFieldAttribute_false {name : String} (h : isFieldAttribute name = false) :
    name ≠ "ConstantValue" ∧ ClassImage.isCommon name = false := by
  simpa [isFieldAttribute] using h

/-- A field is found with its declaration, its annotations and its other attributes. -/
theorem IsField.finds {d : FieldDeclaration} (h : m.IsField image d annotations raws)
    (hfits : m.Fits) (hflags : AccessFlags.decode d.flags.bits = d.flags)
    (hnames : ∀ a ∈ raws, isFieldAttribute a.name = false) :
    Finds image.data image.readField m.encode fun item => item.1 = d ∧
      image.annotations item.2 = .ok (toldAnnotations annotations) ∧
      item.2.others.toList.map image.raw = raws := by
  obtain ⟨value, signature, visible, invisible, hvalue, hsignature, hvisible, hinvisible, hlisted⟩ :=
    h.attributes
  rw [ClassImage.readField_eq]
  refine (ClassImage.finds_readMember hfits h.name h.descriptor hlisted.named).before ?_
  rintro stored ⟨hstored, hname, hdescriptor, hholding⟩
  have hspanned := hholding.spanned
  rw [hlisted.bodies] at hspanned
  obtain ⟨v, _, hspans, hv, hspanned⟩ := hspanned.optional
  obtain ⟨s, _, rfl, hs, hspanned⟩ := hspanned.optional
  obtain ⟨shown, _, rfl, hshown, hspanned⟩ := hspanned.optional
  obtain ⟨hidden, others, rfl, hhidden, hspanned⟩ := hspanned.optional
  have hgathered : stored.attributes.foldlM image.addFieldAttribute {} =
      .ok ⟨d.value, ⟨d.signature, shown, hidden, others.toArray⟩⟩ := by
    have hother (c : MemberAttributes) (span : AttributeSpan) (hne : span.name ≠ "ConstantValue") :
        image.addFieldAttribute ⟨d.value, c⟩ span =
          (do return ⟨d.value, ← image.addAttribute c span⟩) := by
      simp [ClassImage.addFieldAttribute, hne]
    rw [hspans, List.foldlM_append]
    refine Step.except_bind_ok.2 ⟨_, foldlM_value hv hvalue, ?_⟩
    rw [List.foldlM_append]
    refine Step.except_bind_ok.2 ⟨_, foldlM_signature
      (ClassImage.FieldAttributes.mk d.value) (c := {})
      (fun span hspan => hother {} span (by simp [hspan])) rfl hs hsignature, ?_⟩
    rw [← List.append_assoc, List.foldlM_append]
    refine Step.except_bind_ok.2 ⟨_, foldlM_annotations (ClassImage.FieldAttributes.mk d.value)
      (fun c span hspan => ?_) ⟨rfl, rfl⟩ hvisible hinvisible hshown hhidden, ?_⟩
    · exact hother c span (by rcases hspan with hspan | hspan <;> simp [hspan])
    refine (foldlM_others (ClassImage.FieldAttributes.mk d.value) (fun c span hspan => ?_)
      (fun a ha => (isFieldAttribute_false (hnames a ha)).2) hspanned).trans ?_
    · obtain ⟨a, ha, hname⟩ := List.mem_map.1 hspan
      exact hother c span (hname ▸ (isFieldAttribute_false (hnames a ha)).1)
    · rw [Array.empty_append]
  have hfield : image.fieldOf stored =
      .ok (d, ⟨d.signature, shown, hidden, others.toArray⟩) := by
    refine Step.except_bind_ok.2 ⟨_, hgathered, ?_⟩
    rw [hstored, hname, hdescriptor, h.flags, hflags]
    rfl
  have hannotations : image.annotations ⟨d.signature, shown, hidden, others.toArray⟩ =
      .ok (toldAnnotations annotations) :=
    Step.except_bind_ok.2 ⟨_, annotationsOf_found hvisible hshown, Step.except_bind_ok.2
      ⟨_, annotationsOf_found hinvisible hhidden, rfl⟩⟩
  rw [hfield]
  exact Scan.finds_pure ⟨rfl, hannotations, hspanned.map_raw⟩

/-- What is listed in a member that fits fits. -/
theorem Fits.of_listed (hfits : m.Fits) {bodies : List AttributeBody}
    (h : Attribute.Listed m.attributes image bodies) {a : AttributeBody} (ha : a ∈ bodies) :
    a.Fits := by
  rw [← h.bodies] at ha
  obtain ⟨listed, hlisted, rfl⟩ := List.mem_map.1 ha
  exact (hfits.2.of_mem hlisted).2

/-- The classes, if there are any, are those of the given names. -/
def Throws (image : ClassImage) (names : List String) : Option (List PoolIndex) → Prop
  | none => names = []
  | some classes => List.Forall₂ (fun name i => image.cls i = .ok name) names classes

/-- The member holds a method: its declaration, its body if it has one, its annotations, and
attributes that are not interpreted. -/
structure IsMethod (m : Member) (image : ClassImage) (d : MethodDeclaration)
    (body : Option Attribute) (annotations : List Annotated) (raws : List RawAttribute) : Prop where
  flags : m.flags = d.flags.bits
  name : image.utf8 m.name = .ok d.name
  descriptor : image.utf8 m.descriptor = .ok d.descriptor
  code : ∀ code, body = some code → code.2.name = "Code"
  attributes : ∃ classes signature visible invisible,
    Throws image d.exceptions classes ∧
    Option.Rel (fun i text => image.utf8 i = .ok text) signature d.signature ∧
    Attribute.AnnotationBody image true (Attribute.chosen annotations true) visible ∧
    Attribute.AnnotationBody image false (Attribute.chosen annotations false) invisible ∧
    Attribute.Listed m.attributes image ((body.map Prod.snd).toList ++
      ((classes.map .exceptions).toList ++ ((signature.map .signature).toList ++ (visible.toList ++
        (invisible.toList ++ raws.map fun a => .raw a.name a.data)))))

theorem reads_classes {names : List String} {classes : List PoolIndex}
    (h : List.Forall₂ (fun name i => image.cls i = .ok name) names classes)
    (hcount : classes.length < 65536) :
    Scan.Reads image.readClasses (Put.countedBytes bytes16 classes) names := by
  have hall : List.Forall₂ (Scan.Reads (do Step.of (image.cls (← Scan.u16))))
      (classes.map bytes16) names := by
    rw [List.forall₂_map_left_iff]
    refine h.flip.imp fun i name hi => ?_
    refine (Scan.reads_u16 i).before ?_
    rw [hi]
    exact Scan.reads_of name
  have hread := Scan.reads_counted hall (by rwa [List.Forall₂.length_eq h])
  rw [List.Forall₂.length_eq h] at hread
  exact hread.cast (by simp [Put.countedBytes, List.flatMap_def])

theorem foldlM_code {body : Option Attribute} {span : Option AttributeSpan}
    (hname : ∀ code, body = some code → code.2.name = "Code")
    (hfound : Found image (body.map Prod.snd) span) :
    span.toList.foldlM image.addMethodAttribute {} = .ok ⟨span, #[], {}⟩ := by
  cases body with
  | none =>
    cases hfound
    rfl
  | some code =>
    cases hfound with | some hspan =>
    have hcode := hspan.name.trans (hname code rfl)
    rw [Option.toList_some, ClassImage.foldlM_singleton]
    simp [ClassImage.addMethodAttribute, hcode, pure, Except.pure]

theorem foldlM_exceptions {names : List String} {classes : Option (List PoolIndex)}
    {span code : Option AttributeSpan} (hthrows : Throws image names classes)
    (hcount : ∀ c, classes = some c → c.length < 65536)
    (hfound : Found image (classes.map .exceptions) span) :
    span.toList.foldlM image.addMethodAttribute ⟨code, #[], {}⟩ =
      .ok ⟨code, names.toArray, {}⟩ := by
  cases classes with
  | none =>
    obtain rfl : names = [] := hthrows
    cases hfound
    rfl
  | some classes =>
    cases hfound with | some hspan =>
    have hread := ClassImage.readBody_of_holds hspan (reads_classes hthrows (hcount classes rfl))
    have hname : _ = "Exceptions" := hspan.name
    rw [Option.toList_some, ClassImage.foldlM_singleton]
    simp [ClassImage.addMethodAttribute, hname, hread, bind, Except.bind, pure, Except.pure]

theorem IsMethod.fits_body {d : MethodDeclaration} {body : Option Attribute}
    (h : m.IsMethod image d body annotations raws) (hfits : m.Fits) {a : Attribute}
    (ha : body = some a) : a.2.Fits := by
  obtain ⟨classes, signature, visible, invisible, -, -, -, -, hlisted⟩ := h.attributes
  exact hfits.of_listed hlisted (by simp [ha])

/-- Whether an attribute of a method is interpreted. -/
def isMethodAttribute (name : String) : Bool :=
  name == "Code" || name == "Exceptions" || ClassImage.isCommon name

theorem isMethodAttribute_false {name : String} (h : isMethodAttribute name = false) :
    (name ≠ "Code" ∧ name ≠ "Exceptions") ∧ ClassImage.isCommon name = false := by
  simpa [isMethodAttribute] using h

/-- A method is found with its declaration, its body, its annotations and its other attributes. -/
theorem IsMethod.finds {d : MethodDeclaration} {body : Option Attribute}
    (h : m.IsMethod image d body annotations raws) (hfits : m.Fits)
    (hflags : AccessFlags.decode d.flags.bits = d.flags)
    (hnames : ∀ a ∈ raws, isMethodAttribute a.name = false) :
    Finds image.data image.readMethod m.encode fun item => item.1 = d ∧
      Option.Rel (fun a span => span.Holds image.data a) body item.2.code ∧
      image.annotations item.2.common = .ok (toldAnnotations annotations) ∧
      item.2.common.others.toList.map image.raw = raws := by
  obtain ⟨classes, signature, visible, invisible, hthrows, hsignature, hvisible, hinvisible,
    hlisted⟩ := h.attributes
  have hcount : ∀ c, classes = some c → c.length < 65536 := by
    rintro c rfl
    exact hfits.of_listed hlisted (a := AttributeBody.exceptions c) (by simp)
  rw [ClassImage.readMethod_eq]
  refine (ClassImage.finds_readMember hfits h.name h.descriptor hlisted.named).before ?_
  rintro stored ⟨hstored, hname, hdescriptor, hholding⟩
  have hspanned := hholding.spanned
  rw [hlisted.bodies] at hspanned
  obtain ⟨code, _, hspans, hcode, hspanned⟩ := hspanned.optional
  obtain ⟨e, _, rfl, he, hspanned⟩ := hspanned.optional
  obtain ⟨s, _, rfl, hs, hspanned⟩ := hspanned.optional
  obtain ⟨shown, _, rfl, hshown, hspanned⟩ := hspanned.optional
  obtain ⟨hidden, others, rfl, hhidden, hspanned⟩ := hspanned.optional
  let put := ClassImage.MethodAttributes.mk code d.exceptions.toArray
  have hother (c : MemberAttributes) (span : AttributeSpan) (hne : span.name ≠ "Code")
      (hne' : span.name ≠ "Exceptions") : image.addMethodAttribute (put c) span =
        (do return put (← image.addAttribute c span)) := by
    simp [ClassImage.addMethodAttribute, hne, hne', put]
  have hgathered : stored.attributes.foldlM image.addMethodAttribute {} =
      .ok (put ⟨d.signature, shown, hidden, others.toArray⟩) := by
    rw [hspans, List.foldlM_append]
    refine Step.except_bind_ok.2 ⟨_, foldlM_code h.code hcode, ?_⟩
    rw [List.foldlM_append]
    refine Step.except_bind_ok.2 ⟨put {}, foldlM_exceptions hthrows hcount he, ?_⟩
    rw [List.foldlM_append]
    refine Step.except_bind_ok.2 ⟨_, foldlM_signature put (c := {})
      (fun span hspan => hother {} span (by simp [hspan]) (by simp [hspan])) rfl hs hsignature, ?_⟩
    rw [← List.append_assoc, List.foldlM_append]
    refine Step.except_bind_ok.2 ⟨_, foldlM_annotations put (fun c span hspan => ?_) ⟨rfl, rfl⟩
      hvisible hinvisible hshown hhidden, ?_⟩
    · rcases hspan with hspan | hspan <;> exact hother c span (by simp [hspan]) (by simp [hspan])
    refine (foldlM_others put (fun c span hspan => ?_)
      (fun a ha => (isMethodAttribute_false (hnames a ha)).2) hspanned).trans ?_
    · obtain ⟨a, ha, hname⟩ := List.mem_map.1 hspan
      obtain ⟨hcode, hexceptions⟩ := (isMethodAttribute_false (hnames a ha)).1
      exact hother c span (hname ▸ hcode) (hname ▸ hexceptions)
    · rw [Array.empty_append]
  have hmethod : image.methodOf stored =
      .ok (d, put ⟨d.signature, shown, hidden, others.toArray⟩) := by
    refine Step.except_bind_ok.2 ⟨_, hgathered, ?_⟩
    simp only [StoredMember.method, hstored, hname, hdescriptor, h.flags, hflags, put]
    rfl
  have hannotations : image.annotations ⟨d.signature, shown, hidden, others.toArray⟩ =
      .ok (toldAnnotations annotations) :=
    Step.except_bind_ok.2 ⟨_, annotationsOf_found hvisible hshown, Step.except_bind_ok.2
      ⟨_, annotationsOf_found hinvisible hhidden, rfl⟩⟩
  have hbody : Option.Rel (fun a span => span.Holds image.data a) body code := by
    cases body with
    | none =>
      cases hcode
      exact .none
    | some a =>
      cases hcode with | some hspan =>
      exact .some ⟨hspan.name, hspan.size, hspan.body⟩
  rw [hmethod]
  exact Scan.finds_pure ⟨rfl, hbody, hannotations, hspanned.map_raw⟩

end Member

namespace FieldBuilder

variable {f f' : FieldBuilder} {u : Unit}

theorem gives_initialValue (field : String) (value : Option Loadable) :
    Gives (initialValue field value) fun image i =>
      Option.Rel (fun i value => image.loadable i = .ok value) i value := by
  cases value with
  | none =>
    refine (ConstantPool.gives_pure none).mono ?_
    rintro _ _ rfl
    exact .none
  | some value =>
    refine ConstantPool.gives_ite (fun hvalue => ?_) fun _ => ConstantPool.gives_throw _
    refine (ConstantPool.gives_of_denotes (ConstantPool.stable_loadable value)
      (ClassImage.loadable_back value)).fmap.mono ?_
    rintro image _ ⟨i, hi, rfl⟩
    rw [Loadable.stored_of_isInitializer hvalue] at hi
    exact .some hi

/-- The constants of a declaration are looked up as what was declared. -/
theorem gives_constants (d : FieldDeclaration) : Gives (constants d) fun image found =>
    image.utf8 found.1 = .ok d.name ∧ image.utf8 found.2.1 = .ok d.descriptor ∧
      Option.Rel (fun i text => image.utf8 i = .ok text) found.2.2.1 d.signature ∧
      Option.Rel (fun i value => image.loadable i = .ok value) found.2.2.2 d.value := by
  refine ((ConstantPool.gives_of _).bind fun _ => (ConstantPool.gives_utf8 d.name).bind fun _ =>
    (ConstantPool.gives_utf8 d.descriptor).bind fun _ =>
    (ConstantPool.gives_utf8? d.signature).bind fun _ =>
    (gives_initialValue d.name d.value).map).mono ?_
  rintro image _ ⟨_, -, name, hname, descriptor, hdescriptor, signature, hsignature, value, hvalue,
    rfl⟩
  exact ⟨hname, hdescriptor, hsignature, hvalue⟩

/-- The attributes of a field. -/
def ownAttributes (f : FieldBuilder) : ConstantPool.Request (List Attribute) := do
  let value ← Attribute.makeIf (f.value.map .constantValue)
  let signature ← Attribute.makeSignature f.signature
  let annotations ← Attribute.makeAnnotations f.annotations.toList
  let raw ← Attribute.makeRaw f.attributes.toList
  return value ++ signature ++ annotations ++ raw

theorem finish_ok : finish f = .ok u f' ↔ ∃ attributes pool,
    ownAttributes f f.pool = .ok attributes pool ∧ attributes.length < 65536 ∧
      f' = { f with
        pool, attributes := #[]
        finished := f.finished.push ⟨f.flags.bits, f.name, f.descriptor, attributes⟩ } := by
  simp only [finish, ownAttributes, Step.bind_ok, Step.get_ok, Step.modify_ok, Step.of_ok, ask,
    Step.on_ok, count16_ok, Step.pure_ok]
  constructor
  · rintro ⟨_, _, ⟨rfl, rfl⟩, value, _, ⟨p1, h1, rfl⟩, signature, _, ⟨p2, h2, rfl⟩, annotations, _,
      ⟨p3, h3, rfl⟩, _, _, rfl, raw, _, ⟨p4, h4, rfl⟩, _, _, ⟨⟨hcount, -⟩, rfl⟩, rfl⟩
    exact ⟨_, p4, ⟨value, p1, h1, signature, p2, h2, annotations, p3, h3, raw, p4, h4, rfl, rfl⟩,
      hcount, rfl⟩
  · rintro ⟨_, _, ⟨value, p1, h1, signature, p2, h2, annotations, p3, h3, raw, _, h4, rfl, rfl⟩,
      hcount, rfl⟩
    exact ⟨_, _, ⟨rfl, rfl⟩, value, _, ⟨p1, h1, rfl⟩, signature, _, ⟨p2, h2, rfl⟩, annotations, _,
      ⟨p3, h3, rfl⟩, (), _, rfl, raw, _, ⟨_, h4, rfl⟩, _, _, ⟨⟨hcount, rfl⟩, rfl⟩, rfl⟩

theorem gives_ownAttributes (f : FieldBuilder) :
    Gives (ownAttributes f) fun image attributes => ∃ visible invisible,
      Attribute.AnnotationBody image true (Attribute.chosen f.annotations.toList true) visible ∧
      Attribute.AnnotationBody image false (Attribute.chosen f.annotations.toList false) invisible ∧
      Attribute.Listed attributes image ((f.value.map .constantValue).toList ++
        ((f.signature.map .signature).toList ++ (visible.toList ++ (invisible.toList ++
          f.attributes.toList.map fun a => .raw a.name a.data)))) := by
  refine ((Attribute.gives_makeIf _).bind fun _ => (Attribute.gives_makeSignature _).bind fun _ =>
    (Attribute.gives_makeAnnotations _).bind fun _ => (Attribute.gives_makeRaw _).map).mono ?_
  rintro image _ ⟨value, h1, signature, h2, annotations, ⟨visible, invisible, hv, hi, h3⟩, raw, h4,
    rfl⟩
  refine ⟨visible, invisible, hv, hi, ?_⟩
  have hall := ((h1.append h2).append h3).append h4
  simpa only [List.append_assoc] using hall

/-- The annotation that an event adds, if any. -/
def annotation? : FieldEvent → Option Annotated
  | .annotated a visible => some (a, visible)
  | _ => none

/-- The attribute that an event adds, if any. -/
def raw? : FieldEvent → Option RawAttribute
  | .attribute a => some a
  | _ => none

/-- The event is not the end of the field. -/
def Inside : FieldEvent → Prop
  | .finish => False
  | _ => True

/-- An event that adds an annotation does nothing else. -/
theorem inside_of_annotation {event : FieldEvent} (h : (annotation? event).isSome) :
    Inside event ∧ raw? event = none := by
  cases event with
  | annotated a visible => exact ⟨trivial, rfl⟩
  | «attribute» a => cases h
  | finish => cases h

/-- Events inside a field add their annotations, and their attributes if these are accepted. -/
theorem run_inside {events : List FieldEvent} (h : ∀ e ∈ events, Inside e) :
    ClassBuilder.feedField events f = .ok u f' ↔
      (∀ a ∈ events.filterMap raw?, a.check f.copiedPool = .ok ()) ∧
      f' = { f with
        annotations := f.annotations ++ (events.filterMap annotation?).toArray
        attributes := f.attributes ++ (events.filterMap raw?).toArray } := by
  induction events generalizing f f' with
  | nil =>
    refine Step.pure_ok.trans ⟨?_, ?_⟩
    · rintro ⟨-, rfl⟩
      exact ⟨by simp, by simp⟩
    · rintro ⟨-, rfl⟩
      exact ⟨rfl, by simp⟩
  | cons event rest ih =>
    have hrest : ∀ e ∈ rest, Inside e := fun e he => h e (List.mem_cons_of_mem _ he)
    refine Step.bind_ok.trans ?_
    cases event with
    | annotated a visible =>
      simp only [feed, Step.modify_ok]
      constructor
      · rintro ⟨_, _, rfl, hrun⟩
        obtain ⟨hall, rfl⟩ := (ih hrest).1 hrun
        exact ⟨hall, by simp [annotation?, raw?, List.filterMap_cons]⟩
      · rintro ⟨hall, rfl⟩
        exact ⟨(), _, rfl, (ih hrest).2 ⟨hall, by simp [annotation?, raw?, List.filterMap_cons]⟩⟩
    | «attribute» a =>
      simp only [feed, Step.bind_ok, Step.get_ok, Step.of_ok, Step.modify_ok, ih hrest]
      constructor
      · rintro ⟨_, _, ⟨_, _, ⟨rfl, rfl⟩, _, _, ⟨ha, rfl⟩, rfl⟩, hall, rfl⟩
        exact ⟨by simpa [raw?, ha] using hall,
          by simp [annotation?, raw?, List.filterMap_cons]⟩
      · rintro ⟨hall, rfl⟩
        simp only [raw?, List.filterMap_cons, List.forall_mem_cons] at hall
        exact ⟨(), _, ⟨f, f, ⟨rfl, rfl⟩, (), f, ⟨hall.1, rfl⟩, rfl⟩, hall.2,
          by simp [annotation?, raw?, List.filterMap_cons]⟩
    | finish => exact (h _ List.mem_cons_self).elim

theorem feedField_append {front rest : List FieldEvent} :
    ClassBuilder.feedField (front ++ rest) f = .ok u f' ↔
      ∃ mid, ClassBuilder.feedField front f = .ok () mid ∧
        ClassBuilder.feedField rest mid = .ok u f' := by
  induction front generalizing f with
  | nil =>
    refine ⟨fun h => ⟨f, rfl, h⟩, ?_⟩
    rintro ⟨mid, hnone, hrest⟩
    obtain ⟨-, rfl⟩ := Step.pure_ok.1 hnone
    exact hrest
  | cons event front ih =>
    constructor
    · intro h
      obtain ⟨_, next, hfirst, h⟩ := Step.bind_ok.1 h
      obtain ⟨mid, hfront, hrest⟩ := ih.1 h
      exact ⟨mid, Step.bind_ok.2 ⟨_, next, hfirst, hfront⟩, hrest⟩
    · rintro ⟨mid, hfront, hrest⟩
      obtain ⟨_, next, hfirst, hfront⟩ := Step.bind_ok.1 hfront
      exact Step.bind_ok.2 ⟨_, next, hfirst, ih.2 ⟨mid, hfront, hrest⟩⟩

/-- Events of a field add to the pool. -/
theorem extended_run {events : List FieldEvent} (h : ClassBuilder.feedField events f = .ok u f') :
    f.pool.Extended f'.pool := by
  induction events generalizing f with
  | nil =>
    obtain ⟨-, rfl⟩ := Step.pure_ok.1 h
    exact .refl
  | cons event rest ih =>
    obtain ⟨_, mid, hfirst, hrest⟩ := Step.bind_ok.1 h
    refine ConstantPool.Extended.trans ?_ (ih hrest)
    cases event with
    | annotated a visible =>
      obtain rfl := Step.modify_ok.1 hfirst
      exact .refl
    | «attribute» a =>
      simp only [feed, Step.bind_ok, Step.get_ok, Step.of_ok, Step.modify_ok] at hfirst
      obtain ⟨_, _, ⟨rfl, rfl⟩, _, _, ⟨-, rfl⟩, rfl⟩ := hfirst
      exact .refl
    | finish =>
      obtain ⟨attributes, pool, hattributes, -, rfl⟩ := finish_ok.1 hfirst
      exact ((gives_ownAttributes f).stable _ _ _ hattributes).1

/-- A field under construction, as it starts. -/
def ofConstants (d : FieldDeclaration) (copiedPool : Bool)
    (found : PoolIndex × PoolIndex × Option PoolIndex × Option PoolIndex) (pool : ConstantPool) :
    FieldBuilder :=
  { pool, copiedPool, flags := d.flags, name := found.1, descriptor := found.2.1
    signature := found.2.2.1, value := found.2.2.2, annotations := #[], attributes := #[]
    finished := #[] }

/-- A field that is finished after other events holds its declaration and what those add. -/
theorem isField_of_run {d : FieldDeclaration} {copiedPool : Bool} {front : List FieldEvent}
    {p q : ConstantPool} {found : PoolIndex × PoolIndex × Option PoolIndex × Option PoolIndex}
    (hfound : constants d p = .ok found q) (hfront : ∀ e ∈ front, Inside e)
    (hrun : ClassBuilder.feedField (front ++ [.finish]) (ofConstants d copiedPool found q) =
      .ok u f) :
    ∃ m, f.finished = #[m] ∧ p.Extended f.pool ∧ ∀ image : ClassImage, image.Holds f.pool →
      m.IsField image d (front.filterMap annotation?) (front.filterMap raw?) := by
  obtain ⟨mid, hmid, hfinish⟩ := feedField_append.1 hrun
  obtain ⟨-, rfl⟩ := (run_inside hfront).1 hmid
  obtain ⟨_, last, hlast, hend⟩ := Step.bind_ok.1 hfinish
  obtain ⟨-, rfl⟩ := Step.pure_ok.1 hend
  obtain ⟨attributes, pool, hattributes, -, rfl⟩ := finish_ok.1 hlast
  have hgives := gives_constants d
  have hgives' := gives_ownAttributes { ofConstants d copiedPool found q with
    annotations := #[] ++ (front.filterMap annotation?).toArray
    attributes := #[] ++ (front.filterMap raw?).toArray }
  have hext := (hgives'.stable _ _ _ hattributes).1
  refine ⟨_, rfl, (hgives.stable _ _ _ hfound).1.trans hext, fun image hi => ?_⟩
  obtain ⟨hname, hdescriptor, hsignature, hvalue⟩ := hgives.answer hfound (hi.of_grows hext.grows)
  obtain ⟨visible, invisible, hv, hn, hlisted⟩ := hgives'.answer hattributes hi
  simp only [Array.empty_append] at hv hn hlisted
  exact ⟨rfl, hname, hdescriptor, _, _, visible, invisible, hvalue, hsignature, hv, hn, hlisted⟩

end FieldBuilder

namespace MethodBuilder

variable {b b' : MethodBuilder} {u : Unit}

/-- What is fixed when a method starts is what was declared. -/
theorem gives_start (compute : Compute) (copiedPool : Bool) (hierarchy : Hierarchy)
    (thisClass : ClassName) (d : MethodDeclaration) :
    Gives (start compute copiedPool hierarchy thisClass d) fun image setting =>
      image.utf8 setting.nameIndex = .ok d.name ∧
      image.utf8 setting.descriptorIndex = .ok d.descriptor ∧ setting.flags = d.flags ∧
      setting.signature = d.signature ∧ setting.exceptions = d.exceptions := by
  refine ((ConstantPool.gives_utf8 d.name).bind fun _ =>
    (ConstantPool.gives_utf8 d.descriptor).bind fun _ => (ConstantPool.gives_of _).map).mono ?_
  rintro image _ ⟨name, hname, descriptor, hdescriptor, _, -, rfl⟩
  exact ⟨hname, hdescriptor, rfl, rfl, rfl⟩

theorem gives_exceptionsAttribute (names : List String) :
    Gives (exceptionsAttribute names) fun image attributes => ∃ classes,
      Member.Throws image names classes ∧
      Attribute.Listed attributes image (classes.map .exceptions).toList := by
  refine (ConstantPool.gives_ite (fun hempty => ?_) fun _ => ?_)
  · refine (ConstantPool.gives_pure []).mono ?_
    rintro image _ rfl
    exact ⟨none, List.isEmpty_iff.1 hempty, .nil⟩
  · refine ((ConstantPool.gives_classes names).bind fun classes =>
      (ConstantPool.gives_of _).bind fun _ => Attribute.gives_single (.exceptions classes)).mono ?_
    rintro image attributes ⟨classes, hclasses, _, -, hlisted⟩
    exact ⟨some classes, hclasses, hlisted⟩

/-- The attributes of a method, but for its body. -/
def ownAttributes (b : MethodBuilder) : ConstantPool.Request (List Attribute) := do
  let exceptions ← exceptionsAttribute b.setting.exceptions
  let signature ← Attribute.makeSignature (← ConstantPool.utf8? b.setting.signature)
  let annotations ← Attribute.makeAnnotations b.annotations.toList
  let raw ← Attribute.makeRaw b.attributes.toList
  return exceptions ++ signature ++ annotations ++ raw

theorem finish_ok : finish b = .ok u b' ↔ ∃ attributes pool,
    ownAttributes b b.pool = .ok attributes pool ∧ (b.body.toList ++ attributes).length < 65536 ∧
      b' = { b with
        pool, body := none, attributes := #[]
        finished := b.finished.push ⟨b.setting.flags.bits, b.setting.nameIndex,
          b.setting.descriptorIndex, b.body.toList ++ attributes⟩ } := by
  simp only [finish, ownAttributes, Step.bind_ok, Step.get_ok, Step.set_ok, Step.modify_ok,
    Step.of_ok, ask, Step.on_ok, count16_ok, Step.pure_ok, List.append_assoc]
  constructor
  · rintro ⟨_, _, ⟨rfl, rfl⟩, _, _, rfl, exceptions, _, ⟨p1, h1, rfl⟩, signature, _,
      ⟨p3, ⟨i, p2, h2, h3⟩, rfl⟩, annotations, _, ⟨p4, h4, rfl⟩, _, _, rfl, raw, _, ⟨p5, h5, rfl⟩,
      _, _, ⟨⟨hcount, -⟩, rfl⟩, rfl⟩
    exact ⟨_, p5, ⟨exceptions, p1, h1, i, p2, h2, signature, p3, h3, annotations, p4, h4, raw, p5,
      h5, rfl, rfl⟩, hcount, rfl⟩
  · rintro ⟨_, _, ⟨exceptions, p1, h1, i, p2, h2, signature, p3, h3, annotations, p4, h4, raw, _,
      h5, rfl, rfl⟩, hcount, rfl⟩
    exact ⟨_, _, ⟨rfl, rfl⟩, (), _, rfl, exceptions, _, ⟨p1, h1, rfl⟩, signature, _,
      ⟨p3, ⟨i, p2, h2, h3⟩, rfl⟩, annotations, _, ⟨p4, h4, rfl⟩, (), _, rfl, raw, _, ⟨_, h5, rfl⟩,
      _, _, ⟨⟨hcount, rfl⟩, rfl⟩, rfl⟩

theorem gives_ownAttributes (b : MethodBuilder) :
    Gives (ownAttributes b) fun image attributes => ∃ classes signature visible invisible,
      Member.Throws image b.setting.exceptions classes ∧
      Option.Rel (fun i text => image.utf8 i = .ok text) signature b.setting.signature ∧
      Attribute.AnnotationBody image true (Attribute.chosen b.annotations.toList true) visible ∧
      Attribute.AnnotationBody image false (Attribute.chosen b.annotations.toList false) invisible ∧
      Attribute.Listed attributes image ((classes.map .exceptions).toList ++
        ((signature.map .signature).toList ++ (visible.toList ++ (invisible.toList ++
          b.attributes.toList.map fun a => .raw a.name a.data)))) := by
  refine ((gives_exceptionsAttribute _).bind fun _ =>
    (ConstantPool.gives_utf8? _).bind fun _ => (Attribute.gives_makeSignature _).bind fun _ =>
    (Attribute.gives_makeAnnotations _).bind fun _ => (Attribute.gives_makeRaw _).map).mono ?_
  rintro image _ ⟨exceptions, ⟨classes, hclasses, h1⟩, signature, hsignature, stored, h2,
    annotations, ⟨visible, invisible, hv, hi, h3⟩, raw, h4, rfl⟩
  refine ⟨classes, signature, visible, invisible, hclasses, hsignature, hv, hi, ?_⟩
  have hall := ((h1.append h2).append h3).append h4
  simpa only [List.append_assoc] using hall

/-- What has a constant of the declaration is looked up as it was declared. -/
structure Declared (b : MethodBuilder) (image : ClassImage) (d : MethodDeclaration) : Prop where
  name : image.utf8 b.setting.nameIndex = .ok d.name
  descriptor : image.utf8 b.setting.descriptorIndex = .ok d.descriptor
  flags : b.setting.flags = d.flags
  signature : b.setting.signature = d.signature
  exceptions : b.setting.exceptions = d.exceptions

/-- Events of a method add to the pool. -/
theorem extended_run {events : List MethodEvent}
    (h : ClassBuilder.feedMethod events b = .ok u b') : b.pool.Extended b'.pool := by
  induction events generalizing b with
  | nil =>
    obtain ⟨-, rfl⟩ := Step.pure_ok.1 h
    exact .refl
  | cons event rest ih =>
    obtain ⟨_, mid, hfirst, hrest⟩ := Step.bind_ok.1 h
    refine ConstantPool.Extended.trans ?_ (ih hrest)
    by_cases hinside : Inside event
    · exact (feed_inside hinside hfirst).2.pool
    · cases event with
      | «attribute» a =>
        simp only [feed, Step.bind_ok, Step.get_ok, Step.of_ok, Step.modify_ok] at hfirst
        obtain ⟨_, _, ⟨rfl, rfl⟩, _, _, ⟨-, rfl⟩, rfl⟩ := hfirst
        exact .refl
      | finish =>
        obtain ⟨attributes, pool, hattributes, -, rfl⟩ := finish_ok.1 hfirst
        exact ((gives_ownAttributes b).stable _ _ _ hattributes).1
      | _ => exact absurd trivial hinside

/-- A method that is finished holds its declaration, its body, its annotations and its attributes. -/
theorem isMethod_of_finish {d : MethodDeclaration} (hfinish : finish b = .ok u b')
    (hcode : b.CodeNamed) : ∃ m, b'.finished = b.finished.push m ∧ b.pool.Extended b'.pool ∧
      ∀ image : ClassImage, image.Holds b'.pool → b.Declared image d →
        m.IsMethod image d b.body b.annotations.toList b.attributes.toList := by
  obtain ⟨attributes, pool, hattributes, -, rfl⟩ := finish_ok.1 hfinish
  have hgives := gives_ownAttributes b
  have hext := (hgives.stable _ _ _ hattributes).1
  refine ⟨_, rfl, hext, fun image hi hd => ?_⟩
  obtain ⟨classes, signature, visible, invisible, hthrows, hsignature, hv, hn, hlisted⟩ :=
    hgives.answer hattributes hi
  rw [hd.exceptions] at hthrows
  rw [hd.signature] at hsignature
  refine ⟨by rw [hd.flags], hd.name, hd.descriptor, fun code hbody => (hcode code hbody).1, classes,
    signature, visible, invisible, hthrows, hsignature, hv, hn, ?_⟩
  refine Attribute.Listed.append ⟨?_, fun a ha => ?_⟩ hlisted
  · cases b.body <;> rfl
  · exact (hcode a (Option.mem_toList.1 ha)).2 image (hi.of_grows hext.grows)

/-- A method that is finished after other events holds its declaration and the annotations among
those. -/
theorem isMethod_of_run {compute : Compute} {copiedPool : Bool} {hierarchy : Hierarchy}
    {thisClass : ClassName} {d : MethodDeclaration} {front : List MethodEvent}
    {p q : ConstantPool} {setting : MethodSetting}
    (hstart : start compute copiedPool hierarchy thisClass d p = .ok setting q)
    (hfront : ∀ e ∈ front, Inside e)
    (hrun : ClassBuilder.feedMethod (front ++ [.finish]) (ofSetting setting q) = .ok u b) :
    ∃ m body, b.finished = #[m] ∧ p.Extended b.pool ∧ ∀ image : ClassImage, image.Holds b.pool →
      m.IsMethod image d body (front.filterMap annotation?) [] := by
  obtain ⟨mid, hmid, hfinish⟩ := ClassBuilder.feedMethod_append.1 hrun
  obtain ⟨hannotations, hkeeps⟩ := run_inside hfront hmid
  obtain ⟨_, last, hlast, hend⟩ := Step.bind_ok.1 hfinish
  obtain ⟨-, rfl⟩ := Step.pure_ok.1 hend
  have hcode : mid.CodeNamed := hkeeps.body fun a ha => nomatch ha
  obtain ⟨m, hm, hext, hmethod⟩ := isMethod_of_finish (d := d) hlast hcode
  have hgives := gives_start compute copiedPool hierarchy thisClass d
  have hsetting : mid.setting = setting := hkeeps.setting
  have hfinished : mid.finished = #[] := hkeeps.finished
  have hattributes : mid.attributes = #[] := hkeeps.attributes
  have hchosen : mid.annotations.toList = front.filterMap annotation? := hannotations
  rw [hfinished] at hm
  refine ⟨m, mid.body, hm, ((hgives.stable _ _ _ hstart).1.trans hkeeps.pool).trans hext,
    fun image hi => ?_⟩
  obtain ⟨hname, hdescriptor, hflags, hsig, hexceptions⟩ :=
    hgives.answer hstart ((hi.of_grows hext.grows).of_grows hkeeps.pool.grows)
  have hheld := hmethod image hi
    ⟨by rw [hsetting, hname], by rw [hsetting, hdescriptor], by rw [hsetting, hflags],
      by rw [hsetting, hsig], by rw [hsetting, hexceptions]⟩
  rwa [hchosen, hattributes] at hheld

end MethodBuilder

end JvmClass
