import JvmClass.Proofs.Image.Gathering

/-!
# Attributes and their bodies

The attributes that the events of a class file rest on are read from where their bodies begin
(`ClassImage.Interprets`), in the bytes of the whole file. A read that stays in the body does not
depend on anything behind it. A body that is shorter than its own counts require is read past its
end, although its bytes alone would be too few: the declared size is not looked at.
-/

namespace JvmClass.ClassImage

open Scan (Confined Short)

variable {image : ClassImage} {skip : Skip} {data : Bytes} {α : Type} {span : AttributeSpan}
  {read : Scan α}

section Relation

/-- Where the attributes of the class are. -/
def classAttributes (image : ClassImage) : Except ClassError (List AttributeSpan) :=
  Scan.runAt image.data image.attributesStart image.readAttributes

/-- The fields or methods of a table as they are stored. -/
def members (image : ClassImage) (start : Nat) : Except ClassError (List StoredMember) :=
  Scan.runAt image.data start (Scan.counted image.readMember)

/-- The attributes that are interpreted in classes, fields and methods alike, and how they are
read. -/
inductive InterpretsCommon (image : ClassImage) (spans : List AttributeSpan) (annotated : Prop) :
    AttributeSpan → {α : Type} → Scan α → Prop where
  | signature {span : AttributeSpan} (h : span ∈ spans) (hname : span.name = "Signature") :
    InterpretsCommon image spans annotated span Scan.u16
  | visibleAnnotations {span : AttributeSpan} (ha : annotated)
    (h : lastNamed "RuntimeVisibleAnnotations" spans = some span) :
    InterpretsCommon image spans annotated span image.readAnnotations
  | invisibleAnnotations {span : AttributeSpan} (ha : annotated)
    (h : lastNamed "RuntimeInvisibleAnnotations" spans = some span) :
    InterpretsCommon image spans annotated span image.readAnnotations

/-- The attributes of the body of a method that are interpreted, and how they are read. -/
inductive InterpretsInCode (image : ClassImage) (skip : Skip) (m : StoredMember) :
    AttributeSpan → {α : Type} → Scan α → Prop where
  | lineNumbers {span : AttributeSpan} (hskip : skip.debug = false)
    (hname : span.name = "LineNumberTable") :
    InterpretsInCode image skip m span (Scan.counted readLine)
  | localVariables {span : AttributeSpan} (hskip : skip.debug = false)
    (hname : span.name = "LocalVariableTable") :
    InterpretsInCode image skip m span (Scan.counted readVariable)
  | stackMap {span : AttributeSpan} {locals : List NamedType} (hskip : skip.frames = false)
    (hname : span.name = "StackMapTable") (hlocals : image.entryLocals m.method = .ok locals) :
    InterpretsInCode image skip m span (image.readStackMap locals)

/-- The attributes of a class file that are interpreted, and how they are read. -/
inductive Interprets (image : ClassImage) (skip : Skip) :
    AttributeSpan → {α : Type} → Scan α → Prop where
  | bootstrapMethods {spans : List AttributeSpan} {span : AttributeSpan}
    (hspans : image.classAttributes = .ok spans)
    (h : spans.find? (·.name == "BootstrapMethods") = some span) :
    Interprets image skip span (Scan.counted readBootstrapMethod)
  | sourceFile {spans : List AttributeSpan} {span : AttributeSpan} (hskip : skip.debug = false)
    (hspans : image.classAttributes = .ok spans) (h : lastNamed "SourceFile" spans = some span) :
    Interprets image skip span Scan.u16
  | nestHost {spans : List AttributeSpan} {span : AttributeSpan}
    (hspans : image.classAttributes = .ok spans) (h : lastNamed "NestHost" spans = some span) :
    Interprets image skip span Scan.u16
  | enclosingMethod {spans : List AttributeSpan} {span : AttributeSpan}
    (hspans : image.classAttributes = .ok spans)
    (h : lastNamed "EnclosingMethod" spans = some span) :
    Interprets image skip span image.readEnclosingMethod
  | nestMembers {spans : List AttributeSpan} {span : AttributeSpan}
    (hspans : image.classAttributes = .ok spans) (h : lastNamed "NestMembers" spans = some span) :
    Interprets image skip span (Scan.counted image.readNestMember)
  | innerClasses {spans : List AttributeSpan} {span : AttributeSpan}
    (hspans : image.classAttributes = .ok spans) (h : lastNamed "InnerClasses" spans = some span) :
    Interprets image skip span (Scan.counted image.readInnerClass)
  | ofClass {spans : List AttributeSpan} {span : AttributeSpan} {α : Type} {read : Scan α}
    (hspans : image.classAttributes = .ok spans)
    (h : image.InterpretsCommon spans True span read) : Interprets image skip span read
  | constantValue {fields : List StoredMember} {m : StoredMember} {span : AttributeSpan}
    (hfields : image.members image.fieldsStart = .ok fields) (hm : m ∈ fields)
    (h : span ∈ m.attributes) (hname : span.name = "ConstantValue") :
    Interprets image skip span Scan.u16
  | ofField {fields : List StoredMember} {m : StoredMember} {span : AttributeSpan} {α : Type}
    {read : Scan α} (hfields : image.members image.fieldsStart = .ok fields) (hm : m ∈ fields)
    (h : image.InterpretsCommon m.attributes (skip.members = false) span read) :
    Interprets image skip span read
  | exceptions {methods : List StoredMember} {m : StoredMember} {span : AttributeSpan}
    (hmethods : image.members image.methodsStart = .ok methods) (hm : m ∈ methods)
    (h : span ∈ m.attributes) (hname : span.name = "Exceptions") :
    Interprets image skip span image.readClasses
  | ofMethod {methods : List StoredMember} {m : StoredMember} {span : AttributeSpan} {α : Type}
    {read : Scan α} (hmethods : image.members image.methodsStart = .ok methods) (hm : m ∈ methods)
    (h : image.InterpretsCommon m.attributes (skip.members = false) span read) :
    Interprets image skip span read
  | code {methods : List StoredMember} {m : StoredMember} {span : AttributeSpan}
    (hmethods : image.members image.methodsStart = .ok methods) (hm : m ∈ methods)
    (hmembers : skip.members = false) (hskip : skip.code = false)
    (h : lastNamed "Code" m.attributes = some span) :
    Interprets image skip span image.readStoredBody
  | inCode {methods : List StoredMember} {m : StoredMember} {code span : AttributeSpan} {α : Type}
    {read : Scan α} {body : StoredBody}
    (hmethods : image.members image.methodsStart = .ok methods) (hm : m ∈ methods)
    (hmembers : skip.members = false) (hskip : skip.code = false)
    (hcode : lastNamed "Code" m.attributes = some code)
    (hbody : image.readBody code image.readStoredBody = .ok body) (hs : span ∈ body.attributes)
    (h : image.InterpretsInCode skip m span read) : Interprets image skip span read

end Relation

section Reads

theorem read_of_common {σ : Type} {f : σ → AttributeSpan → Except ClassError σ}
    {common : σ → MemberAttributes} {spans : List AttributeSpan} {s r : σ} {annotated : Prop}
    (hf : ∀ t span t', f t span = .ok t' → image.Adds (common t) span (common t'))
    (h : spans.foldlM f s = .ok r)
    (ha : annotated → ∃ all, image.annotations (common r) = .ok all)
    (hi : image.InterpretsCommon spans annotated span read) :
    ∃ a, image.readBody span read = .ok a := by
  cases hi with
  | signature hspan hname =>
    obtain ⟨t, t', ht⟩ := step_of_foldlM h hspan
    exact (hf _ _ _ ht).signature hname
  | visibleAnnotations hannotated hlast =>
    obtain ⟨all, hall⟩ := ha hannotated
    obtain ⟨visible, hvisible, -⟩ := Step.except_bind_ok.1 hall
    rw [last_of_foldlM (fun t span t' ht => (hf t span t' ht).visible) h, hlast] at hvisible
    exact ⟨visible, hvisible⟩
  | invisibleAnnotations hannotated hlast =>
    obtain ⟨all, hall⟩ := ha hannotated
    obtain ⟨visible, -, hrest⟩ := Step.except_bind_ok.1 hall
    obtain ⟨invisible, hinvisible, -⟩ := Step.except_bind_ok.1 hrest
    rw [last_of_foldlM (fun t span t' ht => (hf t span t' ht).invisible) h, hlast] at hinvisible
    exact ⟨invisible, hinvisible⟩

/-- Attributes of a class of which the last one counts. -/
theorem last_of_class {spans spans' : List AttributeSpan} {attributes : ClassAttributes}
    {get : ClassAttributes → Option AttributeSpan} {name : String}
    (h : image.Told skip spans attributes)
    (hget : ∀ t span t', image.AddsToClass t span t' →
      get t' = if span.name == name then some span else get t)
    (hspans : image.classAttributes = .ok spans') (hlast : lastNamed name spans' = some span) :
    get attributes = some span := by
  obtain rfl : spans = spans' := Except.ok.inj (h.spans_eq.symm.trans hspans)
  rw [last_of_foldlM (fun t span t' ht => hget t span t' (addClassAttribute_ok ht))
    h.attributes_eq, hlast]
  rfl

/-- A stored field from which its declaration has been made. -/
theorem field_of_told {spans : List AttributeSpan} {attributes : ClassAttributes}
    (h : image.Told skip spans attributes) {fields : List StoredMember} {m : StoredMember}
    (hfields : image.members image.fieldsStart = .ok fields) (hm : m ∈ fields) :
    ∃ gathered, m.attributes.foldlM image.addFieldAttribute {} = .ok gathered ∧
      (skip.members = false → ∃ all, image.annotations gathered.common = .ok all) := by
  obtain ⟨items, hread, htold⟩ := h.fields
  rw [readField_eq] at hread
  obtain ⟨found, hfound, hitems⟩ := counted_of_bind hread
  obtain rfl : found = fields := Except.ok.inj (hfound.symm.trans hfields)
  obtain ⟨item, hitem, hmade⟩ := hitems m hm
  obtain ⟨gathered, hgathered, hmade⟩ := Step.except_bind_ok.1 hmade
  cases hmade
  exact ⟨gathered, hgathered, fun hskip => htold hskip _ hitem⟩

/-- A stored method from which its declaration has been made, and which has been told. -/
theorem method_of_told {spans : List AttributeSpan} {attributes : ClassAttributes}
    (h : image.Told skip spans attributes) {methods : List StoredMember} {m : StoredMember}
    (hmethods : image.members image.methodsStart = .ok methods) (hm : m ∈ methods) :
    ∃ gathered d, m.attributes.foldlM image.addMethodAttribute {} = .ok gathered ∧
      image.entryLocals d = image.entryLocals m.method ∧
      (skip.members = false → Tell.Succeeds (image.tellMethod skip d gathered)) := by
  obtain ⟨items, hread, htold⟩ := h.methods
  rw [readMethod_eq] at hread
  obtain ⟨found, hfound, hitems⟩ := counted_of_bind hread
  obtain rfl : found = methods := Except.ok.inj (hfound.symm.trans hmethods)
  obtain ⟨item, hitem, hmade⟩ := hitems m hm
  obtain ⟨gathered, hgathered, hmade⟩ := Step.except_bind_ok.1 hmade
  cases hmade
  exact ⟨gathered, _, hgathered, rfl, fun hskip => htold hskip _ hitem⟩

/-- The code of a method that has been told has been read, and its tables have been gone through. -/
theorem body_of_told {d : MethodDeclaration} {m : StoredMember} {gathered : MethodAttributes}
    {code : AttributeSpan}
    (hgathered : m.attributes.foldlM image.addMethodAttribute {} = .ok gathered)
    (htold : Tell.Succeeds (image.tellMethod skip d gathered)) (hskip : skip.code = false)
    (hcode : lastNamed "Code" m.attributes = some code) :
    ∃ body tables, image.readBody code image.readStoredBody = .ok body ∧
      body.attributes.foldlM (image.addTable skip d) ⟨#[], #[], [], #[]⟩ = .ok tables := by
  have hlast := last_of_foldlM (fun t span t' ht => (addMethodAttribute_ok ht).code) hgathered
  rw [hcode] at hlast
  obtain ⟨named, hnamed⟩ := (tellMethod_ok htold).2 hskip code hlast
  obtain ⟨body, hbody, hnamed⟩ := Step.except_bind_ok.1 hnamed
  obtain ⟨tables, htables, -⟩ := Step.except_bind_ok.1 hnamed
  exact ⟨body, tables, hbody, htables⟩

theorem read_of_table {d : MethodDeclaration} {m : StoredMember} {tables tables' : BodyTables}
    (hd : image.entryLocals d = image.entryLocals m.method)
    (h : image.addTable skip d tables span = .ok tables')
    (hi : image.InterpretsInCode skip m span read) : ∃ a, image.readBody span read = .ok a := by
  unfold addTable at h
  cases hi with
  | lineNumbers hskip hname =>
    simp [hname, hskip] at h
    obtain ⟨lines, hlines, -⟩ := Step.except_bind_ok.1 h
    exact ⟨lines, hlines⟩
  | localVariables hskip hname =>
    simp [hname, hskip] at h
    obtain ⟨vars, hvars, -⟩ := Step.except_bind_ok.1 h
    exact ⟨vars, hvars⟩
  | stackMap hskip hname hlocals =>
    simp [hname, hskip, hd, hlocals] at h
    obtain ⟨locals, hl, h⟩ := Step.except_bind_ok.1 h
    cases hl
    obtain ⟨frames, hframes, -⟩ := Step.except_bind_ok.1 h
    exact ⟨frames, hframes⟩

theorem read_of_bootstraps {spans : List AttributeSpan} (h : parse data = .ok image)
    (hspans : image.classAttributes = .ok spans)
    (hspan : spans.find? (·.name == "BootstrapMethods") = some span) :
    ∃ methods, image.readBody span (Scan.counted readBootstrapMethod) = .ok methods := by
  obtain ⟨parts, attributes, hparts, hattributes, himage⟩ := parse_ok h
  obtain ⟨c, hparts⟩ := Scan.runAt_ok.1 hparts
  have hdata := (pool_of_parts hparts).1
  rw [← hdata] at hattributes
  have hsame : image.classAttributes = .ok attributes := by
    rcases himage with ⟨-, rfl⟩ | ⟨-, methods, -, -, rfl⟩
    · exact hattributes
    · exact hattributes
  obtain rfl : spans = attributes := Except.ok.inj (hspans.symm.trans hsame)
  rcases himage with ⟨hnone, -⟩ | ⟨found, methods, hfound, hmethods, rfl⟩
  · rw [hnone] at hspan
    cases hspan
  · obtain rfl : found = span := Option.some.inj (hfound.symm.trans hspan)
    exact ⟨methods, hmethods⟩

/-- Every attribute that is interpreted has been read. -/
theorem read_of_interprets (h : parse data = .ok image) (hevents : (image.events skip).fault = none)
    (hi : image.Interprets skip span read) : ∃ a, image.readBody span read = .ok a := by
  obtain ⟨spans, attributes, told⟩ := told_of_events hevents
  cases hi with
  | bootstrapMethods hspans hspan => exact read_of_bootstraps h hspans hspan
  | sourceFile hskip hspans hlast =>
    obtain ⟨text, htext⟩ := told.sourceFile hskip span
      (last_of_class told (fun _ _ _ ht => ht.sourceFile) hspans hlast)
    exact readTextOf_ok htext
  | nestHost hspans hlast =>
    exact told.nestHost span (last_of_class told (fun _ _ _ ht => ht.nestHost) hspans hlast)
  | enclosingMethod hspans hlast =>
    exact told.enclosingMethod span
      (last_of_class told (fun _ _ _ ht => ht.enclosingMethod) hspans hlast)
  | nestMembers hspans hlast =>
    exact told.nestMembers span (last_of_class told (fun _ _ _ ht => ht.nestMembers) hspans hlast)
  | innerClasses hspans hlast =>
    exact told.innerClasses span
      (last_of_class told (fun _ _ _ ht => ht.innerClasses) hspans hlast)
  | ofClass hspans hcommon =>
    obtain rfl := Except.ok.inj (told.spans_eq.symm.trans hspans)
    exact read_of_common (fun _ _ _ ht => (addClassAttribute_ok ht).common) told.attributes_eq
      (fun _ => told.annotations) hcommon
  | constantValue hfields hm hspan hname =>
    obtain ⟨gathered, hgathered, -⟩ := field_of_told told hfields hm
    obtain ⟨t, t', ht⟩ := step_of_foldlM hgathered hspan
    exact (addFieldAttribute_ok ht).1 hname
  | ofField hfields hm hcommon =>
    obtain ⟨gathered, hgathered, hannotations⟩ := field_of_told told hfields hm
    exact read_of_common (fun _ _ _ ht => (addFieldAttribute_ok ht).2) hgathered hannotations
      hcommon
  | exceptions hmethods hm hspan hname =>
    obtain ⟨gathered, d, hgathered, -⟩ := method_of_told told hmethods hm
    obtain ⟨t, t', ht⟩ := step_of_foldlM hgathered hspan
    exact (addMethodAttribute_ok ht).exceptions hname
  | ofMethod hmethods hm hcommon =>
    obtain ⟨gathered, d, hgathered, -, htold⟩ := method_of_told told hmethods hm
    exact read_of_common (fun _ _ _ ht => (addMethodAttribute_ok ht).common) hgathered
      (fun hskip => (tellMethod_ok (htold hskip)).1) hcommon
  | code hmethods hm hmembers hskip hcode =>
    obtain ⟨gathered, d, hgathered, -, htold⟩ := method_of_told told hmethods hm
    obtain ⟨body, tables, hbody, -⟩ := body_of_told hgathered (htold hmembers) hskip hcode
    exact ⟨body, hbody⟩
  | inCode hmethods hm hmembers hskip hcode hbody hspan hinner =>
    obtain ⟨gathered, d, hgathered, hd, htold⟩ := method_of_told told hmethods hm
    obtain ⟨body, tables, hbody', htables⟩ := body_of_told hgathered (htold hmembers) hskip hcode
    obtain rfl := Except.ok.inj (hbody'.symm.trans hbody)
    obtain ⟨t, t', ht⟩ := step_of_foldlM htables hspan
    exact read_of_table hd ht hinner

end Reads

section Bounds

theorem InterpretsCommon.bounded {spans : List AttributeSpan} {annotated : Prop}
    (h : image.InterpretsCommon spans annotated span read) : Scan.Bounded read := by
  cases h with
  | signature => exact Scan.bounded_u16
  | visibleAnnotations | invisibleAnnotations => exact Scan.bounded_of_u16 confined_readAnnotations

theorem InterpretsInCode.bounded {m : StoredMember}
    (h : image.InterpretsInCode skip m span read) : Scan.Bounded read := by
  cases h with
  | lineNumbers => exact Scan.bounded_of_u16 confined_readLine.counted
  | localVariables => exact Scan.bounded_of_u16 confined_readVariable.counted
  | stackMap => exact Scan.bounded_of_u16 (confined_readStackMap _)

theorem Interprets.bounded (h : image.Interprets skip span read) : Scan.Bounded read := by
  cases h with
  | bootstrapMethods => exact Scan.bounded_of_u16 confined_readBootstrapMethod.counted
  | sourceFile | nestHost | constantValue => exact Scan.bounded_u16
  | enclosingMethod => exact Scan.bounded_of_u16 confined_readEnclosingMethod
  | nestMembers => exact Scan.bounded_of_u16 confined_readNestMember.counted
  | innerClasses => exact Scan.bounded_of_u16 confined_readInnerClass.counted
  | exceptions => exact Scan.bounded_of_u16 confined_readClasses
  | code => exact Scan.bounded_of_u16 confined_readStoredBody
  | ofClass _ hcommon | ofField _ _ hcommon | ofMethod _ _ hcommon => exact hcommon.bounded
  | inCode _ _ _ _ _ _ _ hinner => exact hinner.bounded

end Bounds

section Bodies

/-- When nothing puts an end to the events of a class file, every attribute that is interpreted has
been read. It has been read from its body only, so that any data with the same body there are read
in the same way, unless its body is shorter than its own counts require; such a body was read past
its end, and would have been an unexpected end had the data ended with it. -/
theorem body_read_unless_short (h : parse data = .ok image)
    (hevents : (image.events skip).fault = none) (hi : image.Interprets skip span read) :
    ∃ a next, read ⟨image.data, span.offset⟩ = .ok a ⟨image.data, next⟩ ∧
      ((next ≤ span.stop ∧ ∀ data' : Bytes, span.stop ≤ data'.size →
          (∀ i, span.offset ≤ i → i < span.stop → data'[i]? = image.data[i]?) →
          read ⟨data', span.offset⟩ = .ok a ⟨data', next⟩) ∨
        (span.stop < next ∧ ∃ offset needed c,
          read ⟨image.data.extract 0 span.stop, span.offset⟩ =
            .error (.unexpectedEnd offset needed) c ∧
          offset ≤ span.stop ∧ span.stop < offset + needed)) := by
  obtain ⟨a, hread⟩ := read_of_interprets h hevents hi
  obtain ⟨c, hread⟩ := Scan.runAt_ok.1 hread
  obtain ⟨next, rfl, hcases⟩ := hi.bounded.stays_or_short hread (Nat.le_add_right _ _)
  exact ⟨a, next, hread, hcases⟩

/-- A class file without fields and methods, with the given table of attributes; `SourceFile` is the
third entry of its pool. -/
def classWithAttributes (table : List UInt8) : Bytes :=
  (bytes32 magic ++ [0, 0, 0, 52, 0, 4, 1, 0, 1, 65, 7, 0, 1] ++
    [1, 0, 10, 83, 111, 117, 114, 99, 101, 70, 105, 108, 101] ++
    [0, 33, 0, 2, 0, 0, 0, 0, 0, 0, 0, 0] ++ table).toArray

/-- The class is told, and its source file is where the span says. -/
def tellsSourceFile (image : ClassImage) (table : List UInt8) (span : AttributeSpan) : Bool :=
  image.data == classWithAttributes table && (image.events {}).fault.isNone &&
    match image.classAttributes with
    | .ok spans => lastNamed "SourceFile" spans == some span
    | .error _ => false

theorem interprets_of_tellsSourceFile (table : List UInt8) (span : AttributeSpan)
    (h : (match parse (classWithAttributes table) with
      | .ok image => image.tellsSourceFile table span
      | .error _ => false) = true) :
    ∃ image, parse (classWithAttributes table) = .ok image ∧
      image.data = classWithAttributes table ∧ (image.events {}).fault = none ∧
      image.Interprets {} span Scan.u16 := by
  split at h
  · rename_i image himage
    simp only [tellsSourceFile, Bool.and_eq_true, Option.isNone_iff_eq_none, beq_iff_eq] at h
    obtain ⟨⟨hdata, hfault⟩, h⟩ := h
    split at h
    · rename_i spans hspans
      exact ⟨image, himage, hdata, hfault, .sourceFile rfl hspans (eq_of_beq h)⟩
    · cases h
  · cases h

/-- The attribute of a source file with the body that it should have. -/
def sourceFileTable : List UInt8 := [0, 1, 0, 3, 0, 0, 0, 2, 0, 1]

theorem body_read_unless_short_sourceFile : ∃ image a next,
    parse (classWithAttributes sourceFileTable) = .ok image ∧
      (image.events {}).fault = none ∧ image.Interprets {} ⟨"SourceFile", 50, 2⟩ Scan.u16 ∧
      Scan.u16 ⟨image.data, 50⟩ = .ok a ⟨image.data, next⟩ ∧
      ((next ≤ 52 ∧ ∀ data' : Bytes, 52 ≤ data'.size →
          (∀ i, 50 ≤ i → i < 52 → data'[i]? = image.data[i]?) →
          Scan.u16 ⟨data', 50⟩ = .ok a ⟨data', next⟩) ∨
        (52 < next ∧ ∃ offset needed c, Scan.u16 ⟨image.data.extract 0 52, 50⟩ =
            .error (.unexpectedEnd offset needed) c ∧ offset ≤ 52 ∧ 52 < offset + needed)) := by
  obtain ⟨image, himage, -, hfault, hi⟩ :=
    interprets_of_tellsSourceFile sourceFileTable ⟨"SourceFile", 50, 2⟩ (by decide +kernel)
  obtain ⟨a, next, hread, hcases⟩ := body_read_unless_short himage hfault hi
  exact ⟨image, a, next, himage, hfault, hi, hread, hcases⟩

/-- The attribute of a source file without a body, and another attribute without a body. -/
def emptySourceFileTable : List UInt8 := [0, 2, 0, 3, 0, 0, 0, 0, 0, 1, 0, 0, 0, 0]

/-- The name of the source file is read from the attribute behind it. -/
theorem emptySourceFile_read_past_end : ∃ image,
    parse (classWithAttributes emptySourceFileTable) = .ok image ∧
      (image.events {}).fault = none ∧ image.Interprets {} ⟨"SourceFile", 50, 0⟩ Scan.u16 ∧
      (AttributeSpan.mk "SourceFile" 50 0).stop = 50 ∧
      Scan.u16 ⟨image.data, 50⟩ = .ok 1 ⟨image.data, 52⟩ := by
  obtain ⟨image, himage, hdata, hfault, hi⟩ :=
    interprets_of_tellsSourceFile emptySourceFileTable ⟨"SourceFile", 50, 0⟩ (by decide +kernel)
  refine ⟨image, himage, hfault, hi, rfl, ?_⟩
  rw [hdata]
  rfl

end Bodies

end JvmClass.ClassImage
