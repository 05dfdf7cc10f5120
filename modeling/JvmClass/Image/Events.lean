import JvmClass.Annotation.Decode
import JvmClass.Image.Body

/-!
# The events of a class file

`ClassImage.events` tells what a class file holds as a sequence of events, in the order that
`JvmClass.Event` states. What was told before a fault in the file remains.
-/

namespace JvmClass

/-- The attributes that classes, fields and methods have in common. Of a repeated attribute the last
one counts. -/
structure MemberAttributes where
  signature : Option String := none
  visible : Option AttributeSpan := none
  invisible : Option AttributeSpan := none
  others : Array AttributeSpan := #[]

namespace ClassImage

/-- Reads an attribute whose body is the index of a text. -/
def readTextOf (image : ClassImage) (span : AttributeSpan) : Except ClassError String := do
  image.utf8 (← image.readBody span Scan.u16)

/-- Adds an attribute to those that a member has. -/
def addAttribute (image : ClassImage) (attributes : MemberAttributes) (span : AttributeSpan) :
    Except ClassError MemberAttributes := do
  if span.name == "Signature" then
    return { attributes with signature := some (← image.readTextOf span) }
  else if span.name == "RuntimeVisibleAnnotations" then
    return { attributes with visible := some span }
  else if span.name == "RuntimeInvisibleAnnotations" then
    return { attributes with invisible := some span }
  else return { attributes with others := attributes.others.push span }

/-- The annotations of one visibility. -/
def annotationsOf (image : ClassImage) : Option AttributeSpan → Except ClassError (List Annotation)
  | none => .ok []
  | some span => image.readBody span image.readAnnotations

/-- The annotations of a member, the visible ones first. -/
def annotations (image : ClassImage) (attributes : MemberAttributes) :
    Except ClassError (List Annotated) := do
  let visible ← image.annotationsOf attributes.visible
  let invisible ← image.annotationsOf attributes.invisible
  return visible.map (·, true) ++ invisible.map (·, false)

/-- Reads a list of classes. -/
def readClasses (image : ClassImage) : Scan (List String) :=
  Scan.counted do Step.of (image.cls (← Scan.u16))

/-- Tells the annotations of a member and the attributes that are not interpreted. -/
def tellAttributes {ε : Type} (image : ClassImage) (attributes : MemberAttributes)
    (annotated : Annotation → Bool → ε) (other : RawAttribute → ε) : Tell ε Unit := do
  let all ← Step.of (image.annotations attributes)
  Tell.all (all.map fun (a, visible) => annotated a visible)
  Tell.all (attributes.others.toList.map fun span => other (image.raw span))

/-- What the attributes of a field hold. -/
structure FieldAttributes where
  value : Option Loadable := none
  common : MemberAttributes := {}

/-- Adds an attribute to those of a field. -/
def addFieldAttribute (image : ClassImage) (attributes : FieldAttributes) (span : AttributeSpan) :
    Except ClassError FieldAttributes := do
  if span.name == "ConstantValue" then
    let value ← image.loadable (← image.readBody span Scan.u16)
    return { attributes with value := some value }
  else return { attributes with common := ← image.addAttribute attributes.common span }

/-- Reads a field up to its declaration. -/
def readField (image : ClassImage) : Scan (FieldDeclaration × MemberAttributes) := do
  let flags ← Scan.u16
  let name ← image.readUtf8
  let descriptor ← image.readUtf8
  let spans ← image.readAttributes
  let attributes ← Step.of (spans.foldlM image.addFieldAttribute {})
  return ({ flags := .decode flags, name, descriptor, signature := attributes.common.signature,
            value := attributes.value }, attributes.common)

/-- What the attributes of a method hold. -/
structure MethodAttributes where
  code : Option AttributeSpan := none
  exceptions : Array String := #[]
  common : MemberAttributes := {}

/-- Adds an attribute to those of a method; exceptions add up. -/
def addMethodAttribute (image : ClassImage) (attributes : MethodAttributes)
    (span : AttributeSpan) : Except ClassError MethodAttributes := do
  if span.name == "Code" then return { attributes with code := some span }
  else if span.name == "Exceptions" then
    let classes ← image.readBody span image.readClasses
    return { attributes with exceptions := attributes.exceptions ++ classes }
  else return { attributes with common := ← image.addAttribute attributes.common span }

/-- Reads a method up to its declaration. -/
def readMethod (image : ClassImage) : Scan (MethodDeclaration × MethodAttributes) := do
  let flags ← Scan.u16
  let name ← image.readUtf8
  let descriptor ← image.readUtf8
  let spans ← image.readAttributes
  let attributes ← Step.of (spans.foldlM image.addMethodAttribute {})
  return ({ flags := .decode flags, name, descriptor, signature := attributes.common.signature,
            exceptions := attributes.exceptions.toList }, attributes)

/-- Tells what a method holds beyond its declaration. -/
def tellMethod (image : ClassImage) (skip : Skip) (d : MethodDeclaration)
    (attributes : MethodAttributes) : Tell MethodEvent Unit := do
  image.tellAttributes attributes.common .annotated .attribute
  match attributes.code with
  | none => pure ()
  | some span =>
    if !skip.code then
      image.tellBody (← Step.of (image.readNamedBody skip d span))
  Tell.event .finish

/-- Tells what a field holds beyond its declaration. -/
def tellField (image : ClassImage) (attributes : MemberAttributes) : Tell FieldEvent Unit := do
  image.tellAttributes attributes .annotated .attribute
  Tell.event .finish

/-- Tells a member with its own events; a fault among those ends the class as well. -/
def tellMember {ε : Type} (event : List ε → ClassEvent) (tell : Tell ε Unit) :
    Tell ClassEvent Unit := do
  let trace := tell.trace
  Tell.event (event trace.events)
  match trace.fault with
  | none => pure ()
  | some fault => throw fault

/-- A read of the class file in between events, whose position goes on from read to read. -/
def tellTable {α : Type} (image : ClassImage) (read : Scan α) (tell : α → Tell ClassEvent Unit) :
    Nat → Cursor → Tell ClassEvent Unit
  | 0, _ => pure ()
  | n + 1, c =>
    match read c with
    | .error e _ => throw e
    | .ok a c => do
      tell a
      image.tellTable read tell n c

/-- Tells the fields or methods of a table. -/
def tellMembers {α : Type} (image : ClassImage) (start : Nat) (read : Scan α)
    (tell : α → Tell ClassEvent Unit) : Tell ClassEvent Unit := do
  match Scan.u16 ⟨image.data, start⟩ with
  | .error e _ => throw e
  | .ok n c => image.tellTable read tell n.toNat c

/-- The attributes of a class. Of a repeated attribute the last one counts. -/
structure ClassAttributes where
  sourceFile : Option AttributeSpan := none
  nestHost : Option AttributeSpan := none
  enclosingMethod : Option AttributeSpan := none
  nestMembers : Option AttributeSpan := none
  innerClasses : Option AttributeSpan := none
  common : MemberAttributes := {}

/-- Adds an attribute to those of a class; bootstrap methods have been read with the pool. -/
def addClassAttribute (image : ClassImage) (attributes : ClassAttributes) (span : AttributeSpan) :
    Except ClassError ClassAttributes := do
  if span.name == "SourceFile" then return { attributes with sourceFile := some span }
  else if span.name == "NestHost" then return { attributes with nestHost := some span }
  else if span.name == "EnclosingMethod" then
    return { attributes with enclosingMethod := some span }
  else if span.name == "NestMembers" then return { attributes with nestMembers := some span }
  else if span.name == "InnerClasses" then return { attributes with innerClasses := some span }
  else if span.name == "BootstrapMethods" then return attributes
  else return { attributes with common := ← image.addAttribute attributes.common span }

/-- Reads the class around a local class, and the method if there is one. -/
def readEnclosingMethod (image : ClassImage) : Scan ClassEvent := do
  let owner ← Step.of (image.cls (← Scan.u16))
  let index ← Scan.u16
  if index = 0 then return .enclosingMethod owner none none
  else
    let (name, descriptor) ← Step.of (image.nameAndType index)
    return .enclosingMethod owner (some name) (some descriptor)

/-- Reads an entry of the table of nest members. -/
def readNestMember (image : ClassImage) : Scan ClassEvent := do
  return .nestMember (← Step.of (image.cls (← Scan.u16)))

/-- Reads an entry of the table of inner classes. -/
def readInnerClass (image : ClassImage) : Scan ClassEvent := do
  let name ← Step.of (image.cls (← Scan.u16))
  let outer ← Step.of (image.cls? (← Scan.u16))
  let inner ← Step.of (image.utf8? (← Scan.u16))
  return .innerClass name outer inner (.decode (← Scan.u16))

/-- Tells what an attribute holds, if it is there. -/
def tellIf (span : Option AttributeSpan) (tell : AttributeSpan → Tell ClassEvent Unit) :
    Tell ClassEvent Unit :=
  match span with
  | none => pure ()
  | some span => tell span

/-- Tells the events of a class file. -/
def tellClass (image : ClassImage) (skip : Skip) : Tell ClassEvent Unit := do
  let interfaces ← Step.of image.interfaces
  let spans ← Step.of (Scan.runAt image.data image.attributesStart image.readAttributes)
  let attributes ← Step.of (spans.foldlM image.addClassAttribute {})
  let flags ← Step.of image.accessFlags
  let name ← Step.of image.className
  let superName ← Step.of image.superName
  Tell.event (.header { version := image.version, flags, name,
                        signature := attributes.common.signature, superName, interfaces })
  if !skip.debug then
    tellIf attributes.sourceFile fun span => do
      Tell.event (.sourceFile (← Step.of (image.readTextOf span)))
  tellIf attributes.nestHost fun span => do
    let index ← Step.of (image.readBody span Scan.u16)
    Tell.event (.nestHost (← Step.of (image.cls index)))
  tellIf attributes.enclosingMethod fun span => do
    Tell.event (← Step.of (image.readBody span image.readEnclosingMethod))
  image.tellAttributes attributes.common .annotated .attribute
  tellIf attributes.nestMembers fun span =>
    image.tellMembers span.offset image.readNestMember Tell.event
  tellIf attributes.innerClasses fun span =>
    image.tellMembers span.offset image.readInnerClass Tell.event
  image.tellMembers image.fieldsStart image.readField fun (declaration, attributes) =>
    tellMember (.field declaration)
      (if skip.members then pure () else image.tellField attributes)
  image.tellMembers image.methodsStart image.readMethod fun (declaration, attributes) =>
    tellMember (.method declaration)
      (if skip.members then pure () else image.tellMethod skip declaration attributes)
  Tell.event .finish

/-- The events of a class file. -/
def events (image : ClassImage) (skip : Skip) : Trace ClassEvent := (image.tellClass skip).trace

end ClassImage

end JvmClass
