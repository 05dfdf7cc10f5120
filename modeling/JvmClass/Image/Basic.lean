import JvmClass.AccessFlags
import JvmClass.Attribute
import JvmClass.Constant.Decode
import JvmClass.Descriptor.Parse
import JvmClass.Typing.Hierarchy
import JvmClass.Version

/-!
# Class files

A `ClassImage` is a class file whose header has been checked and whose constant pool has been read.
The places of its other parts are known, and they are read when they are asked for.
-/

namespace JvmClass

/-- A class file with its constant pool and the places of its parts. -/
structure ClassImage where
  data : Bytes
  version : Version
  /-- Entries of the pool by index. -/
  constants : SlotVec Constant
  bootstraps : Array BootstrapMethod
  /-- Where the access flags stand, right after the pool. -/
  headerStart : Nat
  fieldsStart : Nat
  methodsStart : Nat
  attributesStart : Nat
deriving Inhabited

/-- An attribute in a class file: its name, and where its body is. -/
structure AttributeSpan where
  name : String
  offset : Nat
  size : Nat
deriving DecidableEq, Inhabited

namespace ClassImage

/-- A reference to a field or method. -/
structure Member where
  owner : String
  name : String
  descriptor : String
  ownerIsInterface : Bool
deriving DecidableEq, Inhabited

/-- The entry at an index. -/
def constant (image : ClassImage) (index : PoolIndex) : Except ClassError Constant :=
  match image.constants.get? index.toNat with
  | some constant => .ok constant
  | none => .error (.invalidConstantIndex index)

def utf8 (image : ClassImage) (index : PoolIndex) : Except ClassError String := do
  match ← image.constant index with
  | .utf8 text => return text
  | _ => throw (.unexpectedConstant index .utf8)

/-- The name of a class entry. -/
def cls (image : ClassImage) (index : PoolIndex) : Except ClassError String := do
  match ← image.constant index with
  | .cls name => image.utf8 name
  | _ => throw (.unexpectedConstant index .cls)

/-- The name of a class entry, where index zero stands for none. -/
def cls? (image : ClassImage) (index : PoolIndex) : Except ClassError (Option String) :=
  if index = 0 then .ok none else some <$> image.cls index

/-- A text, where index zero stands for none. -/
def utf8? (image : ClassImage) (index : PoolIndex) : Except ClassError (Option String) :=
  if index = 0 then .ok none else some <$> image.utf8 index

/-- The name and descriptor of an entry. -/
def nameAndType (image : ClassImage) (index : PoolIndex) : Except ClassError (String × String) := do
  match ← image.constant index with
  | .nameAndType name descriptor =>
    let name ← image.utf8 name
    return (name, ← image.utf8 descriptor)
  | _ => throw (.unexpectedConstant index .nameAndType)

/-- The field or method that an entry refers to. -/
def member (image : ClassImage) (index : PoolIndex) : Except ClassError Member := do
  let resolve (owner member : PoolIndex) (ownerIsInterface : Bool) : Except ClassError Member := do
    let owner ← image.cls owner
    let (name, descriptor) ← image.nameAndType member
    return { owner, name, descriptor, ownerIsInterface }
  match ← image.constant index with
  | .fieldRef owner member => resolve owner member false
  | .methodRef owner member ownerIsInterface => resolve owner member ownerIsInterface
  | _ => throw (.unexpectedConstant index .member)

/-- The method handle of an entry. -/
def handle (image : ClassImage) (index : PoolIndex) : Except ClassError Handle := do
  match ← image.constant index with
  | .methodHandle kind member =>
    let m ← image.member member
    return { kind, owner := m.owner, name := m.name, descriptor := m.descriptor,
             ownerIsInterface := m.ownerIsInterface }
  | _ => throw (.unexpectedConstant index .methodHandle)

/-- The bootstrap method at a position. -/
def bootstrapEntry (image : ClassImage) (position : UInt16) : Except ClassError BootstrapMethod :=
  match image.bootstraps[position.toNat]? with
  | some method => .ok method
  | none => .error (.malformedAttribute "BootstrapMethods" (.noBootstrapMethod position.toNat))

/-- The value that an entry stands for. A value that a bootstrap method computes has arguments,
which are values in turn; `depth` bounds how deep they nest. -/
def loadableWithin (image : ClassImage) : (depth : Nat) → PoolIndex → Except ClassError Loadable
  | 0, index => throw (.malformedAttribute "BootstrapMethods" (.cyclicConstant index))
  | depth + 1, index => do
    match ← image.constant index with
    | .int value => return .int value
    | .float bits => return .float bits
    | .long value => return .long value
    | .double bits => return .double bits
    | .string text => return .string (← image.utf8 text)
    | .cls name => return .cls (← image.utf8 name)
    | .methodType descriptor => return .methodType (← image.utf8 descriptor)
    | .methodHandle _ _ => return .methodHandle (← image.handle index)
    | .dynamic position member =>
      let (name, descriptor) ← image.nameAndType member
      let method ← image.bootstrapEntry position
      let handle ← image.handle method.method
      let arguments ← method.arguments.mapM (image.loadableWithin depth)
      return .dynamic name descriptor handle arguments
    | _ => throw (.unexpectedConstant index .loadable)

/-- How deep values may nest: no value is an argument of itself, so no chain of them is longer than
the pool. -/
def nestingBound (image : ClassImage) : Nat := image.constants.size + 1

/-- The value that an entry stands for. -/
def loadable (image : ClassImage) (index : PoolIndex) : Except ClassError Loadable :=
  image.loadableWithin image.nestingBound index

/-- The bootstrap method at a position: its handle and its arguments. -/
def bootstrap (image : ClassImage) (position : UInt16) :
    Except ClassError (Handle × List Loadable) := do
  let method ← image.bootstrapEntry position
  let handle ← image.handle method.method
  let arguments ← method.arguments.mapM image.loadable
  return (handle, arguments)

/-- Reads where an attribute is and moves past it. -/
def readAttribute (image : ClassImage) : Scan AttributeSpan := do
  let name ← Step.of (image.utf8 (← Scan.u16))
  let size ← Scan.u32
  let offset := (← get).offset
  Scan.skip size.toNat
  return ⟨name, offset, size.toNat⟩

/-- Reads the count of attributes and where they are. -/
def readAttributes (image : ClassImage) : Scan (List AttributeSpan) :=
  Scan.counted image.readAttribute

/-- Reads the body of an attribute. -/
def readBody {α : Type} (image : ClassImage) (span : AttributeSpan) (read : Scan α) :
    Except ClassError α := Scan.runAt image.data span.offset read

/-- The attribute as its bytes. -/
def raw (image : ClassImage) (span : AttributeSpan) : RawAttribute :=
  ⟨span.name, image.data.extract span.offset (span.offset + span.size)⟩

/-- Reads an entry of the table of bootstrap methods. -/
def readBootstrapMethod : Scan BootstrapMethod := do
  let method ← Scan.u16
  return ⟨method, ← Scan.counted Scan.u16⟩

/-- Moves past a field or method. -/
def skipMember : Scan Unit := do
  Scan.skip 6
  Scan.skipAttributes

/-- Moves past the count of fields or methods and all of them. -/
def skipMembers : Scan Unit := do
  let n ← Scan.u16
  Scan.repeated n.toNat skipMember

/-- Reads a class file up to its attributes, without its bootstrap methods. -/
def readParts : Scan ClassImage := do
  let data := (← get).data
  let found ← Scan.u32
  if found ≠ magic then throw (.invalidMagic found)
  let minor ← Scan.u16
  let major ← Scan.u16
  let version : Version := { major, minor }
  if !version.isSupported then throw (.unsupportedVersion major minor)
  let constants ← Constant.readPool
  let headerStart := (← get).offset
  Scan.skip 6
  let interfaces ← Scan.u16
  Scan.skip (2 * interfaces.toNat)
  let fieldsStart := (← get).offset
  skipMembers
  let methodsStart := (← get).offset
  skipMembers
  let attributesStart := (← get).offset
  return { data, version, constants, bootstraps := #[], headerStart, fieldsStart, methodsStart,
           attributesStart }

/-- Reads a class file: its header, its pool, and its bootstrap methods. -/
def parse (data : Bytes) : Except ClassError ClassImage := do
  let image ← Scan.runAt data 0 readParts
  let attributes ← Scan.runAt data image.attributesStart image.readAttributes
  match attributes.find? (·.name == "BootstrapMethods") with
  | none => return image
  | some span =>
    let bootstraps ← image.readBody span (Scan.counted readBootstrapMethod)
    return { image with bootstraps := bootstraps.toArray }

def accessFlags (image : ClassImage) : Except ClassError (AccessFlags .ofClass) := do
  return .decode (← Scan.runAt image.data image.headerStart Scan.u16)

def className (image : ClassImage) : Except ClassError String := do
  image.cls (← Scan.runAt image.data (image.headerStart + 2) Scan.u16)

/-- The name of the superclass, which only the root class lacks. -/
def superName (image : ClassImage) : Except ClassError (Option String) := do
  image.cls? (← Scan.runAt image.data (image.headerStart + 4) Scan.u16)

def interfaces (image : ClassImage) : Except ClassError (List String) :=
  Scan.runAt image.data (image.headerStart + 6) (Scan.counted do
    Step.of (image.cls (← Scan.u16)))

/-- The stored entries of the pool. -/
def rawPool (image : ClassImage) : Bytes := image.data.extract 10 image.headerStart

/-- The entries of the pool with their indices. -/
def entries (image : ClassImage) : List (PoolIndex × Constant) :=
  image.constants.entries.toList.map fun (index, constant) => (UInt16.ofNat index, constant)

/-- A pool that starts as a copy of the pool of a class. -/
def copyPool (image : ClassImage) : Except ClassError ConstantPool :=
  ConstantPool.copy image.rawPool image.entries image.bootstraps.toList

end ClassImage

/-- Records the superclass that the header of a class file names. -/
def Superclasses.addClassFile (s : Superclasses) (data : Bytes) :
    Except ClassError Superclasses := do
  let image ← ClassImage.parse data
  match ← image.superName with
  | none => return s
  | some superclass =>
    let cls ← ClassName.parse (← image.className)
    return s.add cls (← ClassName.parse superclass)

end JvmClass
