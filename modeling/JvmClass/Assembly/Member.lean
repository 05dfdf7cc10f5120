import JvmClass.Attribute
import JvmClass.Descriptor.Parse
import JvmClass.Event

/-!
# Finished fields and methods

A finished field or method has its flags, the indices of its name and descriptor, and its
attributes. All attributes that a writer gives to members come about in the same way, and
uninterpreted ones are only accepted where the constants that they refer to keep their indices.
-/

namespace JvmClass

/-- A field or method as it is stored. -/
structure Member where
  flags : UInt16
  name : PoolIndex
  descriptor : PoolIndex
  attributes : List Attribute
deriving Inhabited

namespace Member

/-- The number of bytes of a member. -/
def byteSize (m : Member) : Nat := 6 + Attribute.listSize m.attributes

/-- Appends a member. -/
def put (m : Member) : Put Unit := do
  Put.u16 m.flags
  Put.u16 m.name
  Put.u16 m.descriptor
  Attribute.putList m.attributes

/-- The number of bytes of a counted list of members. -/
def listSize (members : List Member) : Nat := 2 + total byteSize members

end Member

/-- Uninterpreted attributes refer to constants by index, which only a copied pool keeps. -/
def RawAttribute.check (copiedPool : Bool) (a : RawAttribute) : Except ClassError Unit :=
  if copiedPool then .ok () else .error (.rawAttributeNeedsCopiedPool a.name)

/-- The attribute of a signature, if there is one. -/
def Attribute.makeSignature (index : Option PoolIndex) : ConstantPool.Request (List Attribute) :=
  Attribute.makeIf (index.map .signature)

/-- A text that may be missing. -/
def ConstantPool.utf8? : Option String → Request (Option PoolIndex)
  | none => pure none
  | some text => some <$> utf8 text

/-- A class that may be missing, which has index zero then. -/
def ConstantPool.clsOrZero : Option String → Request PoolIndex
  | none => pure 0
  | some name => cls name

/-- A text that may be missing, which has index zero then. -/
def ConstantPool.utf8OrZero : Option String → Request PoolIndex
  | none => pure 0
  | some text => utf8 text

/-- Classes in order. -/
def ConstantPool.classes (names : List String) : Request (List PoolIndex) := names.mapM cls

/-- A field under construction. -/
structure FieldBuilder where
  pool : ConstantPool
  copiedPool : Bool
  flags : AccessFlags .ofField
  name : PoolIndex
  descriptor : PoolIndex
  signature : Option PoolIndex
  value : Option PoolIndex
  annotations : Array Annotated
  attributes : Array RawAttribute
  /-- The fields that have been finished. -/
  finished : Array Member

namespace FieldBuilder

/-- A request to the pool. -/
def ask {α : Type} (request : ConstantPool.Request α) : Step FieldBuilder α :=
  Step.on FieldBuilder.pool (fun b pool => { b with pool }) request

/-- Asks the pool for the initial value of a field. -/
def initialValue (field : String) : Option Loadable → ConstantPool.Request (Option PoolIndex)
  | none => pure none
  | some value =>
    if value.isInitializer then some <$> ConstantPool.loadable value
    else throw (.malformedAttribute "ConstantValue" (.notInitializer value field))

/-- The constants of a declaration: its name, descriptor, signature and value. -/
def constants (d : FieldDeclaration) :
    ConstantPool.Request (PoolIndex × PoolIndex × Option PoolIndex × Option PoolIndex) := do
  let _ ← Step.of (parseDescriptor FieldType d.descriptor)
  let name ← ConstantPool.utf8 d.name
  let descriptor ← ConstantPool.utf8 d.descriptor
  let signature ← ConstantPool.utf8? d.signature
  let value ← initialValue d.name d.value
  return (name, descriptor, signature, value)

/-- Completes the field. -/
def finish : Step FieldBuilder Unit := do
  let b ← get
  let value ← ask (Attribute.makeIf (b.value.map .constantValue))
  let signature ← ask (Attribute.makeSignature b.signature)
  let annotations ← ask (Attribute.makeAnnotations b.annotations.toList)
  modify fun b => { b with attributes := #[] }
  let raw ← ask (Attribute.makeRaw b.attributes.toList)
  let attributes := value ++ signature ++ annotations ++ raw
  let _ ← Step.of (count16 "field attributes" attributes.length)
  modify fun b =>
    { b with finished := b.finished.push ⟨b.flags.bits, b.name, b.descriptor, attributes⟩ }

/-- Takes up an event of the field. -/
def feed : FieldEvent → Step FieldBuilder Unit
  | .annotated a visible =>
    modify fun b => { b with annotations := b.annotations.push (a, visible) }
  | .attribute a => do
    Step.of (a.check (← get).copiedPool)
    modify fun b => { b with attributes := b.attributes.push a }
  | .finish => finish

end FieldBuilder

end JvmClass
