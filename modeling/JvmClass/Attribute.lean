import JvmClass.AccessFlags
import JvmClass.Annotation.Encode
import JvmClass.StackMap.Entry

/-!
# Attributes

Classes, fields, methods and method bodies carry attributes. Each kind that the library writes is a
constructor of `AttributeBody`; any other is carried along as its bytes. The size of every body is
known before it is written, as `AttributeBody.byteSize`.
-/

namespace JvmClass

/-- The line of the source from which the code from an offset on comes. -/
structure LineNumber where
  start : UInt16
  line : UInt16
deriving DecidableEq, Inhabited

/-- The code range in which a local variable of the source lives. -/
structure LocalVariable where
  start : UInt16
  length : UInt16
  name : PoolIndex
  descriptor : PoolIndex
  slot : UInt16
deriving DecidableEq, Inhabited

/-- A class that is a member of another or local to a method. -/
structure InnerClass where
  inner : PoolIndex
  /-- Zero for a class that is not a member. -/
  outer : PoolIndex
  /-- Zero for an anonymous class. -/
  name : PoolIndex
  flags : AccessFlags .ofInnerClass
deriving Inhabited

/-- The content of an attribute, whose references to the pool are indices. -/
inductive AttributeBody where
  | signature (text : PoolIndex)
  | sourceFile (text : PoolIndex)
  | nestHost (cls : PoolIndex)
  | constantValue (value : PoolIndex)
  | nestMembers (classes : List PoolIndex)
  /-- The class around a local class, and the method around it if there is one. -/
  | enclosingMethod (cls : PoolIndex) (method : Option PoolIndex)
  | exceptions (classes : List PoolIndex)
  | lineNumberTable (lines : List LineNumber)
  | localVariableTable (vars : List LocalVariable)
  | innerClasses (classes : List InnerClass)
  | bootstrapMethods (methods : List BootstrapMethod)
  | stackMapTable (entries : List (StackMapEntry PooledType))
  /-- Annotations that have been stored against the pool. -/
  | annotations (visible : Bool) (count : UInt16) (encoded : Bytes)
  /-- The body of a method, with its exception table as stored. -/
  | code (maxStack maxLocals : UInt16) (instructions exceptionTable : Bytes)
      (attributes : List (PoolIndex × AttributeBody))
  /-- Bytes that are not interpreted. -/
  | raw (name : String) (data : Bytes)
deriving Inhabited

/-- An attribute: the index of its name and its content. -/
abbrev Attribute := PoolIndex × AttributeBody

/-- An attribute that is not interpreted. -/
structure RawAttribute where
  name : String
  data : Bytes
deriving DecidableEq, Inhabited

namespace BootstrapMethod

def byteSize (m : BootstrapMethod) : Nat := 4 + 2 * m.arguments.length

def put (m : BootstrapMethod) : Put Unit := do
  Put.u16 m.method
  Put.counted Put.u16 m.arguments

end BootstrapMethod

def LineNumber.put (l : LineNumber) : Put Unit := do
  Put.u16 l.start
  Put.u16 l.line

def LocalVariable.put (v : LocalVariable) : Put Unit := do
  Put.u16 v.start
  Put.u16 v.length
  Put.u16 v.name
  Put.u16 v.descriptor
  Put.u16 v.slot

def InnerClass.put (c : InnerClass) : Put Unit := do
  Put.u16 c.inner
  Put.u16 c.outer
  Put.u16 c.name
  Put.u16 c.flags.bits

namespace AttributeBody

/-- The name under which an attribute is stored. -/
def name : AttributeBody → String
  | signature _ => "Signature"
  | sourceFile _ => "SourceFile"
  | nestHost _ => "NestHost"
  | constantValue _ => "ConstantValue"
  | nestMembers _ => "NestMembers"
  | enclosingMethod _ _ => "EnclosingMethod"
  | exceptions _ => "Exceptions"
  | lineNumberTable _ => "LineNumberTable"
  | localVariableTable _ => "LocalVariableTable"
  | innerClasses _ => "InnerClasses"
  | bootstrapMethods _ => "BootstrapMethods"
  | stackMapTable _ => "StackMapTable"
  | annotations true _ _ => "RuntimeVisibleAnnotations"
  | annotations false _ _ => "RuntimeInvisibleAnnotations"
  | code _ _ _ _ _ => "Code"
  | raw name _ => name

mutual

/-- The number of bytes of a body. -/
def byteSize : AttributeBody → Nat
  | signature _ | sourceFile _ | nestHost _ | constantValue _ => 2
  | enclosingMethod _ _ => 4
  | nestMembers classes | exceptions classes => 2 + 2 * classes.length
  | lineNumberTable lines => 2 + 4 * lines.length
  | localVariableTable vars => 2 + 10 * vars.length
  | innerClasses classes => 2 + 8 * classes.length
  | bootstrapMethods methods => 2 + total BootstrapMethod.byteSize methods
  | stackMapTable entries => 2 + total StackMapEntry.byteSize entries
  | annotations _ _ encoded => 2 + encoded.size
  | code _ _ instructions exceptionTable attributes =>
    8 + instructions.size + exceptionTable.size + (2 + totalSize attributes)
  | raw _ data => data.size

/-- The number of bytes of attributes: the index of the name, the length, and the body of each. -/
def totalSize : List (PoolIndex × AttributeBody) → Nat
  | [] => 0
  | (_, body) :: rest => 6 + body.byteSize + totalSize rest

end

mutual

/-- Appends a body. -/
def put : AttributeBody → Put Unit
  | signature index | sourceFile index | nestHost index | constantValue index => Put.u16 index
  | enclosingMethod cls method => do
    Put.u16 cls
    Put.u16 (method.getD 0)
  | nestMembers classes | exceptions classes => Put.counted Put.u16 classes
  | lineNumberTable lines => Put.counted LineNumber.put lines
  | localVariableTable vars => Put.counted LocalVariable.put vars
  | innerClasses classes => Put.counted InnerClass.put classes
  | bootstrapMethods methods => Put.counted BootstrapMethod.put methods
  | stackMapTable entries => Put.counted StackMapEntry.put entries
  | annotations _ count encoded => do
    Put.u16 count
    Put.bytes encoded
  | code maxStack maxLocals instructions exceptionTable attributes => do
    Put.u16 maxStack
    Put.u16 maxLocals
    Put.u32 (UInt32.ofNat instructions.size)
    Put.bytes instructions
    Put.bytes exceptionTable
    if attributes.length < 65536 then
      Put.u16 (UInt16.ofNat attributes.length)
      putAll attributes
    else throw (.sequenceTooLong attributes.length)
  | raw _ data => Put.bytes data

/-- Appends attributes in order: the index of the name, the length of the body, and the body. -/
def putAll : List (PoolIndex × AttributeBody) → Put Unit
  | [] => pure ()
  | (nameIndex, body) :: rest => do
    Put.u16 nameIndex
    if body.byteSize < 4294967296 then
      Put.u32 (UInt32.ofNat body.byteSize)
      body.put
      putAll rest
    else throw .attributeTooLong

end

end AttributeBody

namespace Attribute

/-- Gives a body its name in the pool. -/
def make (body : AttributeBody) : ConstantPool.Request Attribute := do
  return (← ConstantPool.utf8 body.name, body)

/-- The number of bytes of an attribute. -/
def byteSize (a : Attribute) : Nat := AttributeBody.totalSize [a]

/-- Appends an attribute and checks that it has the size that it declares. -/
def put (a : Attribute) : Step Bytes Unit :=
  putSized "attribute" a.byteSize (AttributeBody.putAll [a])

/-- The number of bytes of a counted list of attributes. -/
def listSize (attributes : List Attribute) : Nat := 2 + AttributeBody.totalSize attributes

/-- Appends a counted list of attributes. -/
def putList (attributes : List Attribute) : Put Unit := do
  if attributes.length < 65536 then
    Put.u16 (UInt16.ofNat attributes.length)
    AttributeBody.putAll attributes
  else throw (.sequenceTooLong attributes.length)

/-- Stores annotations against the pool, as the attribute of those with the given visibility if
there are any. Their number must fit in sixteen bits; the first one that is too many is the last to
be stored. -/
def annotations (all : List Annotated) (visible : Bool) :
    ConstantPool.Request (Option AttributeBody) := do
  let chosen := (all.filter fun (_, v) => v == visible).map Prod.fst
  let kept := chosen.take 65536
  let encoded ← fun pool =>
    match storeAnnotations kept ⟨pool, #[]⟩ with
    | .ok _ s => .ok s.out s.pool
    | .error e s => .error e s.pool
  if kept.length = 0 then return none
  let count ← Step.of (count16 "annotations" kept.length)
  return some (.annotations visible count encoded)

/-- Gives attributes that are not interpreted their names in the pool. -/
def makeRaw (attributes : List RawAttribute) : ConstantPool.Request (List Attribute) :=
  attributes.mapM fun a => make (.raw a.name a.data)

/-- The attribute of a body, if there is one. -/
def makeIf : Option AttributeBody → ConstantPool.Request (List Attribute)
  | none => pure []
  | some body => do return [← make body]

/-- The attributes that hold annotations, the visible ones first. -/
def makeAnnotations (all : List Annotated) : ConstantPool.Request (List Attribute) := do
  let visible ← makeIf (← annotations all true)
  let invisible ← makeIf (← annotations all false)
  return visible ++ invisible

end Attribute

end JvmClass
