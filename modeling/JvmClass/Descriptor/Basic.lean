import JvmClass.ClassName
import JvmClass.SlotVec
import JvmClass.Total

/-!
# Types of fields, variables and methods

The types that descriptors write down: base types, reference types, and the parameter and return
types of a method. An array type is stored as its innermost element and the number of dimensions
beyond the first, so that a class and a base type are the only elements there are.
-/

namespace JvmClass

/-- Primitive value types. -/
inductive BaseType where
  | byte | char | double | float | int | long | short | boolean
deriving DecidableEq, Hashable, Inhabited

namespace BaseType

def name : BaseType → String
  | byte => "Byte" | char => "Char" | double => "Double" | float => "Float"
  | int => "Int" | long => "Long" | short => "Short" | boolean => "Boolean"

/-- The character that stands for the type in descriptors. -/
def letter : BaseType → Char
  | byte => 'B' | char => 'C' | double => 'D' | float => 'F'
  | int => 'I' | long => 'J' | short => 'S' | boolean => 'Z'

/-- The operand of `newarray` for arrays of the type. -/
def arrayCode : BaseType → UInt8
  | boolean => 4 | char => 5 | float => 6 | double => 7
  | byte => 8 | short => 9 | int => 10 | long => 11

def ofLetter? (c : Char) : Option BaseType :=
  match c with
  | 'B' => some byte | 'C' => some char | 'D' => some double | 'F' => some float
  | 'I' => some int | 'J' => some long | 'S' => some short | 'Z' => some boolean
  | _ => none

def ofArrayCode? (code : UInt8) : Option BaseType :=
  if code = 4 then some boolean else if code = 5 then some char
  else if code = 6 then some float else if code = 7 then some double
  else if code = 8 then some byte else if code = 9 then some short
  else if code = 10 then some int else if code = 11 then some long
  else none

/-- `long` and `double` values take two slots. -/
def width : BaseType → Nat
  | long | double => 2
  | _ => 1

@[simp] theorem ofLetter?_letter (t : BaseType) : ofLetter? t.letter = some t := by
  cases t <;> rfl

@[simp] theorem ofArrayCode?_arrayCode (t : BaseType) : ofArrayCode? t.arrayCode = some t := by
  cases t <;> rfl

end BaseType

/-- Types of references. -/
inductive RefType where
  | object (cls : ClassName)
  /-- An array of class instances with `extra` dimensions beyond the first. -/
  | objectArray (extra : Nat) (element : ClassName)
  /-- An array of base values with `extra` dimensions beyond the first. -/
  | primitiveArray (extra : Nat) (element : BaseType)
deriving DecidableEq, Hashable, Inhabited

/-- Types of fields and variables. -/
inductive FieldType where
  | base (type : BaseType)
  | ref (type : RefType)
deriving DecidableEq, Hashable, Inhabited

/-- Parameter and return types of a method; no return type for `void`. -/
structure MethodDescriptor where
  parameters : List FieldType
  returnType : Option FieldType
deriving DecidableEq, Inhabited

namespace RefType

/-- The array type over elements of a type. -/
def arrayOf : FieldType → RefType
  | .base type => .primitiveArray 0 type
  | .ref (.object cls) => .objectArray 0 cls
  | .ref (.objectArray extra element) => .objectArray (extra + 1) element
  | .ref (.primitiveArray extra element) => .primitiveArray (extra + 1) element

/-- The type of the elements of an array type. -/
def element? : RefType → Option FieldType
  | .object _ => none
  | .objectArray 0 element => some (.ref (.object element))
  | .objectArray (extra + 1) element => some (.ref (.objectArray extra element))
  | .primitiveArray 0 element => some (.base element)
  | .primitiveArray (extra + 1) element => some (.ref (.primitiveArray extra element))

@[simp] theorem element?_arrayOf (t : FieldType) : (arrayOf t).element? = some t := by
  cases t with
  | base type => rfl
  | ref type => cases type <;> rfl

/-- The type as messages show it. -/
def describe : RefType → String
  | .object cls => s!"Object({cls.text})"
  | .objectArray extra element =>
    s!"ObjectArray(ArrayType \x7b additional_dimensions: {extra}, " ++
      s!"element_type: {element.text} \x7d)"
  | .primitiveArray extra element =>
    s!"PrimitiveArray(ArrayType \x7b additional_dimensions: {extra}, " ++
      s!"element_type: {element.name} \x7d)"

end RefType

namespace FieldType

def width : FieldType → Nat
  | base type => type.width
  | ref _ => 1

def object (cls : ClassName) : FieldType := .ref (.object cls)

end FieldType

namespace MethodDescriptor

/-- Slots taken by the arguments, counting the receiver if there is one. -/
def parameterSlots (d : MethodDescriptor) (receiver : Bool) : Nat :=
  total FieldType.width d.parameters + if receiver then 1 else 0

/-- Slots taken by the value returned. -/
def returnSlots (d : MethodDescriptor) : Nat :=
  match d.returnType with
  | none => 0
  | some type => type.width

end MethodDescriptor

end JvmClass
