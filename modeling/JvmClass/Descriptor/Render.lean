import JvmClass.Descriptor.Basic

/-!
# Writing descriptors

The characters of a descriptor: one letter for a base type, `L…;` around the name of a class, one
`[` per dimension in front of an element, and a method's parameters in parentheses before its return
type.
-/

namespace JvmClass

/-- Characters of a type descriptor. -/
class Render (α : Type) where
  chars : α → List Char

/-- The descriptor of a type. -/
def render {α : Type} [Render α] (type : α) : String := String.ofList (Render.chars type)

/-- `L`, the name, and a semicolon. -/
def ClassName.chars (cls : ClassName) : List Char := 'L' :: (cls.text.toList ++ [';'])

/-- One bracket for each dimension. -/
def RefType.chars : RefType → List Char
  | .object cls => cls.chars
  | .objectArray extra element => List.replicate (extra + 1) '[' ++ element.chars
  | .primitiveArray extra element => List.replicate (extra + 1) '[' ++ [element.letter]

def FieldType.chars : FieldType → List Char
  | .base type => [type.letter]
  | .ref type => type.chars

/-- A method that returns nothing ends in `V`. -/
def MethodDescriptor.chars (d : MethodDescriptor) : List Char :=
  '(' :: (d.parameters.flatMap FieldType.chars ++
    ')' :: match d.returnType with
      | none => ['V']
      | some type => type.chars)

instance : Render BaseType := ⟨fun type => [type.letter]⟩
instance : Render ClassName := ⟨ClassName.chars⟩
instance : Render RefType := ⟨RefType.chars⟩
instance : Render FieldType := ⟨FieldType.chars⟩
instance : Render MethodDescriptor := ⟨MethodDescriptor.chars⟩

/-- The name that the constant pool stores for a type: a class by its internal name, an array by its
descriptor. -/
def RefType.internalName : RefType → String
  | .object cls => cls.text
  | type => render type

end JvmClass
