import JvmClass.Descriptor.Render
import JvmClass.Error

/-!
# Reading descriptors

Parsers of descriptors walk the characters from left to right and report a fault at the byte offset
where it shows. A descriptor is read as a whole: what follows it is a fault.
-/

namespace JvmClass

/-- What is left of a descriptor, and the byte offset at which it starts. -/
structure DescriptorCursor where
  rest : List Char
  offset : Nat

namespace DescriptorCursor

/-- The fault that something else is expected here. -/
def unexpected (c : DescriptorCursor) (expected : Expectation) : DescriptorFault :=
  .unexpected expected c.offset c.rest.head?

/-- The name up to a semicolon, with its characters so far in reverse, and what follows. -/
def takeName (name : List Char) (offset : Nat) : List Char → Option (List Char × DescriptorCursor)
  | [] => none
  | ';' :: rest => some (name.reverse, ⟨rest, offset + 1⟩)
  | c :: rest => takeName (c :: name) (offset + c.utf8Size) rest

/-- The number of brackets at the front, and what follows them. -/
def takeBrackets (count offset : Nat) : List Char → Nat × DescriptorCursor
  | '[' :: rest => takeBrackets (count + 1) (offset + 1) rest
  | rest => (count, ⟨rest, offset⟩)

end DescriptorCursor

/-- Reading a type from the front of a descriptor. -/
class ParseDescriptor (α : Type) where
  take : DescriptorCursor → Except DescriptorFault (α × DescriptorCursor)

/-- A base type is one letter. -/
def BaseType.take (c : DescriptorCursor) : Except DescriptorFault (BaseType × DescriptorCursor) :=
  match c.rest with
  | [] => .error (c.unexpected .baseType)
  | letter :: rest =>
    match ofLetter? letter with
    | some type => .ok (type, ⟨rest, c.offset + 1⟩)
    | none => .error (c.unexpected .baseType)

/-- A class is its name between `L` and a semicolon. -/
def ClassName.take (c : DescriptorCursor) : Except DescriptorFault (ClassName × DescriptorCursor) :=
  match c.rest with
  | 'L' :: rest =>
    match DescriptorCursor.takeName [] (c.offset + 1) rest with
    | none => .error (.unterminated (c.offset + 1))
    | some (name, after) =>
      let text := String.ofList name
      match faultOf? name with
      | some fault => .error (.badName text fault)
      | none => .ok (⟨text⟩, after)
  | _ => .error (c.unexpected .classDescriptor)

/-- The most dimensions that an array type may have. -/
def maxDimensions : Nat := 255

/-- A reference type is a class, or brackets before a class or base type. -/
def RefType.take (c : DescriptorCursor) : Except DescriptorFault (RefType × DescriptorCursor) :=
  let (dimensions, after) := DescriptorCursor.takeBrackets 0 c.offset c.rest
  if maxDimensions < dimensions then .error (.tooManyDimensions dimensions)
  else if after.rest.head? = some 'L' then
    match ClassName.take after with
    | .error fault => .error fault
    | .ok (cls, after) =>
      match dimensions with
      | 0 => .ok (.object cls, after)
      | extra + 1 => .ok (.objectArray extra cls, after)
  else
    match dimensions with
    | 0 => .error (after.unexpected .referenceType)
    | extra + 1 =>
      match BaseType.take after with
      | .error fault => .error fault
      | .ok (type, after) => .ok (.primitiveArray extra type, after)

/-- A field type is a reference type or a base type. -/
def FieldType.take (c : DescriptorCursor) : Except DescriptorFault (FieldType × DescriptorCursor) :=
  if c.rest.head? = some 'L' || c.rest.head? = some '[' then
    (RefType.take c).map fun (type, after) => (.ref type, after)
  else
    match BaseType.take c with
    | .error _ => .error (c.unexpected .fieldType)
    | .ok (type, after) => .ok (.base type, after)

/-- The parameters up to a closing parenthesis, with those read so far in reverse. At most `budget`
parameters follow, since each takes at least one character. -/
def takeParameters (read : List FieldType) :
    (budget : Nat) → DescriptorCursor → Except DescriptorFault (List FieldType × DescriptorCursor)
  | 0, c => .error (c.unexpected .closeParen)
  | budget + 1, c =>
    match c.rest with
    | [] => .error (c.unexpected .closeParen)
    | ')' :: rest => .ok (read.reverse, ⟨rest, c.offset + 1⟩)
    | _ =>
      match FieldType.take c with
      | .error fault => .error fault
      | .ok (type, after) => takeParameters (type :: read) budget after

/-- A method descriptor is its parameters in parentheses and its return type, or `V` for none. -/
def MethodDescriptor.take (c : DescriptorCursor) :
    Except DescriptorFault (MethodDescriptor × DescriptorCursor) :=
  match c.rest with
  | '(' :: rest =>
    match takeParameters [] (rest.length + 1) ⟨rest, c.offset + 1⟩ with
    | .error fault => .error fault
    | .ok (parameters, after) =>
      match after.rest with
      | 'V' :: rest => .ok (⟨parameters, none⟩, ⟨rest, after.offset + 1⟩)
      | _ => (FieldType.take after).map fun (type, after) => (⟨parameters, some type⟩, after)
  | _ => .error (c.unexpected .openParen)

instance : ParseDescriptor BaseType := ⟨BaseType.take⟩
instance : ParseDescriptor ClassName := ⟨ClassName.take⟩
instance : ParseDescriptor RefType := ⟨RefType.take⟩
instance : ParseDescriptor FieldType := ⟨FieldType.take⟩
instance : ParseDescriptor MethodDescriptor := ⟨MethodDescriptor.take⟩

/-- Reads a whole descriptor. -/
def parseDescriptor (α : Type) [ParseDescriptor α] (text : String) : Except ClassError α :=
  match (ParseDescriptor.take ⟨text.toList, 0⟩ : Except DescriptorFault (α × DescriptorCursor)) with
  | .error fault => .error (.badDescriptor text fault)
  | .ok (type, after) =>
    if after.rest.isEmpty then .ok type
    else .error (.badDescriptor text (after.unexpected .finish))

/-- Reads the name of a class. -/
def ClassName.parse (text : String) : Except ClassError ClassName :=
  if (fault? text).isSome then .error (.badName text) else .ok ⟨text⟩

/-- Reads the name that the constant pool stores for a type: an array descriptor or a class name. -/
def RefType.ofInternalName (text : String) : Except ClassError RefType :=
  if text.toList.head? = some '[' then parseDescriptor RefType text
  else (ClassName.parse text).map .object

end JvmClass
