/-!
# Annotations

An annotation has the descriptor of its interface and the values of its elements in order. Floats
are kept as their bits.
-/

namespace JvmClass

/-- The value of an annotation element. -/
inductive ElementValue where
  | byte (value : Int8)
  | char (unit : UInt16)
  | short (value : Int16)
  | boolean (value : Bool)
  | int (value : Int32)
  | long (value : Int64)
  | float (bits : UInt32)
  | double (bits : UInt64)
  | string (text : String)
  | enum (descriptor name : String)
  /-- A class literal, by its return descriptor. -/
  | cls (descriptor : String)
  /-- The descriptor and the elements of an annotation. -/
  | nested (descriptor : String) (elements : List (String × ElementValue))
  | array (values : List ElementValue)
deriving Inhabited

/-- An annotation on a class, field or method. -/
structure Annotation where
  descriptor : String
  elements : List (String × ElementValue)
deriving Inhabited

/-- An annotation, and whether programs can see it when they run. -/
abbrev Annotated := Annotation × Bool

namespace ElementValue

/-- The character that stores the kind of value. -/
def tag : ElementValue → Char
  | byte _ => 'B' | char _ => 'C' | short _ => 'S' | boolean _ => 'Z' | int _ => 'I'
  | long _ => 'J' | float _ => 'F' | double _ => 'D' | string _ => 's' | enum _ _ => 'e'
  | cls _ => 'c' | nested _ _ => '@' | array _ => '['

/-- The byte that stores the kind of value. -/
def tagByte (v : ElementValue) : UInt8 := UInt8.ofNat v.tag.toNat

end ElementValue

end JvmClass
