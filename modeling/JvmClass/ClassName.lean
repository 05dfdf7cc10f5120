/-!
# Names of classes

Class files name classes by their internal form, identifiers separated by `/`. A `ClassName` is such
a name; `ClassName.fault?` says what is wrong with a text that is not one.
-/

namespace JvmClass

/-- Internal name of a class or interface, as in `java/lang/Object`. -/
structure ClassName where
  text : String
deriving DecidableEq, Hashable, Inhabited

namespace ClassName

/-- Why a text names no class. -/
inductive Fault where
  | empty
  | emptySegment
  | illegalCharacter
deriving DecidableEq

/-- Characters that descriptors and source names reserve. -/
def isReserved (c : Char) : Bool := c = '.' || c = ';' || c = '['

/-- The first fault of the segments, of which `segment` holds what is read of the current one:
a segment is judged when it ends, and an empty one before its characters. -/
def segmentsFault? : (segment : List Char) → List Char → Option Fault
  | segment, [] => if segment.isEmpty then some .emptySegment
      else if segment.any isReserved then some .illegalCharacter else none
  | segment, c :: rest =>
    if c = '/' then
      if segment.isEmpty then some .emptySegment
      else if segment.any isReserved then some .illegalCharacter
      else segmentsFault? [] rest
    else segmentsFault? (c :: segment) rest

/-- What is wrong with the characters of a would-be class name. -/
def faultOf? (chars : List Char) : Option Fault :=
  if chars.isEmpty then some .empty else segmentsFault? [] chars

/-- What is wrong with a would-be class name. -/
def fault? (text : String) : Option Fault := faultOf? text.toList

/-- The fault of a text in words. -/
def Fault.message (text : String) : Fault → String
  | empty => s!"Binary name '{text}' is empty"
  | emptySegment => s!"Binary name '{text}' has an empty segment"
  | illegalCharacter => s!"Binary name '{text}' contains an illegal character"

/-- The name as the descriptor of its type. -/
def descriptor (name : ClassName) : String := "L" ++ name.text ++ ";"

/-- The root of every class hierarchy. -/
def object : ClassName := ⟨"java/lang/Object"⟩

def string : ClassName := ⟨"java/lang/String"⟩

/-- The type of class literals. -/
def classLiteral : ClassName := ⟨"java/lang/Class"⟩

/-- The superclass of everything that can be thrown. -/
def throwable : ClassName := ⟨"java/lang/Throwable"⟩

def methodType : ClassName := ⟨"java/lang/invoke/MethodType"⟩

def methodHandle : ClassName := ⟨"java/lang/invoke/MethodHandle"⟩

end ClassName

end JvmClass
