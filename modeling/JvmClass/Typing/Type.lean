import JvmClass.Descriptor.Render
import JvmClass.Label

/-!
# Verification types

The types that the verifier gives to stack entries and local variables. They are parametric in how a
class and an uninitialized object are named: by type while frames are computed, by text and code
offset once they are laid out, by pool index when they are stored, and by text and label in events.
-/

namespace JvmClass

/-- Types of stack entries and local variables. -/
inductive VerificationType (Cls New : Type) where
  /-- Unusable: never written, the upper half of a wide value, or a meeting of unlike types. -/
  | top
  | int
  | float
  | double
  | long
  | null
  /-- `this` in a constructor, until the superclass constructor has been called. -/
  | uninitializedThis
  | object (cls : Cls)
  /-- An object between its `new` and the call of its constructor. -/
  | uninitialized (new : New)
deriving DecidableEq, Hashable, Inhabited

namespace VerificationType

variable {Cls New : Type}

/-- The number that stores the kind of type. -/
def tag : VerificationType Cls New → UInt8
  | top => 0 | int => 1 | float => 2 | double => 3 | long => 4
  | null => 5 | uninitializedThis => 6 | object _ => 7 | uninitialized _ => 8

/-- Whether values of the type are references. -/
def isReference : VerificationType Cls New → Bool
  | null | uninitializedThis | object _ | uninitialized _ => true
  | _ => false

def width : VerificationType Cls New → Nat
  | double | long => 2
  | _ => 1

instance : SlotWidth (VerificationType Cls New) := ⟨width⟩

theorem width_pos (t : VerificationType Cls New) : 0 < t.width := by cases t <;> simp [width]

/-- Renames what a type refers to. -/
def map {Cls' New' : Type} (f : Cls → Cls') (g : New → New') :
    VerificationType Cls New → VerificationType Cls' New'
  | top => top | int => int | float => float | double => double | long => long
  | null => null | uninitializedThis => uninitializedThis
  | object cls => object (f cls)
  | uninitialized new => uninitialized (g new)

/-- Renames what a type refers to, with steps that may fail. -/
def mapM {m : Type → Type} [Monad m] {Cls' New' : Type} (f : Cls → m Cls') (g : New → m New') :
    VerificationType Cls New → m (VerificationType Cls' New')
  | top => pure top | int => pure int | float => pure float | double => pure double
  | long => pure long | null => pure null | uninitializedThis => pure uninitializedThis
  | object cls => do return object (← f cls)
  | uninitialized new => do return uninitialized (← g new)

end VerificationType

/-- An object that a `new` instruction made: the offset of the instruction and the class. -/
structure Allocation where
  offset : Nat
  cls : ClassName
deriving DecidableEq, Hashable, Inhabited

/-- Types as frames are computed with them. -/
abbrev VType := VerificationType RefType Allocation

/-- Types by class text and offset of the `new` instruction. -/
abbrev NamedType := VerificationType String Nat

/-- Types by pool index and stored offset of the `new` instruction. -/
abbrev PooledType := VerificationType UInt16 UInt16

/-- Types by class text and label of the `new` instruction. -/
abbrev LabelledType := VerificationType String Label

namespace VType

/-- The type of instances of a class. -/
def instanceOf (cls : ClassName) : VType := .object (.object cls)

/-- The type that values of a field type have on the stack: the small integer types are `int`. -/
def ofField : FieldType → VType
  | .ref type => .object type
  | .base .float => .float
  | .base .long => .long
  | .base .double => .double
  | .base _ => .int

/-- The type by class text and offset. -/
def named (t : VType) : NamedType := t.map RefType.internalName Allocation.offset

/-- The type as messages show it. -/
def describe : VType → String
  | .top => "Top" | .int => "Integer" | .float => "Float" | .double => "Double"
  | .long => "Long" | .null => "Null" | .uninitializedThis => "UninitializedThis"
  | .object type => s!"Object({type.describe})"
  | .uninitialized new =>
    s!"Uninitialized(UninitializedType \x7b offset: {new.offset}, class: {new.cls.text} \x7d)"

theorem width_ofField (t : FieldType) : (ofField t).width = t.width := by
  cases t with
  | ref type => rfl
  | base type => cases type <;> rfl

end VType

end JvmClass
