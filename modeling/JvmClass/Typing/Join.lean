import JvmClass.Typing.Hierarchy
import JvmClass.Typing.Type

/-!
# Joining verification types

The join of two types is the most specific type as which values of both can be used. Types that have
none in common have no join: a local variable then becomes unusable, and a stack entry is an error.
-/

namespace JvmClass

/-- Classes meet at their common superclass, and arrays of instances of the same dimension meet
element by element. Other arrays have only the root in common. -/
def RefType.join (h : Hierarchy) : RefType → RefType → RefType
  | .object a, .object b => .object (h.commonSuper a b)
  | .objectArray m a, .objectArray n b =>
    if m = n then .objectArray m (h.commonSuper a b) else .object ClassName.object
  | a, b => if a = b then a else .object ClassName.object

/-- The most specific type as which both types can be used, if there is one. -/
def VType.join (h : Hierarchy) (a b : VType) : Option VType :=
  if a = b then some a
  else match a, b with
    | .null, .object _ => some b
    | .object _, .null => some a
    | .object s, .object t => some (.object (s.join h t))
    | _, _ => none

/-- The join of two local variables, which are unusable if there is none. -/
def VType.meet (h : Hierarchy) (a b : VType) : VType := (a.join h b).getD .top

end JvmClass
