/-!
# Labels

A label stands for a place in the code of one method before its offset is known. Labels are numbered
in the order in which they are made.
-/

namespace JvmClass

/-- A place in the code of one method. -/
structure Label where
  number : Nat
deriving DecidableEq, Hashable, Inhabited

/-- The label as messages show it. -/
def Label.text (label : Label) : String := s!"l{label.number}"

end JvmClass
