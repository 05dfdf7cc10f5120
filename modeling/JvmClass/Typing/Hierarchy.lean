import Std.Data.HashMap
import JvmClass.ClassName

/-!
# Class hierarchies

Where two object types meet, the verifier needs the most specific class that both extend. A
`Hierarchy` answers that question. `Superclasses` is one given by a table of superclasses;
`Hierarchy.flat` knows of no superclass but the root; `Hierarchy.caught` is what the types of caught
exceptions are joined with.
-/

namespace JvmClass

/-- An oracle for the most specific class that two classes extend. -/
structure Hierarchy where
  commonSuper : ClassName → ClassName → ClassName

namespace Hierarchy

/-- Distinct classes have only the root in common. -/
def flat : Hierarchy := ⟨fun a b => if a = b then a else ClassName.object⟩

/-- Everything that can be thrown extends `ClassName.throwable`, so a join that would find only the
root stops there. -/
def caught (h : Hierarchy) : Hierarchy :=
  ⟨fun a b =>
    let joined := h.commonSuper a b
    if joined = ClassName.object then ClassName.throwable else joined⟩

end Hierarchy

instance : Inhabited Hierarchy := ⟨Hierarchy.flat⟩

/-- A table of superclasses. Classes that are not in it extend the root directly. -/
structure Superclasses where
  parents : Std.HashMap ClassName ClassName

namespace Superclasses

def empty : Superclasses := ⟨∅⟩

/-- Records the superclass of a class, in place of an earlier one. -/
def add (s : Superclasses) (cls superclass : ClassName) : Superclasses :=
  ⟨s.parents.insert cls superclass⟩

def size (s : Superclasses) : Nat := s.parents.size

/-- Follows recorded superclasses from a class, whose chain so far is given in reverse, for at most
`steps` steps. A superclass that is already in the chain ends it. -/
def climb (s : Superclasses) : (steps : Nat) → ClassName → List ClassName → List ClassName
  | 0, _, chain => chain
  | steps + 1, current, chain =>
    match s.parents[current]? with
    | none => chain
    | some parent => if chain.contains parent then chain else s.climb steps parent (parent :: chain)

/-- The class followed by its superclasses, down to the root. No chain is longer than the table. -/
def ancestors (s : Superclasses) (cls : ClassName) : List ClassName :=
  let chain := s.climb s.size cls [cls]
  (if chain.head? = some ClassName.object then chain else ClassName.object :: chain).reverse

/-- The first ancestor of one class that is also an ancestor of the other. -/
def commonSuper (s : Superclasses) (a b : ClassName) : ClassName :=
  let others := s.ancestors b
  ((s.ancestors a).find? others.contains).getD ClassName.object

def hierarchy (s : Superclasses) : Hierarchy := ⟨s.commonSuper⟩

end Superclasses

end JvmClass
