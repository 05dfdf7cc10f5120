import JvmClass.Attribute
import JvmClass.Flow.Handlers

/-!
# Lines and local variables of the source

A method body may carry a table of the source lines of its code and a table of the local variables
of the source. A table without entries is left out.
-/

namespace JvmClass

/-- A local variable of the source, with its range given by `P`. -/
structure VariableRange (P : Type) where
  name : String
  descriptor : String
  start : P
  stop : P
  slot : UInt16
deriving Inhabited

namespace LabelGraph

/-- A line with its place as stored. -/
def storedLine (g : LabelGraph) (entry : UInt16 × Label) : Except ClassError LineNumber := do
  return ⟨← g.codeOffset entry.2, entry.1⟩

/-- A local variable with its range as stored, asking the pool for its name and descriptor. -/
def storedVariable (g : LabelGraph) (v : VariableRange Label) :
    ConstantPool.Request LocalVariable := do
  let start ← Step.of (g.codeOffset v.start)
  let stop ← Step.of (g.codeOffset v.stop)
  if stop < start then
    throw (.malformedAttribute "LocalVariableTable"
      (.endsBeforeStart v.name stop.toNat start.toNat))
  let name ← ConstantPool.utf8 v.name
  let descriptor ← ConstantPool.utf8 v.descriptor
  return { start, length := stop - start, name, descriptor, slot := v.slot }

/-- The attribute that holds lines, if there are any. -/
def lineNumberTable (g : LabelGraph) (lines : List (UInt16 × Label)) :
    ConstantPool.Request (List Attribute) := do
  if lines.isEmpty then return []
  let stored ← Step.of (lines.mapM g.storedLine)
  return [← Attribute.make (.lineNumberTable stored)]

/-- The attribute that holds local variables, if there are any. -/
def localVariableTable (g : LabelGraph) (vars : List (VariableRange Label)) :
    ConstantPool.Request (List Attribute) := do
  if vars.isEmpty then return []
  let stored ← vars.mapM g.storedVariable
  return [← Attribute.make (.localVariableTable stored)]

end LabelGraph

end JvmClass
