import JvmClass.Annotation.Encode
import JvmClass.Descriptor.Parse
import JvmClass.Flow.LabelGraph

/-!
# Exception handlers

The exception table of a method lists protected ranges of the code with their handlers, and the
first entry that covers an instruction and catches an exception gets it. Entries are given by label
until the table is written. A handler adds an edge from every block of its range.
-/

namespace JvmClass

/-- An entry of the exception table. -/
structure ExceptionHandler where
  /-- First place of the range. -/
  start : Label
  /-- First place after the range. -/
  stop : Label
  handler : Label
  /-- The class caught; everything, if there is none. -/
  catchType : Option String
deriving DecidableEq, Inhabited

namespace ExceptionHandler

/-- The type that a handler finds on the stack. -/
def caughtType (h : ExceptionHandler) : Except ClassError VType :=
  match h.catchType with
  | none => .ok (VType.instanceOf ClassName.throwable)
  | some name => (RefType.ofInternalName name).map .object

/-- Whether the range of a handler holds no code. -/
def isEmpty (g : LabelGraph) (h : ExceptionHandler) : Except ClassError Bool := do
  let start ← g.offset h.start
  return decide ((← g.offset h.stop) ≤ start)

/-- What is left of a handler when the code from `cut` up to `resume` is removed: a range that goes
on on both sides is split, the first part first. -/
def without (g : LabelGraph) (cut resume : Label) (h : ExceptionHandler) :
    Except ClassError (List ExceptionHandler) := do
  let removedStart ← g.offset cut
  let removedStop ← g.offset resume
  let start ← g.offset h.start
  let stop ← g.offset h.stop
  if removedStop ≤ start || stop ≤ removedStart then return [h]
  else
    let before := if removedStart ≤ start then [] else [{ h with stop := cut }]
    let after := if stop ≤ removedStop then [] else [{ h with start := resume }]
    return before ++ after

end ExceptionHandler

/-- The entries of an exception table, in the order in which they are tried. -/
abbrev Handlers := List ExceptionHandler

namespace LabelGraph

/-- The blocks from a block on that start before an offset, after those found so far in reverse. The
chain of blocks is followed for at most `budget` blocks. -/
def blocksBefore (g : LabelGraph) (stop : Nat) (done : List Label) :
    (budget : Nat) → Label → Except ClassError (List Label)
  | 0, _ => .ok done.reverse
  | budget + 1, block =>
    match g.offset block with
    | .error e => .error e
    | .ok start =>
      if stop ≤ start then .ok done.reverse
      else match g.nextBlock? block with
        | none => .ok (block :: done).reverse
        | some next => g.blocksBefore stop (block :: done) budget next

/-- The blocks of a range. No chain is longer than the chain of all blocks. -/
def coveredBlocks (g : LabelGraph) (start stop : Label) : Except ClassError (List Label) := do
  let stop ← g.offset stop
  g.blocksBefore stop [] (g.chain.size + 1) (g.blockOf start)

/-- The offset of a label as it is stored, in sixteen bits. -/
def codeOffset (g : LabelGraph) (label : Label) : Except ClassError UInt16 := do
  let offset ← g.offset label
  if offset < 65536 then return UInt16.ofNat offset else throw (.methodCodeOverflow offset)

end LabelGraph

namespace Handlers

/-- Adds an edge of a kind to a label from each of the given blocks. -/
def addEdges (kind : EdgeKind) (successor : Label) : List Label → Step LabelGraph Unit
  | [] => pure ()
  | block :: rest => do
    LabelGraph.addEdge block kind successor
    addEdges kind successor rest

/-- Adds an edge to its handler from every block of each range. -/
def complete : Handlers → Step LabelGraph Unit
  | [] => pure ()
  | h :: rest => do
    let blocks ← Step.of ((← get).coveredBlocks h.start h.stop)
    addEdges .exception h.handler blocks
    complete rest

/-- Adds an edge with the type caught to its handler from every block of each range. Handlers need a
frame. -/
def completeTyped : Handlers → Step LabelGraph Unit
  | [] => pure ()
  | h :: rest => do
    let caught ← Step.of h.caughtType
    let blocks ← Step.of ((← get).coveredBlocks h.start h.stop)
    addEdges (.caught caught) h.handler blocks
    modify (·.markTarget h.handler)
    completeTyped rest

/-- What is left of each handler when the code between two labels is removed. -/
def without (g : LabelGraph) (cut resume : Label) (handlers : Handlers) :
    Except ClassError Handlers := do
  return (← handlers.mapM (ExceptionHandler.without g cut resume)).flatten

/-- Removes the code between two labels from every range. A table with a range that has no place is
lost. -/
def removeRange (g : LabelGraph) (cut resume : Label) : Step Handlers Unit := fun handlers =>
  match g.offset cut, g.offset resume with
  | .error e, _ => .error e handlers
  | .ok _, .error e => .error e handlers
  | .ok _, .ok _ =>
    match without g cut resume handlers with
    | .ok handlers => .ok () handlers
    | .error e => .error e []

/-- The entries whose ranges hold code. -/
def nonempty (g : LabelGraph) (handlers : Handlers) : Except ClassError Handlers :=
  handlers.filterM fun h => return !(← h.isEmpty g)

/-- The number of bytes of the stored table, its count included. -/
def byteSize (g : LabelGraph) (handlers : Handlers) : Except ClassError Nat := do
  return 2 + 8 * (← nonempty g handlers).length

/-- Appends a place of the code, in sixteen bits. -/
def putPlace (g : LabelGraph) (label : Label) : Store Unit := do
  let offset ← Step.of (g.codeOffset label)
  modify fun s => { s with out := s.out.putU16 offset }

/-- Appends an entry, asking the pool for the class that it catches. -/
def putEntry (g : LabelGraph) (h : ExceptionHandler) : Store Unit := do
  putPlace g h.start
  putPlace g h.stop
  putPlace g h.handler
  match h.catchType with
  | none => modify fun s => { s with out := s.out.putU16 0 }
  | some name => Store.index (ConstantPool.cls name)

/-- Appends the entries whose ranges hold code, after `count` others, and gives the number of
all. -/
def putEntries (g : LabelGraph) (count : Nat) : Handlers → Store UInt16
  | [] => return UInt16.ofNat count
  | h :: rest => do
    if ← Step.of (h.isEmpty g) then putEntries g count rest
    else
      putEntry g h
      if count + 1 < 65536 then putEntries g (count + 1) rest
      else throw (.tooManyEntries "exception handlers" (count + 1))

/-- Appends the table: the number of its entries, which is filled in at the end, and the entries. -/
def put (g : LabelGraph) (handlers : Handlers) : Store Unit := do
  let start := (← get).out.size
  modify fun s => { s with out := s.out.putU16 0 }
  let count ← putEntries g 0 handlers
  modify fun s => { s with out := s.out.overwrite start (bytes16 count) }

end Handlers

end JvmClass
