import JvmClass.Error

/-!
# Control flow between basic blocks

A label that is placed at a new position starts a basic block, and the blocks form a chain in the
order of placement. A label placed where the last block is still empty starts none: it is an alias
of that block. Edges and flags belong to blocks; those recorded through a label before it is placed
move to the block that the label turns out to belong to.
-/

namespace JvmClass

/-- Why control passes along an edge. -/
inductive EdgeKind where
  /-- A jump or a fall through. -/
  | normal
  /-- An exception, when its type does not matter. -/
  | exception
  /-- An exception of a type. -/
  | caught (type : VType)
deriving DecidableEq, Inhabited

/-- An edge out of a block, to the block of a label that need not be placed yet. -/
structure Edge where
  kind : EdgeKind
  successor : Label
deriving DecidableEq, Inhabited

/-- What is known about a block. -/
structure BlockFlags where
  /-- The block needs a frame: something jumps to it, or nothing falls into it. -/
  target : Bool := false
  /-- The block can be reached from the entry of the method. -/
  reachable : Bool := false
deriving DecidableEq, Inhabited

namespace BlockFlags

def union (a b : BlockFlags) : BlockFlags := ⟨a.target || b.target, a.reachable || b.reachable⟩

def ofBits (bits : UInt8) : BlockFlags := ⟨bits &&& 1 != 0, bits &&& 2 != 0⟩

def bits (f : BlockFlags) : UInt8 := (if f.target then 1 else 0) + if f.reachable then 2 else 0

end BlockFlags

/-- What is known about a label. -/
structure LabelData where
  /-- Where the label is placed. -/
  position : Option Nat := none
  /-- The final offset, once it is settled. -/
  offset : Option Nat := none
  flags : BlockFlags := {}
  edges : Array Edge := #[]
  /-- The label that starts the block, if this one does not. -/
  leader : Option Label := none
  /-- The place of the block in the chain, if the label starts one. -/
  chainIndex : Option Nat := none
deriving Inhabited

/-- The labels of one method body and the control flow between its blocks. -/
structure LabelGraph where
  labels : Array LabelData
  /-- The labels that start blocks, in the order of placement. -/
  chain : Array Label
deriving Inhabited

namespace LabelGraph

def empty : LabelGraph := ⟨#[], #[]⟩

def size (g : LabelGraph) : Nat := g.labels.size

/-- The label that the next call of `addLabel` makes. -/
def nextLabel (g : LabelGraph) : Label := ⟨g.labels.size⟩

/-- Makes a label. -/
def addLabel (g : LabelGraph) : LabelGraph := { g with labels := g.labels.push {} }

/-- Makes a number of labels. -/
def addLabels (g : LabelGraph) : Nat → LabelGraph
  | 0 => g
  | n + 1 => g.addLabel.addLabels n

/-- What is known about a label, if the graph has made it. -/
def data? (g : LabelGraph) (label : Label) : Option LabelData := g.labels[label.number]?

/-- Changes what is known about a label. -/
def update (g : LabelGraph) (label : Label) (f : LabelData → LabelData) : LabelGraph :=
  { g with labels := g.labels.modify label.number f }

/-- Where a label is placed. -/
def position? (g : LabelGraph) (label : Label) : Option Nat := (g.data? label).bind (·.position)

/-- The final offset of a label. -/
def offset (g : LabelGraph) (label : Label) : Except ClassError Nat :=
  match (g.data? label).bind (·.offset) with
  | some offset => .ok offset
  | none => .error (.unresolvedLabel label)

/-- The label that starts the block of a label. -/
def blockOf (g : LabelGraph) (label : Label) : Label :=
  ((g.data? label).bind (·.leader)).getD label

/-- The block that was started last, if it starts at a position. -/
def lastBlockAt? (g : LabelGraph) (position : Nat) : Option Label :=
  match g.chain.back? with
  | none => none
  | some leader => if g.position? leader = some position then some leader else none

/-- Places a label at a position; the answer is whether it starts a block. -/
def place (label : Label) (position : Nat) : Step LabelGraph Bool := fun g =>
  match g.data? label with
  | none => .error (.unresolvedLabel label) g
  | some data =>
    if data.position.isSome then .error (.duplicateLabel label) g
    else match g.lastBlockAt? position with
      | some leader =>
        let g := g.update label fun d =>
          { d with position := some position, leader := some leader, edges := #[] }
        .ok false (g.update leader fun d =>
          { d with flags := d.flags.union data.flags, edges := d.edges ++ data.edges })
      | none =>
        let g := g.update label fun d =>
          { d with position := some position, chainIndex := some g.chain.size }
        .ok true { g with chain := g.chain.push label }

/-- Settles the offset of every label that is placed. -/
def resolve (g : LabelGraph) : LabelGraph :=
  { g with labels := g.labels.map fun d => { d with offset := d.position } }

/-- The labels that start blocks, in the order of placement. -/
def blocks (g : LabelGraph) : List Label := g.chain.toList

/-- The block placed after the block of a label. -/
def nextBlock? (g : LabelGraph) (label : Label) : Option Label :=
  match (g.data? (g.blockOf label)).bind (·.chainIndex) with
  | none => none
  | some index => g.chain[index + 1]?

/-- Adds an edge out of the block of a label. -/
def addEdge (source : Label) (kind : EdgeKind) (successor : Label) : Step LabelGraph Unit :=
  fun g =>
    let leader := g.blockOf source
    if (g.data? leader).isSome then
      .ok () (g.update leader fun d => { d with edges := d.edges.push ⟨kind, successor⟩ })
    else .error (.unresolvedLabel leader) g

/-- The edges out of the block of a label. -/
def edges (g : LabelGraph) (label : Label) : List Edge :=
  match g.data? (g.blockOf label) with
  | none => []
  | some data => data.edges.toList

def flags (g : LabelGraph) (label : Label) : BlockFlags :=
  match g.data? (g.blockOf label) with
  | none => {}
  | some data => data.flags

/-- Sets flags of the block of a label, or of the label until it is placed. -/
def setFlags (g : LabelGraph) (label : Label) (flags : BlockFlags) : LabelGraph :=
  g.update (g.blockOf label) fun d => { d with flags := d.flags.union flags }

/-- Sets the flag of a block that needs a frame. -/
def markTarget (g : LabelGraph) (label : Label) : LabelGraph := g.setFlags label ⟨true, false⟩

/-- Sets the flag of a block that can be reached. -/
def markReachable (g : LabelGraph) (label : Label) : LabelGraph := g.setFlags label ⟨false, true⟩

/-- The blocks to which the edges of a block lead. -/
def successors (g : LabelGraph) (block : Label) : List Label :=
  (g.edges block).map fun edge => g.blockOf edge.successor

end LabelGraph

end JvmClass
