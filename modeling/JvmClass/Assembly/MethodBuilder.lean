import JvmClass.Assembly.Member
import JvmClass.Flow.Inputs
import JvmClass.Flow.SourceTables
import JvmClass.Options

/-!
# Methods under construction

A `MethodBuilder` takes up the events of one method. Instructions are written as they come; what
depends on the final layout, such as branch distances, the exception table, frames and maximums, is
settled when the body ends. Control flow between basic blocks is recorded on the way: a block ends
where a label is placed, after a jump, and after a store that an exception handler could see.
-/

namespace JvmClass

/-- A branch distance that is filled in when labels have offsets. -/
structure Fixup where
  /-- Offset of the branching instruction, from which the distance counts. -/
  source : Nat
  /-- Where the distance stands. -/
  place : Nat
  target : Label
  /-- Whether the distance has thirty-two bits. -/
  wide : Bool
deriving Inhabited

/-- What is fixed when a method starts. -/
structure MethodSetting where
  compute : Compute
  copiedPool : Bool
  hierarchy : Hierarchy
  thisClass : ClassName
  flags : AccessFlags .ofMethod
  isConstructor : Bool
  descriptor : MethodDescriptor
  nameIndex : PoolIndex
  descriptorIndex : PoolIndex
  signature : Option String
  exceptions : List String
deriving Inhabited

/-- A method under construction. -/
structure MethodBuilder where
  setting : MethodSetting
  pool : ConstantPool
  annotations : Array Annotated := #[]
  attributes : Array RawAttribute := #[]
  /-- The label of the first instruction, once the body has begun. -/
  entry : Option Label := none
  code : Bytes := #[]
  graph : LabelGraph := LabelGraph.empty
  handlers : Array ExceptionHandler := #[]
  lines : Array (UInt16 × Label) := #[]
  vars : Array (VariableRange Label) := #[]
  codeAttributes : Array RawAttribute := #[]
  /-- Frames that were given, with their offsets; none when frames are computed. -/
  givenFrames : Array (Nat × Layout LabelledType) := #[]
  fixups : Array Fixup := #[]
  /-- Instructions by the label that starts their block. -/
  blocks : Std.HashMap Label BlockSummary := ∅
  /-- The block that instructions go to; none after an instruction that does not go on. -/
  current : Option Label := none
  maxLocals : Nat := 0
  /-- The finished body. -/
  body : Option Attribute := none
  /-- The methods that have been finished. -/
  finished : Array Member := #[]
deriving Inhabited

/-- A step in the construction of a method. -/
abbrev Assemble := Step MethodBuilder

namespace MethodBuilder

/-- Starts a method: its name and descriptor get constants before the descriptor is read. -/
def start (compute : Compute) (copiedPool : Bool) (hierarchy : Hierarchy) (thisClass : ClassName)
    (d : MethodDeclaration) : ConstantPool.Request MethodSetting := do
  let nameIndex ← ConstantPool.utf8 d.name
  let descriptorIndex ← ConstantPool.utf8 d.descriptor
  let descriptor ← Step.of (parseDescriptor MethodDescriptor d.descriptor)
  return { compute, copiedPool, hierarchy, thisClass, flags := d.flags,
           isConstructor := d.isConstructor, descriptor, nameIndex, descriptorIndex,
           signature := d.signature, exceptions := d.exceptions }

/-- A method without events. Its parameters take the first locals. -/
def ofSetting (setting : MethodSetting) (pool : ConstantPool) : MethodBuilder :=
  { setting, pool
    maxLocals := setting.descriptor.parameterSlots setting.flags.hasReceiver }

/-- A request to the pool. -/
def ask {α : Type} (request : ConstantPool.Request α) : Assemble α :=
  Step.on MethodBuilder.pool (fun b pool => { b with pool }) request

/-- A step on the control flow. -/
def onGraph {α : Type} (step : Step LabelGraph α) : Assemble α :=
  Step.on MethodBuilder.graph (fun b graph => { b with graph }) step

/-- Changes the code. -/
def write (f : Bytes → Bytes) : Assemble Unit := modify fun b => { b with code := f b.code }

/-- Makes a label. -/
def newLabel : Assemble Label := do
  let label := (← get).graph.nextLabel
  modify fun b => { b with graph := b.graph.addLabel }
  return label

/-- Places a label at the end of the code. If it starts a block, the current block falls through
into it, or it needs a frame because nothing does. -/
def placeLabel (label : Label) : Assemble Unit := do
  let position := (← get).code.size
  let startsBlock ← onGraph (LabelGraph.place label position)
  if startsBlock then
    match (← get).current with
    | some previous => onGraph (LabelGraph.addEdge previous .normal label)
    | none => modify fun b => { b with graph := b.graph.markTarget label }
    modify fun b =>
      { b with blocks := b.blocks.alter label fun summary => some (summary.getD {}) }
  modify fun b => { b with current := some (b.graph.blockOf label) }

/-- Starts a fresh block into which the current one falls through. -/
def splitBlock : Assemble Unit := do placeLabel (← newLabel)

/-- Ends the current block; nothing falls through. -/
def endBlock : Assemble Unit := modify fun b => { b with current := none }

/-- The offset of the instruction that is about to be written, for which a block is started if there
is none. -/
def startInstruction : Assemble Nat := do
  if (← get).entry.isNone then throw .codeNotStarted
  if (← get).current.isNone then splitBlock
  return (← get).code.size

/-- Records the effect of an instruction in its block, if anything is computed. -/
def record (offset : Nat) (effect : Except ClassError Effect) : Assemble Unit := do
  let compute := (← get).setting.compute
  if compute.computesMaxs then
    let effect ← Step.of effect
    match (← get).current with
    | none => pure ()
    | some block =>
      modify fun b =>
        { b with
          blocks := b.blocks.alter block fun summary =>
            some ((summary.getD {}).add compute.frames offset effect) }

/-- Adds the edge of a jump. The target needs a frame. -/
def jumpTo (target : Label) : Assemble Unit := do
  match (← get).current with
  | none => pure ()
  | some block => onGraph (LabelGraph.addEdge block .normal target)
  modify fun b => { b with graph := b.graph.markTarget target }

/-- Adds the edges of jumps. -/
def jumpToAll : List Label → Assemble Unit
  | [] => pure ()
  | target :: rest => do
    jumpTo target
    jumpToAll rest

/-- Leaves room for a branch distance. -/
def putFixup (source : Nat) (target : Label) (wide : Bool) : Assemble Unit := do
  modify fun b => { b with fixups := b.fixups.push ⟨source, b.code.size, target, wide⟩ }
  write fun code => if wide then code.putU32 0 else code.putU16 0

/-- Makes sure that there are locals up to the end of a value in a slot. -/
def touchLocal (slot : UInt16) (width : Nat) : Assemble Unit :=
  modify fun b => { b with maxLocals := max b.maxLocals (slot.toNat + width) }

/-- Handlers see the locals on entry to a block, so that a store ends one if there are handlers. -/
def splitAfterStore : Assemble Unit := do
  let b ← get
  if b.setting.compute.frames && !b.handlers.isEmpty then splitBlock

end MethodBuilder

end JvmClass
