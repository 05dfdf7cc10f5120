import Std.Data.HashMap
import JvmClass.Code.Instruction
import JvmClass.Event
import JvmClass.Flow.SourceTables
import JvmClass.Options
import JvmClass.StackMap.Decode

/-!
# Reading method bodies

A body is read in two passes. The first finds its instructions and tables, and gives a label to
every offset that something refers to; an offset must be the start of an instruction or the end of
the code. The second tells the events in the order of the code.
-/

namespace JvmClass

/-- The labels given to offsets of a body, numbered in the order in which they were first asked
for. -/
structure Places where
  labels : Std.HashMap Nat Label
deriving Inhabited

namespace Places

def empty : Places := ⟨∅⟩

/-- How many labels there are. -/
def count (p : Places) : Nat := p.labels.size

/-- The label of an offset, if something refers to it. -/
def get? (p : Places) (offset : Nat) : Option Label := p.labels[offset]?

/-- The label of an offset, which gets one if it has none. -/
def name (offset : Nat) : Step Places Label := fun p =>
  match p.labels[offset]? with
  | some label => .ok label p
  | none =>
    let label : Label := ⟨p.labels.size⟩
    .ok label ⟨p.labels.insert offset label⟩

end Places

/-- An entry of an exception table. -/
structure TableEntry where
  start : UInt16
  stop : UInt16
  handler : UInt16
  catchType : PoolIndex

/-- A stored entry of a table of local variables. -/
structure StoredVariable where
  start : Nat
  stop : Nat
  name : PoolIndex
  descriptor : PoolIndex
  slot : UInt16

/-- A handler of a body. -/
structure HandlerRange where
  start : Label
  stop : Label
  handler : Label
  catchType : Option String

/-- The tables that the attributes of a body hold. -/
structure BodyTables where
  lines : Array (Nat × UInt16)
  vars : Array StoredVariable
  stackMap : List PlacedFrame
  attributes : Array RawAttribute

/-- A body as it is stored, with places given by offset. -/
structure StoredBody where
  maxStack : UInt16
  maxLocals : UInt16
  size : Nat
  instructions : Array (Nat × Instruction Nat)
  exceptionTable : List TableEntry
  attributes : List AttributeSpan

/-- A body with its places named. -/
structure NamedBody where
  maxStack : UInt16
  maxLocals : UInt16
  size : Nat
  places : Places
  instructions : List (Nat × Instruction Label)
  handlers : List HandlerRange
  /-- Line numbers by the offset from which they hold. -/
  lines : Std.HashMap Nat (Array UInt16)
  vars : List (VariableRange Label)
  frames : Std.HashMap Nat (Layout LabelledType)
  attributes : List RawAttribute

namespace ClassImage

/-- Reads an entry of an exception table. -/
def readTableEntry : Scan TableEntry := do
  let start ← Scan.u16
  let stop ← Scan.u16
  let handler ← Scan.u16
  return ⟨start, stop, handler, ← Scan.u16⟩

/-- Reads a body up to and including the places of its attributes. -/
def readStoredBody (image : ClassImage) : Scan StoredBody := do
  let maxStack ← Scan.u16
  let maxLocals ← Scan.u16
  let size := (← Scan.u32).toNat
  let code ← Scan.bytes size
  let instructions ← Step.of (Instruction.decode code)
  let exceptionTable ← Scan.counted readTableEntry
  let attributes ← image.readAttributes
  return { maxStack, maxLocals, size, instructions, exceptionTable, attributes }

/-- Reads an entry of a line number table: an offset and its line. -/
def readLine : Scan (Nat × UInt16) := do
  let start ← Scan.u16
  return (start.toNat, ← Scan.u16)

/-- Reads an entry of a table of local variables. -/
def readVariable : Scan StoredVariable := do
  let start ← Scan.u16
  let length ← Scan.u16
  let name ← Scan.u16
  let descriptor ← Scan.u16
  return { start := start.toNat, stop := start.toNat + length.toNat, name, descriptor,
           slot := ← Scan.u16 }

/-- Adds what an attribute of a body holds to its tables, unless it is to be left out. -/
def addTable (image : ClassImage) (skip : Skip) (declaration : MethodDeclaration)
    (tables : BodyTables) (span : AttributeSpan) : Except ClassError BodyTables := do
  if span.name == "LineNumberTable" then
    if skip.debug then return tables
    let lines ← image.readBody span (Scan.counted readLine)
    return { tables with lines := tables.lines ++ lines }
  else if span.name == "LocalVariableTable" then
    if skip.debug then return tables
    let vars ← image.readBody span (Scan.counted readVariable)
    return { tables with vars := tables.vars ++ vars }
  else if span.name == "StackMapTable" then
    if skip.frames then return tables
    let locals ← image.entryLocals declaration
    let stackMap ← image.readBody span (image.readStackMap locals)
    return { tables with stackMap }
  else if span.name == "LocalVariableTypeTable" && skip.debug then return tables
  else return { tables with attributes := tables.attributes.push (image.raw span) }

/-- Names a place of a body: the start of an instruction or the end of the code. -/
def namePlace (body : StoredBody) (offset : Nat) : Step Places Label := do
  if Instruction.startsAt body.instructions offset || offset == body.size then Places.name offset
  else throw (.malformedAttribute "Code" (.notInstructionStart offset))

/-- Names the places of an entry of the exception table. -/
def nameHandler (image : ClassImage) (body : StoredBody) (entry : TableEntry) :
    Step Places HandlerRange := do
  let start ← namePlace body entry.start.toNat
  let stop ← namePlace body entry.stop.toNat
  let handler ← namePlace body entry.handler.toNat
  let catchType ← Step.of (image.cls? entry.catchType)
  return ⟨start, stop, handler, catchType⟩

/-- Names the range of a local variable. -/
def nameVariable (image : ClassImage) (body : StoredBody) (v : StoredVariable) :
    Step Places (VariableRange Label) := do
  let name ← Step.of (image.utf8 v.name)
  let descriptor ← Step.of (image.utf8 v.descriptor)
  let start ← namePlace body v.start
  let stop ← namePlace body v.stop
  return ⟨name, descriptor, start, stop, v.slot⟩

/-- Names the places that a frame refers to, its own among them. -/
def nameFrame (body : StoredBody) (frame : PlacedFrame) :
    Step Places (Nat × Layout LabelledType) := do
  if body.size ≤ frame.offset then
    throw (.malformedAttribute "StackMapTable" (.framePastEnd frame.offset))
  let _ ← namePlace body frame.offset
  let nameType (t : NamedType) : Step Places LabelledType := t.mapM pure (namePlace body)
  let locals ← frame.layout.locals.mapM nameType
  let stack ← frame.layout.stack.mapM nameType
  return (frame.offset, ⟨locals, stack⟩)

/-- Names every place that a body refers to. -/
def nameBody (image : ClassImage) (body : StoredBody) (tables : BodyTables) :
    Step Places NamedBody := do
  let instructions ← body.instructions.toList.mapM fun (offset, instruction) => do
    return (offset, ← instruction.mapM (namePlace body))
  let handlers ← body.exceptionTable.mapM (image.nameHandler body)
  let _ ← tables.lines.toList.mapM fun (start, _) => namePlace body start
  let vars ← tables.vars.toList.mapM (image.nameVariable body)
  let frames ← tables.stackMap.mapM (nameFrame body)
  let lines := tables.lines.foldl
    (fun lines (start, line) => lines.insert start ((lines.getD start #[]).push line)) ∅
  return {
    maxStack := body.maxStack, maxLocals := body.maxLocals, size := body.size
    places := ← get, instructions, handlers, lines, vars
    frames := Std.HashMap.ofList frames
    attributes := tables.attributes.toList }

/-- Reads a method body and names its places. -/
def readNamedBody (image : ClassImage) (skip : Skip) (declaration : MethodDeclaration)
    (span : AttributeSpan) : Except ClassError NamedBody := do
  let body ← image.readBody span image.readStoredBody
  let tables ← body.attributes.foldlM (image.addTable skip declaration) ⟨#[], #[], [], #[]⟩
  match image.nameBody body tables Places.empty with
  | .ok named _ => return named
  | .error e _ => throw e

/-- The event of an instruction. -/
def instructionEvent (image : ClassImage) : Instruction Label → Except ClassError MethodEvent
  | .plain op => return .plain op
  | .intOperand op operand => return .intOperand op operand
  | .access op slot => return .access op slot
  | .typeOperand op cls => return .typeOperand op (← image.cls cls)
  | .field op member => do
    let m ← image.member member
    return .field op m.owner m.name m.descriptor
  | .method op member => do
    let m ← image.member member
    return .method op m.owner m.name m.descriptor m.ownerIsInterface
  | .invokeDynamic site => do
    match ← image.constant site with
    | .invokeDynamic position member =>
      let (name, descriptor) ← image.nameAndType member
      let (handle, arguments) ← image.bootstrap position
      return .invokeDynamic name descriptor handle arguments
    | _ => throw (.unexpectedConstant site .invokeDynamic)
  | .jump op target => return .jump op target
  | .load constant => return .load (← image.loadable constant)
  | .increment slot amount => return .increment slot amount
  | .tableSwitch low high fallback targets => return .tableSwitch low high fallback targets
  | .lookupSwitch fallback keys targets => return .lookupSwitch fallback keys targets
  | .newMultiArray cls dimensions => return .newMultiArray (← image.cls cls) dimensions

/-- The events that come before an instruction at an offset: its label, its lines and its frame. -/
def eventsBefore (body : NamedBody) (offset : Nat) : List MethodEvent :=
  match body.places.get? offset with
  | none => []
  | some label =>
    .label label ::
      ((body.lines.getD offset #[]).toList.map fun line => .lineNumber line label) ++
      match body.frames[offset]? with
      | none => []
      | some frame => [.frame frame.locals frame.stack]

/-- Tells instructions in order, each after the events that come before it. -/
def tellInstructions (image : ClassImage) (body : NamedBody) :
    List (Nat × Instruction Label) → Tell MethodEvent Unit
  | [] => pure ()
  | (offset, instruction) :: rest => do
    Tell.all (eventsBefore body offset)
    Tell.event (← Step.of (image.instructionEvent instruction))
    image.tellInstructions body rest

/-- Tells the events of a body. -/
def tellBody (image : ClassImage) (body : NamedBody) : Tell MethodEvent Unit := do
  Tell.event (.newLabels body.places.count)
  Tell.event .code
  Tell.all (body.handlers.map fun h => .handler h.start h.stop h.handler h.catchType)
  image.tellInstructions body body.instructions
  match body.places.get? body.size with
  | none => pure ()
  | some label => Tell.event (.label label)
  Tell.all (body.vars.map fun v => .localVariable v.name v.descriptor v.start v.stop v.slot)
  Tell.all (body.attributes.map .codeAttribute)
  Tell.event (.maxs body.maxStack body.maxLocals)

end ClassImage

end JvmClass
