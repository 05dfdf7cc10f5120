import JvmClass.Assembly.Instructions

/-!
# Completing method bodies

When the last instruction has been written, labels get their offsets and branch distances are filled
in. If frames are computed, every block that can be reached gets its frame, and a block that cannot
be is replaced by instructions that do nothing and end in a throw. The body then becomes an
attribute.
-/

namespace JvmClass

/-- The distance of a branch as it is stored, if it fits. -/
def Fixup.bytes (fixup : Fixup) (target : Nat) : Except ClassError (List UInt8) :=
  let distance := (target : Int) - fixup.source
  if fixup.wide then .ok (bytes32 (Int32.ofInt distance).toUInt32)
  else if -32768 ≤ distance && distance ≤ 32767 then
    .ok (bytes16 (Int16.ofInt distance).toUInt16)
  else .error (.branchOffsetOverflow fixup.source target)

namespace MethodBuilder

/-- Fills in branch distances in order. -/
def patch : List Fixup → Assemble Unit
  | [] => pure ()
  | fixup :: rest => do
    let target ← Step.of ((← get).graph.offset fixup.target)
    let bytes ← Step.of (fixup.bytes target)
    write (·.overwrite fixup.place bytes)
    patch rest

/-- The frame on entry to the method. -/
def entryFrame (b : MethodBuilder) : Frame :=
  Frame.entry b.setting.thisClass (!b.setting.flags.hasReceiver) b.setting.isConstructor
    b.setting.descriptor

/-- The distance from the frame before as it is stored: the first frame's is its offset. -/
def frameDelta (previous : Option Nat) (offset : Nat) : Except ClassError UInt16 :=
  match previous with
  | none =>
    if offset < 65536 then .ok (UInt16.ofNat offset) else .error (.methodCodeOverflow offset)
  | some previous =>
    if previous < offset && offset - previous - 1 < 65536 then
      .ok (UInt16.ofNat (offset - previous - 1))
    else .error (.methodCodeOverflow offset)

/-- The entries that store frames after a frame with the given layout and offset, after those made
so far in reverse. -/
def stackMapEntries (previous : Layout NamedType) (previousOffset : Option Nat)
    (done : List (StackMapEntry PooledType)) :
    List (Nat × Layout NamedType) → ConstantPool.Request (List (StackMapEntry PooledType))
  | [] => pure done.reverse
  | (offset, layout) :: rest => do
    let delta ← Step.of (frameDelta previousOffset offset)
    let entry ← (layout.entryAfter previous delta).resolve
    stackMapEntries layout (some offset) (entry :: done) rest

/-- The attribute that stores frames, the first one after the frame on entry. -/
def stackMapTable (entryLayout : Layout NamedType) (frames : List (Nat × Layout NamedType)) :
    ConstantPool.Request (List Attribute) := do
  if frames.isEmpty then return []
  let entries ← stackMapEntries entryLayout none [] frames
  let _ ← Step.of (count16 "stack map frames" entries.length)
  return [← Attribute.make (.stackMapTable entries)]

/-- A frame that was given, with its labels replaced by offsets. -/
def givenLayout (g : LabelGraph) (frame : Nat × Layout LabelledType) :
    Except ClassError (Nat × Layout NamedType) := do
  let nameType (t : LabelledType) : Except ClassError NamedType := t.mapM pure g.offset
  let locals ← frame.2.locals.mapM nameType
  let stack ← frame.2.stack.mapM nameType
  return (frame.1, ⟨locals, stack⟩)

/-- The attribute that stores the frames that were given. -/
def givenStackMap : Assemble (List Attribute) := do
  let b ← get
  let frames ← Step.of (b.givenFrames.toList.mapM (givenLayout b.graph))
  ask (stackMapTable b.entryFrame.layout frames)

/-- The bytes that replace unreachable code: as many as there were, of which the last one throws. -/
def deadBytes (size : Nat) : List UInt8 := List.replicate (size - 1) Opcode.nop ++ [Opcode.athrow]

/-- A label at the end of a block: the next block, or a new label at the end of the code. -/
def blockEnd (next : Option Label) : Assemble Label := do
  match next with
  | some next => return next
  | none =>
    let label ← newLabel
    let _ ← onGraph (LabelGraph.place label (← get).code.size)
    modify fun b => { b with graph := b.graph.resolve }
    return label

/-- Replaces an unreachable block by a throw, which no handler covers. -/
def replaceDead (block : Label) (next : Option Label) (start stop : Nat) : Assemble Unit := do
  write (·.overwrite start (deadBytes (stop - start)))
  let endLabel ← blockEnd next
  let graph := (← get).graph
  Step.on (fun b => b.handlers.toList) (fun b handlers => { b with handlers := handlers.toArray })
    (Handlers.removeRange graph block endLabel)

/-- Frames at their offsets, and whether a block was replaced. -/
structure FramePlan where
  /-- The frames in reverse order. -/
  frames : List (Nat × Frame) := []
  replaced : Bool := false

/-- Goes through the blocks in order: those that are reached and need a frame have theirs, and those
that are not reached are replaced. -/
def placeFrames (inputs : Std.HashMap Label Frame) (plan : FramePlan) :
    List Label → Assemble FramePlan
  | [] => return plan
  | block :: rest => do
    let b ← get
    let start ← Step.of (b.graph.offset block)
    let stop ← match rest.head? with
      | some next => Step.of (b.graph.offset next)
      | none => pure b.code.size
    let flags := b.graph.flags block
    match inputs[block]? with
    | some frame =>
      let frames := if flags.target then (start, frame) :: plan.frames else plan.frames
      placeFrames inputs { plan with frames } rest
    | none =>
      if start < stop && !flags.reachable then
        replaceDead block rest.head? start stop
        placeFrames inputs ⟨(start, Frame.unreachable) :: plan.frames, true⟩ rest
      else placeFrames inputs plan rest

/-- Computes the frames of a body. The answer has the greatest stack height and the attribute that
stores the frames. -/
def computeFrames (entry : Label) : Assemble (Nat × List Attribute) := do
  let b ← get
  let flow : FlowSetting :=
    { graph := b.graph, blocks := b.blocks, hierarchy := b.setting.hierarchy
      thisClass := b.setting.thisClass }
  let inputs ← Step.of (flow.inputs entry b.entryFrame)
  modify fun b =>
    { b with graph := inputs.frames.fold (fun g block _ => g.markReachable block) b.graph }
  let plan ← placeFrames inputs.frames {} (← get).graph.blocks
  let maxStack := if plan.replaced then max inputs.maxStack 1 else inputs.maxStack
  if 65536 ≤ maxStack then throw (.maxStackOverflow maxStack)
  let layouts := plan.frames.reverse.map fun (offset, frame) => (offset, frame.layout)
  let attributes ← ask (stackMapTable b.entryFrame.layout layouts)
  return (maxStack, attributes)

/-- What is said about the stack and the locals of a body. -/
structure Limits where
  maxStack : UInt16
  maxLocals : Nat
  stackMap : List Attribute

/-- The maximums and frames of a body, computed or as given. -/
def limits (entry : Label) (stack locals : UInt16) : Assemble Limits := do
  let b ← get
  if b.setting.compute.frames then
    onGraph (Handlers.completeTyped b.handlers.toList)
    let (maxStack, stackMap) ← computeFrames entry
    return ⟨UInt16.ofNat maxStack, (← get).maxLocals, stackMap⟩
  else if b.setting.compute.computesMaxs then
    onGraph (Handlers.complete b.handlers.toList)
    let b ← get
    let maxStack := (b.graph.maxStack b.blocks entry).toNat
    if 65536 ≤ maxStack then throw (.maxStackOverflow maxStack)
    let stackMap ← givenStackMap
    return ⟨UInt16.ofNat maxStack, (← get).maxLocals, stackMap⟩
  else
    let stackMap ← givenStackMap
    return ⟨stack, locals.toNat, stackMap⟩

/-- The stored exception table. -/
def exceptionTable : Assemble Bytes := do
  let b ← get
  let _ ← Step.of (Handlers.byteSize b.graph b.handlers.toList)
  ask fun pool =>
    match Handlers.put b.graph b.handlers.toList ⟨pool, #[]⟩ with
    | .ok _ s => .ok s.out s.pool
    | .error e s => .error e s.pool

/-- Ends the body. -/
def finishBody (stack locals : UInt16) : Assemble Unit := do
  match (← get).entry with
  | none => throw .codeNotStarted
  | some entry =>
    let size := (← get).code.size
    if 65536 ≤ size then throw (.methodCodeOverflow size)
    modify fun b => { b with graph := b.graph.resolve }
    patch (← get).fixups.toList
    let limits ← limits entry stack locals
    if 65536 ≤ limits.maxLocals then throw (.maxLocalsOverflow limits.maxLocals)
    let table ← exceptionTable
    let b ← get
    set { b with lines := #[] }
    let lines ← ask (b.graph.lineNumberTable b.lines.toList)
    modify fun b => { b with vars := #[] }
    let vars ← ask (b.graph.localVariableTable b.vars.toList)
    modify fun b => { b with codeAttributes := #[] }
    let raw ← ask (Attribute.makeRaw b.codeAttributes.toList)
    let attributes := lines ++ vars ++ raw ++ limits.stackMap
    let _ ← Step.of (count16 "code attributes" attributes.length)
    let code := (← get).code
    modify fun b => { b with code := #[] }
    let body ← ask (Attribute.make
      (.code limits.maxStack (UInt16.ofNat limits.maxLocals) code table attributes))
    modify fun b => { b with body := some body }

/-- The attribute of the exceptions that a method declares, if there are any. -/
def exceptionsAttribute (exceptions : List String) : ConstantPool.Request (List Attribute) := do
  if exceptions.isEmpty then return []
  let classes ← ConstantPool.classes exceptions
  let _ ← Step.of (count16 "exceptions" classes.length)
  return [← Attribute.make (.exceptions classes)]

/-- Completes the method. -/
def finish : Assemble Unit := do
  let b ← get
  set { b with body := none }
  let exceptions ← ask (exceptionsAttribute b.setting.exceptions)
  let signature ← ask do Attribute.makeSignature (← ConstantPool.utf8? b.setting.signature)
  let annotations ← ask (Attribute.makeAnnotations b.annotations.toList)
  modify fun b => { b with attributes := #[] }
  let raw ← ask (Attribute.makeRaw b.attributes.toList)
  let attributes := b.body.toList ++ exceptions ++ signature ++ annotations ++ raw
  let _ ← Step.of (count16 "method attributes" attributes.length)
  modify fun b =>
    { b with
      finished := b.finished.push ⟨b.setting.flags.bits, b.setting.nameIndex,
        b.setting.descriptorIndex, attributes⟩ }

/-- Takes up an event of the method. -/
def feed : MethodEvent → Assemble Unit
  | .annotated a visible =>
    modify fun b => { b with annotations := b.annotations.push (a, visible) }
  | .attribute a => do
    Step.of (a.check (← get).setting.copiedPool)
    modify fun b => { b with attributes := b.attributes.push a }
  | .newLabels count => modify fun b => { b with graph := b.graph.addLabels count }
  | .code => beginCode
  | .plain op => plain op
  | .intOperand op operand => intOperand op operand
  | .access op slot => access op slot
  | .typeOperand op name => typeOperand op name
  | .field op owner name descriptor => field op owner name descriptor
  | .method op owner name descriptor ownerIsInterface =>
    method op owner name descriptor ownerIsInterface
  | .invokeDynamic name descriptor bootstrap arguments =>
    invokeDynamic name descriptor bootstrap arguments
  | .jump op target => jump op target
  | .label label => placeLabel label
  | .frame locals stack => frame ⟨locals, stack⟩
  | .load value => load value
  | .increment slot amount => increment slot amount
  | .tableSwitch low high fallback targets => tableSwitch low high fallback targets
  | .lookupSwitch fallback keys targets => lookupSwitch fallback keys targets
  | .newMultiArray descriptor dimensions => newMultiArray descriptor dimensions
  | .handler start stop handler catchType =>
    modify fun b => { b with handlers := b.handlers.push ⟨start, stop, handler, catchType⟩ }
  | .localVariable name descriptor start stop slot =>
    localVariable ⟨name, descriptor, start, stop, slot⟩
  | .lineNumber line start => modify fun b => { b with lines := b.lines.push (line, start) }
  | .codeAttribute a => do
    Step.of (a.check (← get).setting.copiedPool)
    modify fun b => { b with codeAttributes := b.codeAttributes.push a }
  | .maxs stack locals => finishBody stack locals
  | .finish => finish

end MethodBuilder

end JvmClass
