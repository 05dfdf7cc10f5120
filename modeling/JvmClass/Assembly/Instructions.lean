import JvmClass.Assembly.MethodBuilder

/-!
# Writing instructions

Instructions are written in their shortest form: loads and stores of the first four locals in one
byte, a wide prefix only for large slots and increments, constants with a short index in two bytes,
and a jump that is known to go back too far for sixteen bits in its wide form.
-/

namespace JvmClass.MethodBuilder

open Opcode

/-- Begins the body at a first block. -/
def beginCode : Assemble Unit := do
  let entry ← newLabel
  let _ ← onGraph (LabelGraph.place entry 0)
  modify fun b => { b with entry := some entry, current := some entry }

/-- Writes an instruction without operands. -/
def plain (op : UInt8) : Assemble Unit := do
  let offset ← startInstruction
  write (·.putU8 op)
  record offset (.ok (.plain op))
  if leavesMethod op then endBlock

/-- Writes an instruction with a number: a constant to push, or the code of an element type. -/
def intOperand (op : UInt8) (operand : Int32) : Assemble Unit := do
  let offset ← startInstruction
  write (·.putU8 op)
  let n := operand.toInt
  if op = bipush then
    if -128 ≤ n && n ≤ 127 then write (·.putU8 operand.toInt8.toUInt8)
    else throw (.unsupportedInstruction .bytePush)
    record offset (.ok (.plain op))
  else if op = sipush then
    if -32768 ≤ n && n ≤ 32767 then write (·.putU16 operand.toInt16.toUInt16)
    else throw (.unsupportedInstruction .shortPush)
    record offset (.ok (.plain op))
  else if op = newarray then
    let element := if 0 ≤ n && n ≤ 255 then BaseType.ofArrayCode? (UInt8.ofNat n.toNat) else none
    match element with
    | none => throw (.unsupportedInstruction .arrayCode)
    | some element =>
      write (·.putU8 element.arrayCode)
      record offset (.ok (.newArray element))
  else throw (.invalidOpcode op offset)

/-- The one-byte form of a load or store of one of the first four locals. -/
def shortAccess (op : UInt8) (slot : UInt16) : UInt8 :=
  (if isStore op then istore_0 + (op - istore) * 4 else iload_0 + (op - iload) * 4) + slot.toUInt8

/-- The bytes of a load, a store or a return from a subroutine. -/
def accessBytes (op : UInt8) (slot : UInt16) : List UInt8 :=
  if op ≠ ret && slot < 4 then [shortAccess op slot]
  else if slot < 256 then [op, slot.toUInt8]
  else wide :: op :: bytes16 slot

/-- Writes a load, a store or a return from a subroutine. -/
def access (op : UInt8) (slot : UInt16) : Assemble Unit := do
  let offset ← startInstruction
  if op = ret && (← get).setting.compute.frames then
    throw (.unsupportedInstruction .subroutineReturn)
  if !(isLoad op || isStore op || op == ret) then throw (.invalidOpcode op offset)
  write (·.putAll (accessBytes op slot))
  touchLocal slot (if isWideAccess op then 2 else 1)
  record offset (.ok (.access op slot))
  if op = ret then endBlock
  else if isStore op then splitAfterStore

/-- The effect of an instruction that names a type. -/
def typeEffect (op : UInt8) (name : String) (offset : Nat) : Except ClassError Effect := do
  if op = new then return .new ⟨offset, ← ClassName.parse name⟩
  else if op = anewarray then return .newObjectArray (.ref (← RefType.ofInternalName name))
  else if op = checkcast then return .checkCast (← RefType.ofInternalName name)
  else if op = instanceof then return .plain instanceof
  else throw (.invalidOpcode op offset)

/-- Writes an instruction that names a type. -/
def typeOperand (op : UInt8) (name : String) : Assemble Unit := do
  let offset ← startInstruction
  let cls ← ask (ConstantPool.cls name)
  write fun code => (code.putU8 op).putU16 cls
  record offset (typeEffect op name offset)

/-- Writes an access to a field. -/
def field (op : UInt8) (owner name descriptor : String) : Assemble Unit := do
  let offset ← startInstruction
  let member ← ask (ConstantPool.fieldRef owner name descriptor)
  write fun code => (code.putU8 op).putU16 member
  record offset ((parseDescriptor FieldType descriptor).map (.field op))

/-- Writes a method call. A call through an interface also states how many slots it takes. -/
def method (op : UInt8) (owner name descriptor : String) (ownerIsInterface : Bool) :
    Assemble Unit := do
  let offset ← startInstruction
  let member ← ask (ConstantPool.methodRef owner name descriptor ownerIsInterface)
  let d ← Step.of (parseDescriptor MethodDescriptor descriptor)
  write fun code => (code.putU8 op).putU16 member
  if op = invokeinterface then
    write fun code => (code.putU8 (UInt8.ofNat (d.parameterSlots true))).putU8 0
  record offset (.ok (.invoke op (isConstructorName name) d))

/-- Writes a call at a call site that a bootstrap method links. -/
def invokeDynamic (name descriptor : String) (bootstrap : Handle) (arguments : List Loadable) :
    Assemble Unit := do
  let offset ← startInstruction
  let site ← ask (ConstantPool.invokeDynamic name descriptor bootstrap arguments)
  write fun code => ((code.putU8 invokedynamic).putU16 site).putU16 0
  record offset ((parseDescriptor MethodDescriptor descriptor).map .invokeDynamic)

/-- The form in which a jump is written: the wide one if its target is known to lie more than 32768
bytes back. -/
def jumpForm (b : MethodBuilder) (op : UInt8) (offset : Nat) (target : Label) : UInt8 :=
  match b.graph.position? target with
  | none => op
  | some position =>
    if position + 0x8000 < offset then
      if op = goto then goto_w else if op = jsr then jsr_w else op
    else op

/-- Writes a jump. -/
def jump (op : UInt8) (target : Label) : Assemble Unit := do
  let offset ← startInstruction
  if isSubroutineCall op && (← get).setting.compute.frames then
    throw (.unsupportedInstruction .subroutineCall)
  if !(isSubroutineCall op || isGoto op || isConditionalJump op) then
    throw (.invalidOpcode op offset)
  let form := (← get).jumpForm op offset target
  write (·.putU8 form)
  putFixup offset target (form == goto_w || form == jsr_w)
  record offset (.ok (.plain form))
  jumpTo target
  if isGoto form then endBlock else splitBlock

/-- Takes up a frame, unless frames are computed. Frames must come at increasing offsets. -/
def frame (layout : Layout LabelledType) : Assemble Unit := do
  let b ← get
  if b.entry.isNone then throw .codeNotStarted
  if !b.setting.compute.frames then
    let offset := b.code.size
    if b.givenFrames.back?.any fun (last, _) => offset ≤ last then
      throw (.malformedAttribute "StackMapTable" (.repeatedFrame offset))
    modify fun b => { b with givenFrames := b.givenFrames.push (offset, layout) }

/-- The type of a loaded constant. -/
def loadedType : Loadable → Except ClassError VType
  | .int _ => .ok .int
  | .float _ => .ok .float
  | .long _ => .ok .long
  | .double _ => .ok .double
  | .string _ => .ok (VType.instanceOf ClassName.string)
  | .cls _ => .ok (VType.instanceOf ClassName.classLiteral)
  | .methodType _ => .ok (VType.instanceOf ClassName.methodType)
  | .methodHandle _ => .ok (VType.instanceOf ClassName.methodHandle)
  | .dynamic _ descriptor _ _ => (parseDescriptor FieldType descriptor).map VType.ofField

/-- The bytes of an instruction that loads a constant. -/
def loadBytes (isWide : Bool) (index : PoolIndex) : List UInt8 :=
  if isWide then ldc2_w :: bytes16 index
  else if index < 256 then [ldc, index.toUInt8]
  else ldc_w :: bytes16 index

/-- Writes an instruction that loads a constant. -/
def load (value : Loadable) : Assemble Unit := do
  let offset ← startInstruction
  let index ← ask (ConstantPool.loadable value)
  write (·.putAll (loadBytes value.isWide index))
  record offset ((loadedType value).map .load)

/-- The bytes of an increment of a local variable. -/
def incrementBytes (slot : UInt16) (amount : Int16) : List UInt8 :=
  if 255 < slot || amount < -128 || 127 < amount then
    wide :: iinc :: (bytes16 slot ++ bytes16 amount.toUInt16)
  else [iinc, slot.toUInt8, amount.toInt8.toUInt8]

/-- Writes an increment of a local variable. -/
def increment (slot : UInt16) (amount : Int16) : Assemble Unit := do
  let offset ← startInstruction
  write (·.putAll (incrementBytes slot amount))
  touchLocal slot 1
  record offset (.ok (.increment slot))
  splitAfterStore

/-- Fills up to the next multiple of four with zeros. -/
def pad (code : Bytes) : Bytes :=
  code.putAll (List.replicate ((4 - code.size % 4) % 4) 0)

/-- Leaves room for the distances to targets. -/
def putTargets (source : Nat) : List Label → Assemble Unit
  | [] => pure ()
  | target :: rest => do
    putFixup source target true
    putTargets source rest

/-- Writes the keys of a switch, each before room for the distance to its target. -/
def putCases (source : Nat) : List (Int32 × Label) → Assemble Unit
  | [] => pure ()
  | (key, target) :: rest => do
    write (·.putU32 key.toUInt32)
    putFixup source target true
    putCases source rest

/-- Writes a switch over a range of keys, which must have a target for each. -/
def tableSwitch (low high : Int32) (fallback : Label) (targets : List Label) : Assemble Unit := do
  if high.toInt - low.toInt + 1 ≠ targets.length then
    throw (.unsupportedInstruction .tableTargets)
  let offset ← startInstruction
  write fun code => pad (code.putU8 tableswitch)
  putFixup offset fallback true
  write fun code => (code.putU32 low.toUInt32).putU32 high.toUInt32
  putTargets offset targets
  record offset (.ok (.plain tableswitch))
  jumpToAll (fallback :: targets)
  endBlock

/-- Writes a switch over a list of keys, which must have a target for each. -/
def lookupSwitch (fallback : Label) (keys : List Int32) (targets : List Label) :
    Assemble Unit := do
  if keys.length ≠ targets.length then throw (.unsupportedInstruction .lookupTargets)
  let offset ← startInstruction
  write fun code => pad (code.putU8 lookupswitch)
  putFixup offset fallback true
  write (·.putU32 (UInt32.ofNat keys.length))
  putCases offset (keys.zip targets)
  record offset (.ok (.plain lookupswitch))
  jumpToAll (fallback :: targets)
  endBlock

/-- Writes an instruction that makes an array of several dimensions. -/
def newMultiArray (descriptor : String) (dimensions : UInt8) : Assemble Unit := do
  let offset ← startInstruction
  let cls ← ask (ConstantPool.cls descriptor)
  write fun code => ((code.putU8 multianewarray).putU16 cls).putU8 dimensions
  record offset ((parseDescriptor RefType descriptor).map (.newMultiArray · dimensions))

/-- Takes up a local variable of the source, for which there must be locals. -/
def localVariable (v : VariableRange Label) : Assemble Unit := do
  touchLocal v.slot (if isWideDescriptor v.descriptor then 2 else 1)
  modify fun b => { b with vars := b.vars.push v }

end JvmClass.MethodBuilder
