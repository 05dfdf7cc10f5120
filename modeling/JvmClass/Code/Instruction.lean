import JvmClass.Code.Opcode
import JvmClass.Cursor

/-!
# Instructions in a code array

An instruction as it stands in a code array: constants are given by pool index. How a place in the
code is given is a parameter: by offset when an array is read, by label once the places are named.
Short forms of loads and stores, and wide forms, read as the instructions that they abbreviate. The
instructions of an array are found by reading one after another from its start.
-/

namespace JvmClass

/-- An instruction of a code array, in which places of the code are given by `P`. -/
inductive Instruction (P : Type) where
  | plain (opcode : UInt8)
  | intOperand (opcode : UInt8) (operand : Int32)
  | access (opcode : UInt8) (slot : UInt16)
  | typeOperand (opcode : UInt8) (cls : UInt16)
  | field (opcode : UInt8) (member : UInt16)
  | method (opcode : UInt8) (member : UInt16)
  | invokeDynamic (site : UInt16)
  | jump (opcode : UInt8) (target : P)
  | load (constant : UInt16)
  | increment (slot : UInt16) (amount : Int16)
  | tableSwitch (low high : Int32) (fallback : P) (targets : List P)
  | lookupSwitch (fallback : P) (keys : List Int32) (targets : List P)
  | newMultiArray (cls : UInt16) (dimensions : UInt8)
deriving DecidableEq, Inhabited

namespace Instruction

/-- The offset that an instruction jumps to, given the distance that it stores. -/
def target (offset : Nat) (distance : Int) : Except ClassError Nat :=
  let place := (offset : Int) + distance
  if 0 ≤ place && place < 4294967296 then .ok place.toNat
  else .error (.malformedAttribute "Code" (.branchBeforeStart offset))

/-- Reads a jump distance of sixteen bits. -/
def readTarget16 (offset : Nat) : Scan Nat := do
  Step.of (target offset (← Scan.i16).toInt)

/-- Reads a jump distance of thirty-two bits. -/
def readTarget32 (offset : Nat) : Scan Nat := do
  Step.of (target offset (← Scan.i32).toInt)

/-- Moves to the next multiple of four from the start of the code. -/
def skipPadding : Scan Unit := do
  Scan.skip ((4 - (← get).offset % 4) % 4)

/-- The entries of a switch must lie within the code. -/
def checkSwitch (offset count entrySize : Nat) : Scan Unit := do
  if (← get).remaining < count * entrySize then
    throw (.malformedAttribute "Code" (.switchPastEnd offset count))

/-- Reads the operands of a switch over a range of keys. -/
def readTableSwitch (offset : Nat) : Scan (Instruction Nat) := do
  skipPadding
  let fallback ← readTarget32 offset
  let low ← Scan.i32
  let high ← Scan.i32
  let count := high.toInt - low.toInt + 1
  if count < 0 then
    throw (.malformedAttribute "Code" (.emptyRange offset low.toInt high.toInt))
  checkSwitch offset count.toNat 4
  return .tableSwitch low high fallback (← Scan.times count.toNat (readTarget32 offset))

/-- Reads the operands of a switch over a list of keys. -/
def readLookupSwitch (offset : Nat) : Scan (Instruction Nat) := do
  skipPadding
  let fallback ← readTarget32 offset
  let count := (← Scan.i32).toInt.toNat
  checkSwitch offset count 8
  let entries ← Scan.times count do
    let key ← Scan.i32
    return (key, ← readTarget32 offset)
  return .lookupSwitch fallback (entries.map Prod.fst) (entries.map Prod.snd)

open Opcode in
/-- Reads the operands of an instruction that a wide prefix introduces. -/
def readWide (offset : Nat) : Scan (Instruction Nat) := do
  let op ← Scan.u8
  if op = iinc then
    let slot ← Scan.u16
    return .increment slot (← Scan.i16)
  else if isLoad op || isStore op || op = ret then return .access op (← Scan.u16)
  else throw (.invalidOpcode op offset)

open Opcode in
/-- Whether an instruction consists of its code alone. -/
def isPlain (op : UInt8) : Bool :=
  op ≤ dconst_1 || within iaload op saload || within iastore op lxor || within i2l op dcmpg ||
    within ireturn op return_void || op = arraylength || op = athrow || op = monitorenter ||
    op = monitorexit

open Opcode in
/-- Reads the operands of an instruction that starts at an offset. -/
def readOperands (offset : Nat) (op : UInt8) : Scan (Instruction Nat) := do
  if isPlain op then return .plain op
  else if op = bipush then return .intOperand op (← Scan.i8).toInt32
  else if op = sipush then return .intOperand op (← Scan.i16).toInt32
  else if op = newarray then return .intOperand op (Int32.ofNat (← Scan.u8).toNat)
  else if op = ldc then return .load (← Scan.u8).toUInt16
  else if op = ldc_w || op = ldc2_w then return .load (← Scan.u16)
  else if isLoad op || isStore op || op = ret then return .access op (← Scan.u8).toUInt16
  else if within iload_0 op aload_3 then
    let short := op - iload_0
    return .access (iload + short / 4) (short % 4).toUInt16
  else if within istore_0 op astore_3 then
    let short := op - istore_0
    return .access (istore + short / 4) (short % 4).toUInt16
  else if op = iinc then
    let slot ← Scan.u8
    return .increment slot.toUInt16 (← Scan.i8).toInt16
  else if within ifeq op jsr || op = ifnull || op = ifnonnull then
    return .jump op (← readTarget16 offset)
  else if op = goto_w || op = jsr_w then return .jump op (← readTarget32 offset)
  else if op = tableswitch then readTableSwitch offset
  else if op = lookupswitch then readLookupSwitch offset
  else if within getstatic op putfield then return .field op (← Scan.u16)
  else if within invokevirtual op invokestatic then return .method op (← Scan.u16)
  else if op = invokeinterface then
    let member ← Scan.u16
    Scan.skip 2
    return .method op member
  else if op = invokedynamic then
    let site ← Scan.u16
    Scan.skip 2
    return .invokeDynamic site
  else if op = new || op = anewarray || op = checkcast || op = instanceof then
    return .typeOperand op (← Scan.u16)
  else if op = wide then readWide offset
  else if op = multianewarray then
    let cls ← Scan.u16
    return .newMultiArray cls (← Scan.u8)
  else throw (.invalidOpcode op offset)

/-- Reads an instruction and the offset at which it starts. -/
def read : Scan (Nat × Instruction Nat) := do
  let offset := (← get).offset
  let op ← Scan.u8
  return (offset, ← readOperands offset op)

/-- Reads instructions up to the end of the code, after those read so far. Each takes at least one
byte, so that at most `budget` of them follow. -/
def readAll (done : Array (Nat × Instruction Nat)) :
    (budget : Nat) → Scan (Array (Nat × Instruction Nat))
  | 0 => pure done
  | budget + 1 => do
    let c ← get
    if c.offset < c.data.size then readAll (done.push (← read)) budget
    else return done

/-- The instructions of a code array with their offsets. -/
def decode (code : Bytes) : Except ClassError (Array (Nat × Instruction Nat)) :=
  Scan.runAt code 0 (readAll #[] code.size)

/-- Whether an instruction starts at an offset. -/
def startsAt (instructions : Array (Nat × Instruction Nat)) (offset : Nat) : Bool :=
  let index := partitionPoint instructions.size fun i =>
    match instructions[i]? with
    | some (start, _) => decide (start < offset)
    | none => false
  match instructions[index]? with
  | some (start, _) => start == offset
  | none => false

/-- The places that an instruction refers to, a switch's fallback before its targets. -/
def places {P : Type} : Instruction P → List P
  | jump _ target => [target]
  | tableSwitch _ _ fallback targets | lookupSwitch fallback _ targets => fallback :: targets
  | _ => []

/-- Names the places that an instruction refers to in another way. -/
def mapM {m : Type → Type} [Monad m] {P Q : Type} (f : P → m Q) :
    Instruction P → m (Instruction Q)
  | plain op => pure (plain op)
  | intOperand op operand => pure (intOperand op operand)
  | access op slot => pure (access op slot)
  | typeOperand op cls => pure (typeOperand op cls)
  | field op member => pure (field op member)
  | method op member => pure (method op member)
  | invokeDynamic site => pure (invokeDynamic site)
  | jump op target => do return jump op (← f target)
  | load constant => pure (load constant)
  | increment slot amount => pure (increment slot amount)
  | tableSwitch low high fallback targets => do
    let fallback ← f fallback
    return tableSwitch low high fallback (← targets.mapM f)
  | lookupSwitch fallback keys targets => do
    let fallback ← f fallback
    return lookupSwitch fallback keys (← targets.mapM f)
  | newMultiArray cls dimensions => pure (newMultiArray cls dimensions)

end Instruction

end JvmClass
