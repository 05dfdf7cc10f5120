import JvmClass.Code.Opcode
import JvmClass.Typing.Frame

/-!
# Effects of instructions

An instruction as the verifier sees it: what it does to the types on the stack and in the local
variables. Branch targets are kept elsewhere, and pool indices are replaced by the types they stand
for.

`stackDelta` is the change in stack height that an instruction makes whatever the types are; it
serves when only the greatest stack height is wanted.
-/

namespace JvmClass

/-- An instruction as the verifier sees it. -/
inductive Effect where
  /-- The effect follows from the code alone. -/
  | plain (opcode : UInt8)
  /-- Loads a constant of a type. -/
  | load (type : VType)
  /-- A load, a store, or a return from a subroutine, in its long form. -/
  | access (opcode : UInt8) (slot : UInt16)
  | increment (slot : UInt16)
  | newArray (element : BaseType)
  | newObjectArray (element : FieldType)
  | new (allocation : Allocation)
  | checkCast (type : RefType)
  | field (opcode : UInt8) (type : FieldType)
  | invoke (opcode : UInt8) (isConstructor : Bool) (descriptor : MethodDescriptor)
  | invokeDynamic (descriptor : MethodDescriptor)
  | newMultiArray (type : RefType) (dimensions : UInt8)
deriving Inhabited

/-- The stack instructions that move groups of slots about. -/
inductive Shuffle where
  | pop | pop2 | dup | dup_x1 | dup_x2 | dup2 | dup2_x1 | dup2_x2 | swap
deriving DecidableEq

namespace Shuffle

/-- The sizes in slots of the groups that are taken off the stack, the topmost first. -/
def groups : Shuffle → List Nat
  | pop => [1] | pop2 => [2] | dup => [1] | dup_x1 => [1, 1] | dup_x2 => [1, 2]
  | dup2 => [2] | dup2_x1 => [2, 1] | dup2_x2 => [2, 2] | swap => [1, 1]

/-- The groups that are put back, from the bottom up, by their place in `groups`. -/
def result : Shuffle → List Nat
  | pop | pop2 => []
  | dup | dup2 => [0, 0]
  | dup_x1 | dup_x2 | dup2_x1 | dup2_x2 => [0, 1, 0]
  | swap => [0, 1]

end Shuffle

/-- What a plain instruction does to the stack. -/
inductive PlainEffect where
  | nothing
  | push (type : VType)
  /-- Takes entries and leaves one of a type. -/
  | replace (entries : Nat) (type : VType)
  /-- Takes entries. -/
  | drop (entries : Nat)
  /-- Takes an index and an array of references, and leaves an element. -/
  | loadElement
  | shuffle (which : Shuffle)
deriving DecidableEq

/-- The value types in the order in which codes come per type. -/
def arithmeticType (n : UInt8) : VType :=
  if n = 0 then .int else if n = 1 then .long else if n = 2 then .float else .double

open Opcode in
/-- The effect of a plain instruction, if it is one that can be simulated. -/
def PlainEffect.of? (op : UInt8) : Option PlainEffect :=
  if op = nop then some .nothing
  else if op = aconst_null then some (.push .null)
  else if op ≤ iconst_5 then some (.push .int)
  else if op ≤ lconst_1 then some (.push .long)
  else if op ≤ fconst_2 then some (.push .float)
  else if op ≤ dconst_1 then some (.push .double)
  else if op ≤ sipush then some (.push .int)
  else if op < iaload then none
  else if op = iaload then some (.replace 2 .int)
  else if op = laload then some (.replace 2 .long)
  else if op = faload then some (.replace 2 .float)
  else if op = daload then some (.replace 2 .double)
  else if op = aaload then some .loadElement
  else if op ≤ saload then some (.replace 2 .int)
  else if op < iastore then none
  else if op ≤ sastore then some (.drop 3)
  else if op = Opcode.pop then some (.shuffle .pop)
  else if op = Opcode.pop2 then some (.shuffle .pop2)
  else if op = Opcode.dup then some (.shuffle .dup)
  else if op = Opcode.dup_x1 then some (.shuffle .dup_x1)
  else if op = Opcode.dup_x2 then some (.shuffle .dup_x2)
  else if op = Opcode.dup2 then some (.shuffle .dup2)
  else if op = Opcode.dup2_x1 then some (.shuffle .dup2_x1)
  else if op = Opcode.dup2_x2 then some (.shuffle .dup2_x2)
  else if op = Opcode.swap then some (.shuffle .swap)
  else if op ≤ drem then some (.replace 2 (arithmeticType ((op - iadd) % 4)))
  else if op ≤ dneg then some (.replace 1 (arithmeticType (op - ineg)))
  else if op ≤ lxor then some (.replace 2 (arithmeticType ((op - ishl) % 2)))
  else if op = iinc then none
  else if op = i2l || op = f2l || op = d2l then some (.replace 1 .long)
  else if op = i2f || op = l2f || op = d2f then some (.replace 1 .float)
  else if op = i2d || op = l2d || op = f2d then some (.replace 1 .double)
  else if op ≤ i2s then some (.replace 1 .int)
  else if op ≤ dcmpg then some (.replace 2 .int)
  else if op ≤ ifle then some (.drop 1)
  else if op ≤ if_acmpne then some (.drop 2)
  else if op = goto then some .nothing
  else if op ≤ ret then none
  else if op ≤ areturn then some (.drop 1)
  else if op = return_void then some .nothing
  else if op < arraylength then none
  else if op = arraylength || op = instanceof then some (.replace 1 .int)
  else if op = athrow || op = monitorenter || op = monitorexit then some (.drop 1)
  else if op = ifnull || op = ifnonnull then some (.drop 1)
  else if op = goto_w then some .nothing
  else none

open Opcode in
/-- The change in stack slots that a plain instruction makes; none for codes that are not plain. -/
def plainDelta (op : UInt8) : Int :=
  if op = nop then 0
  else if op ≤ iconst_5 then 1
  else if op ≤ lconst_1 then 2
  else if op ≤ fconst_2 then 1
  else if op ≤ dconst_1 then 2
  else if op ≤ sipush then 1
  else if op < iaload then 0
  else if op = laload || op = daload then 0
  else if op ≤ saload then -1
  else if op < iastore then 0
  else if op = lastore || op = dastore then -4
  else if op ≤ sastore then -3
  else if op = Opcode.pop then -1
  else if op = Opcode.pop2 then -2
  else if op ≤ Opcode.dup_x2 then 1
  else if op ≤ Opcode.dup2_x2 then 2
  else if op = Opcode.swap then 0
  else if op ≤ drem then if (op - iadd) % 2 = 0 then -1 else -2
  else if op ≤ dneg then 0
  else if op ≤ lushr then -1
  else if op ≤ lxor then if (op - iand) % 2 = 0 then -1 else -2
  else if op = iinc then 0
  else if op = i2l || op = i2d || op = f2l || op = f2d then 1
  else if op = l2i || op = l2f || op = d2i || op = d2f then -1
  else if op ≤ i2s then 0
  else if op = lcmp || op = dcmpl || op = dcmpg then -3
  else if op ≤ ifle then -1
  else if op ≤ if_acmpne then -2
  else if op = goto then 0
  else if op = jsr then 1
  else if op = ret then 0
  else if op = lreturn || op = dreturn then -2
  else if op ≤ areturn then -1
  else if op < athrow then 0
  else if op = athrow || op = monitorenter || op = monitorexit then -1
  else if op = ifnull || op = ifnonnull then -1
  else if op = jsr_w then 1
  else 0

/-- The change in stack slots that an instruction makes. -/
def Effect.stackDelta : Effect → Int
  | plain op => plainDelta op
  | load type => type.width
  | access op _ =>
    let width : Int := if Opcode.isWideAccess op then 2 else 1
    if Opcode.isLoad op then width else if Opcode.isStore op then -width else 0
  | increment _ | newArray _ | newObjectArray _ | checkCast _ => 0
  | new _ => 1
  | field op type =>
    if op = Opcode.getstatic then type.width
    else if op = Opcode.putstatic then -type.width
    else if op = Opcode.getfield then type.width - 1
    else -type.width - 1
  | invoke op _ d => d.returnSlots - d.parameterSlots (op != Opcode.invokestatic)
  | invokeDynamic d => d.returnSlots - d.parameterSlots false
  | newMultiArray _ dimensions => 1 - (dimensions.toNat : Int)

end JvmClass
