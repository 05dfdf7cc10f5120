import JvmClass.Constant.Basic
import JvmClass.Cursor

/-!
# Reading the constant pool

The pool section is a count and the entries. The count is one more than the last index, and an entry
of eight bytes takes two indices.
-/

namespace JvmClass

namespace Constant

/-- Reads the payload of an entry with a tag, which is to stand at an index. -/
def readPayload (index : PoolIndex) (tag : UInt8) : Scan Constant := do
  if tag = 1 then
    let size ← Scan.u16
    let bytes ← Scan.bytes size.toNat
    match Text.ModifiedUtf8.decode? bytes.toList with
    | some text => return .utf8 text
    | none => throw (.malformedUtf8 index)
  else if tag = 3 then return .int (← Scan.i32)
  else if tag = 4 then return .float (← Scan.u32)
  else if tag = 5 then return .long (← Scan.i64)
  else if tag = 6 then return .double (← Scan.u64)
  else if tag = 7 then return .cls (← Scan.u16)
  else if tag = 8 then return .string (← Scan.u16)
  else if tag = 9 then
    let owner ← Scan.u16
    return .fieldRef owner (← Scan.u16)
  else if tag = 10 || tag = 11 then
    let owner ← Scan.u16
    return .methodRef owner (← Scan.u16) (tag = 11)
  else if tag = 12 then
    let name ← Scan.u16
    return .nameAndType name (← Scan.u16)
  else if tag = 15 then
    let code ← Scan.u8
    match HandleKind.ofCode? code with
    | some kind => return .methodHandle kind (← Scan.u16)
    | none => throw (.invalidHandleKind code index)
  else if tag = 16 then return .methodType (← Scan.u16)
  else if tag = 17 then
    let bootstrap ← Scan.u16
    return .dynamic bootstrap (← Scan.u16)
  else if tag = 18 then
    let bootstrap ← Scan.u16
    return .invokeDynamic bootstrap (← Scan.u16)
  else if tag = 19 then return .module (← Scan.u16)
  else if tag = 20 then return .package (← Scan.u16)
  else throw (.invalidConstantTag tag index)

/-- Reads an entry, which is to stand at an index. -/
def read (index : PoolIndex) : Scan Constant := do readPayload index (← Scan.u8)

/-- Reads entries until their indices reach the count; each takes at least one, so that at most
`budget` of them follow. -/
def readEntries (count : UInt16) : (budget : Nat) → SlotVec Constant → Scan (SlotVec Constant)
  | 0, entries => pure entries
  | budget + 1, entries => do
    if entries.nextOffset < count.toNat then
      let entry ← read (UInt16.ofNat entries.nextOffset)
      let entries := entries.push entry
      if entries.nextOffset < 65536 then readEntries count budget entries
      else throw (.invalidConstantIndex count)
    else return entries

/-- Reads the pool section. -/
def readPool : Scan (SlotVec Constant) := do
  let count ← Scan.u16
  readEntries count count.toNat (SlotVec.startingAt 1)

end Constant

end JvmClass
