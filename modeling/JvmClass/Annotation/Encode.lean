import JvmClass.Annotation.Basic
import JvmClass.Constant.Pool

/-!
# Storing annotations

Annotations are stored as indices into the constant pool. Storing one asks the pool for its texts
and values in the order in which they are written, and keeps what was written before a failure.
-/

namespace JvmClass

/-- A pool and the bytes stored against it. -/
structure PoolOutput where
  pool : ConstantPool
  out : Bytes
deriving Inhabited

/-- Storing a structure against a pool. -/
abbrev Store := Step PoolOutput

namespace Store

/-- Asks the pool for a constant and appends its index. -/
def index (request : ConstantPool.Request PoolIndex) : Store Unit := do
  let index ← Step.on PoolOutput.pool (fun s pool => { s with pool }) request
  modify fun s => { s with out := s.out.putU16 index }

def u8 (n : UInt8) : Store Unit := modify fun s => { s with out := s.out.putU8 n }

/-- Appends a count, if it fits in sixteen bits. -/
def count (what : String) (n : Nat) : Store Unit := do
  let n ← Step.of (count16 what n)
  modify fun s => { s with out := s.out.putU16 n }

end Store

open ConstantPool (utf8)

mutual

/-- Stores the value of an element: its tag and then its constants. -/
def ElementValue.store (v : ElementValue) : Store Unit := do
  Store.u8 v.tagByte
  match v with
  | .byte value => Store.index (ConstantPool.int value.toInt32)
  | .char unit => Store.index (ConstantPool.int (Int32.ofNat unit.toNat))
  | .short value => Store.index (ConstantPool.int value.toInt32)
  | .boolean value => Store.index (ConstantPool.int (if value then 1 else 0))
  | .int value => Store.index (ConstantPool.int value)
  | .long value => Store.index (ConstantPool.long value)
  | .float bits => Store.index (ConstantPool.float bits)
  | .double bits => Store.index (ConstantPool.double bits)
  | .string text => Store.index (utf8 text)
  | .enum descriptor name =>
    Store.index (utf8 descriptor)
    Store.index (utf8 name)
  | .cls descriptor => Store.index (utf8 descriptor)
  | .nested descriptor elements =>
    Store.index (utf8 descriptor)
    Store.count "annotation elements" elements.length
    storeElements elements
  | .array values =>
    Store.count "annotation array elements" values.length
    storeValues values

/-- Stores the elements of an annotation, each behind its name. -/
def storeElements : List (String × ElementValue) → Store Unit
  | [] => pure ()
  | (name, value) :: rest => do
    Store.index (utf8 name)
    value.store
    storeElements rest

/-- Stores the values of an array. -/
def storeValues : List ElementValue → Store Unit
  | [] => pure ()
  | value :: rest => do
    value.store
    storeValues rest

end

/-- Stores an annotation: its descriptor, the number of its elements, and the elements. -/
def Annotation.store (a : Annotation) : Store Unit := do
  Store.index (utf8 a.descriptor)
  Store.count "annotation elements" a.elements.length
  storeElements a.elements

/-- Stores annotations in order. -/
def storeAnnotations : List Annotation → Store Unit
  | [] => pure ()
  | a :: rest => do
    a.store
    storeAnnotations rest

end JvmClass
