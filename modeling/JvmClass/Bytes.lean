import JvmClass.Error
import JvmClass.Text.ModifiedUtf8

/-!
# Bytes

Class files store numbers with their most significant byte first. This module has the bytes of the
numbers, the reading of numbers from bytes, and `Put`, in which structures are appended to an output
that keeps what was written before a failure.
-/

namespace JvmClass

/-- A sequence of bytes. -/
abbrev Bytes := Array UInt8

/-- The bytes of a 16-bit number. -/
def bytes16 (n : UInt16) : List UInt8 := [(n >>> 8).toUInt8, n.toUInt8]

/-- The bytes of a 32-bit number. -/
def bytes32 (n : UInt32) : List UInt8 :=
  [(n >>> 24).toUInt8, (n >>> 16).toUInt8, (n >>> 8).toUInt8, n.toUInt8]

/-- The bytes of a 64-bit number. -/
def bytes64 (n : UInt64) : List UInt8 :=
  [(n >>> 56).toUInt8, (n >>> 48).toUInt8, (n >>> 40).toUInt8, (n >>> 32).toUInt8,
    (n >>> 24).toUInt8, (n >>> 16).toUInt8, (n >>> 8).toUInt8, n.toUInt8]

/-- The 16-bit number of two bytes. -/
def join16 (a b : UInt8) : UInt16 := a.toUInt16 <<< 8 ||| b.toUInt16

/-- The 32-bit number of four bytes. -/
def join32 (a b c d : UInt8) : UInt32 := (join16 a b).toUInt32 <<< 16 ||| (join16 c d).toUInt32

/-- The 64-bit number of two halves. -/
def join64 (high low : UInt32) : UInt64 := high.toUInt64 <<< 32 ||| low.toUInt64

namespace Bytes

/-- Appends bytes. -/
def putAll (out : Bytes) (bytes : List UInt8) : Bytes := bytes.foldl Array.push out

def putU8 (out : Bytes) (n : UInt8) : Bytes := out.push n

def putU16 (out : Bytes) (n : UInt16) : Bytes := out.putAll (bytes16 n)

def putU32 (out : Bytes) (n : UInt32) : Bytes := out.putAll (bytes32 n)

def putU64 (out : Bytes) (n : UInt64) : Bytes := out.putAll (bytes64 n)

/-- Appends the size of the stored form of a text and that form; a text whose stored form is longer
than 65535 bytes cannot be written. -/
def putUtf8 (out : Bytes) (text : String) : Except ClassError Bytes :=
  let size := Text.ModifiedUtf8.encodedSize text
  if size < 65536 then
    .ok ((out.putU16 (UInt16.ofNat size)).putAll (Text.ModifiedUtf8.encode text))
  else .error (.stringTooLong size)

/-- Replaces bytes from an offset on, as far as there are any. -/
def overwrite (out : Bytes) (offset : Nat) : List UInt8 → Bytes
  | [] => out
  | b :: rest => overwrite (out.setIfInBounds offset b) (offset + 1) rest

end Bytes

/-- Appending a structure to an output, which may fail half way. -/
abbrev Put := EStateM StoreFault Bytes

namespace Put

def u8 (n : UInt8) : Put Unit := modify (·.putU8 n)

def u16 (n : UInt16) : Put Unit := modify (·.putU16 n)

def u32 (n : UInt32) : Put Unit := modify (·.putU32 n)

def all (bytes : List UInt8) : Put Unit := modify (·.putAll bytes)

/-- Appends the bytes of an output. -/
def bytes (other : Bytes) : Put Unit := modify (· ++ other)

/-- Appends structures in order. -/
def each {α : Type} (put : α → Put Unit) : List α → Put Unit
  | [] => pure ()
  | a :: rest => do
    put a
    each put rest

/-- Appends a count in sixteen bits, if it fits, and then structures in order. -/
def counted {α : Type} (put : α → Put Unit) (items : List α) : Put Unit := do
  if items.length < 65536 then
    u16 (UInt16.ofNat items.length)
    each put items
  else throw (.sequenceTooLong items.length)

end Put

/-- Appends a structure and compares the number of bytes written with the number declared. -/
def putSized (what : String) (declared : Nat) (put : Put Unit) : Step Bytes Unit := fun out =>
  let start := out.size
  match put out with
  | .error fault out => .error (.store fault) out
  | .ok _ out =>
    let written := out.size - start
    if written = declared then .ok () out else .error (.sizeMismatch what declared written) out

end JvmClass
