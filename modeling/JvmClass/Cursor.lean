import JvmClass.Bytes

/-!
# Reading bytes

A cursor is a position in a sequence of bytes. Every read is checked against the end of the bytes;
one that does not fit fails and leaves the cursor where it is.
-/

namespace JvmClass

/-- A position in a sequence of bytes; it may lie past their end. -/
structure Cursor where
  data : Bytes
  offset : Nat
deriving Inhabited

/-- A computation that reads from a cursor. -/
abbrev Scan := Step Cursor

/-- The number of bytes from the position on. -/
def Cursor.remaining (c : Cursor) : Nat := c.data.size - c.offset

namespace Scan

/-- Moves past a number of bytes. -/
def skip (n : Nat) : Scan Unit := fun c =>
  if c.offset + n ≤ c.data.size then .ok () { c with offset := c.offset + n }
  else .error (.unexpectedEnd c.offset n) c

/-- Reads a number of bytes. -/
def bytes (n : Nat) : Scan Bytes := fun c =>
  if c.offset + n ≤ c.data.size then
    .ok (c.data.extract c.offset (c.offset + n)) { c with offset := c.offset + n }
  else .error (.unexpectedEnd c.offset n) c

def u8 : Scan UInt8 := fun c =>
  if h : c.offset + 1 ≤ c.data.size then .ok c.data[c.offset] { c with offset := c.offset + 1 }
  else .error (.unexpectedEnd c.offset 1) c

def u16 : Scan UInt16 := fun c =>
  if h : c.offset + 2 ≤ c.data.size then
    .ok (join16 c.data[c.offset] c.data[c.offset + 1]) { c with offset := c.offset + 2 }
  else .error (.unexpectedEnd c.offset 2) c

def u32 : Scan UInt32 := fun c =>
  if h : c.offset + 4 ≤ c.data.size then
    .ok (join32 c.data[c.offset] c.data[c.offset + 1] c.data[c.offset + 2] c.data[c.offset + 3])
      { c with offset := c.offset + 4 }
  else .error (.unexpectedEnd c.offset 4) c

def u64 : Scan UInt64 := fun c =>
  if h : c.offset + 8 ≤ c.data.size then
    .ok (join64
        (join32 c.data[c.offset] c.data[c.offset + 1] c.data[c.offset + 2] c.data[c.offset + 3])
        (join32 c.data[c.offset + 4] c.data[c.offset + 5] c.data[c.offset + 6]
          c.data[c.offset + 7]))
      { c with offset := c.offset + 8 }
  else .error (.unexpectedEnd c.offset 8) c

def i8 : Scan Int8 := return (← u8).toInt8

def i16 : Scan Int16 := return (← u16).toInt16

def i32 : Scan Int32 := return (← u32).toInt32

def i64 : Scan Int64 := return (← u64).toInt64

/-- Reads a number of structures, with those read so far in reverse. -/
def timesFrom {α : Type} (read : Scan α) (done : List α) : Nat → Scan (List α)
  | 0 => pure done.reverse
  | n + 1 => do
    let a ← read
    timesFrom read (a :: done) n

/-- Reads a number of structures in order. -/
def times {α : Type} (n : Nat) (read : Scan α) : Scan (List α) := timesFrom read [] n

/-- Repeats a read for its effect on the position. -/
def repeated : Nat → Scan Unit → Scan Unit
  | 0, _ => pure ()
  | n + 1, read => do
    read
    repeated n read

/-- Reads a count in sixteen bits and then that many structures. -/
def counted {α : Type} (read : Scan α) : Scan (List α) := do
  let n ← u16
  times n.toNat read

/-- Moves past an attribute. -/
def skipAttribute : Scan Unit := do
  skip 2
  let size ← u32
  skip size.toNat

/-- Moves past the count of attributes and the attributes. -/
def skipAttributes : Scan Unit := do
  let n ← u16
  repeated n.toNat skipAttribute

/-- The answer of a read from a position in bytes. -/
def runAt {α : Type} (data : Bytes) (offset : Nat) (read : Scan α) : Except ClassError α :=
  match read ⟨data, offset⟩ with
  | .ok a _ => .ok a
  | .error e _ => .error e

end Scan

end JvmClass
