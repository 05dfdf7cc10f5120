/-!
# Options

What a writer computes on its own, and what a reader leaves out.
-/

namespace JvmClass

/-- What a writer computes on its own. Computing frames implies computing the maximums of stack and
locals. -/
structure Compute where
  maxs : Bool
  frames : Bool
deriving DecidableEq, Inhabited

namespace Compute

/-- Bit 1 asks for frames and bit 0 for the maximums. -/
def ofBits (bits : UInt8) : Compute := ⟨bits &&& 1 != 0, bits &&& 2 != 0⟩

def bits (c : Compute) : UInt8 := (if c.maxs then 1 else 0) + if c.frames then 2 else 0

/-- Whether the maximums are computed. -/
def computesMaxs (c : Compute) : Bool := c.maxs || c.frames

/-- The maximums alone. -/
def withoutFrames (c : Compute) : Compute := if c.frames then ⟨true, false⟩ else c

end Compute

/-- What a reader leaves out. -/
structure Skip where
  /-- The bodies of methods. -/
  code : Bool := false
  /-- Source files, line numbers, and local variables. -/
  debug : Bool := false
  /-- The frames of methods. -/
  frames : Bool := false
  /-- What fields and methods hold beyond their declarations. -/
  members : Bool := false
deriving DecidableEq, Inhabited

end JvmClass
