import JvmClass.Bytes

/-!
# Versions of class files

A class file states the version of its format. From major version 50 on, methods carry the frames
that the verifier needs.
-/

namespace JvmClass

/-- Version of the class file format. -/
structure Version where
  major : UInt16
  minor : UInt16
deriving DecidableEq, Inhabited

/-- The first four bytes of every class file. -/
def magic : UInt32 := 0xCAFEBABE

namespace Version

/-- The oldest major version that is read. -/
def oldestMajor : UInt16 := 45

/-- The first major version with frames. -/
def framesMajor : UInt16 := 50

/-- The newest version that is read. -/
def latest : Version := ⟨65, 0⟩

/-- Whether methods need frames. -/
def needsFrames (v : Version) : Bool := framesMajor ≤ v.major

/-- Whether classes of the version are read. -/
def isSupported (v : Version) : Bool := oldestMajor ≤ v.major && v.major ≤ latest.major

/-- Versions are ordered by major and then minor version. -/
def isAfter (a b : Version) : Bool := b.major < a.major || (a.major == b.major && b.minor < a.minor)

/-- The stored form: the minor version comes first. -/
def encode (v : Version) : List UInt8 := bytes16 v.minor ++ bytes16 v.major

end Version

end JvmClass
