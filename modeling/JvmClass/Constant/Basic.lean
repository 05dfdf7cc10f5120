import JvmClass.Bytes

/-!
# Entries of the constant pool

An entry refers to others by index. Two entries are equal exactly when they are stored alike, which
is why floats are kept as their bits.
-/

namespace JvmClass

/-- An index into the constant pool. -/
abbrev PoolIndex := UInt16

/-- An entry of the constant pool. -/
inductive Constant where
  | cls (name : PoolIndex)
  | fieldRef (cls nameAndType : PoolIndex)
  | methodRef (cls nameAndType : PoolIndex) (ownerIsInterface : Bool)
  | string (text : PoolIndex)
  | int (value : Int32)
  | float (bits : UInt32)
  | long (value : Int64)
  | double (bits : UInt64)
  | nameAndType (name descriptor : PoolIndex)
  | utf8 (text : String)
  /-- Field handles refer to a field, all others to a method. -/
  | methodHandle (kind : HandleKind) (member : PoolIndex)
  | methodType (descriptor : PoolIndex)
  /-- A constant computed by a bootstrap method, given by its position. -/
  | dynamic (bootstrap : UInt16) (nameAndType : PoolIndex)
  /-- A call site linked by a bootstrap method, given by its position. -/
  | invokeDynamic (bootstrap : UInt16) (nameAndType : PoolIndex)
  | module (name : PoolIndex)
  | package (name : PoolIndex)
deriving DecidableEq, Hashable, Inhabited

namespace Constant

/-- Entries of eight bytes take two indices. -/
def width : Constant → Nat
  | long _ | double _ => 2
  | _ => 1

instance : SlotWidth Constant := ⟨width⟩

/-- The number that stores the kind of entry. -/
def tag : Constant → UInt8
  | utf8 _ => 1 | int _ => 3 | float _ => 4 | long _ => 5 | double _ => 6 | cls _ => 7
  | string _ => 8 | fieldRef _ _ => 9
  | methodRef _ _ ownerIsInterface => if ownerIsInterface then 11 else 10
  | nameAndType _ _ => 12 | methodHandle _ _ => 15 | methodType _ => 16 | dynamic _ _ => 17
  | invokeDynamic _ _ => 18 | module _ => 19 | package _ => 20

/-- The bytes of an entry after its tag. -/
def payload : Constant → List UInt8
  | utf8 text =>
    bytes16 (UInt16.ofNat (Text.ModifiedUtf8.encodedSize text)) ++ Text.ModifiedUtf8.encode text
  | int value => bytes32 value.toUInt32
  | float bits => bytes32 bits
  | long value => bytes64 value.toUInt64
  | double bits => bytes64 bits
  | cls name | string name | methodType name | module name | package name => bytes16 name
  | fieldRef owner member | methodRef owner member _ => bytes16 owner ++ bytes16 member
  | nameAndType name descriptor => bytes16 name ++ bytes16 descriptor
  | methodHandle kind member => kind.code :: bytes16 member
  | dynamic bootstrap member | invokeDynamic bootstrap member =>
    bytes16 bootstrap ++ bytes16 member

/-- The bytes of an entry. -/
def encode (c : Constant) : List UInt8 := c.tag :: c.payload

end Constant

/-- An entry of the table of bootstrap methods: a method handle and its static arguments. -/
structure BootstrapMethod where
  method : PoolIndex
  arguments : List PoolIndex
deriving DecidableEq, Hashable, Inhabited

end JvmClass
