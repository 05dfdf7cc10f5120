/-!
# Access flags

Classes, methods, fields and inner-class entries each have sixteen bits of flags, of which each kind
assigns some. Reading flags keeps the assigned bits and drops the others.
-/

namespace JvmClass

/-- The tables of a class file that hold access flags. -/
inductive FlagKind where
  | ofClass
  | ofField
  | ofMethod
  | ofInnerClass
deriving DecidableEq

/-- The bits that a kind of flags assigns. -/
def FlagKind.mask : FlagKind → UInt16
  | ofClass => 0xF631
  | ofField => 0x50DF
  | ofMethod => 0x1DFF
  | ofInnerClass => 0x761F

/-- Access flags of one kind. -/
structure AccessFlags (kind : FlagKind) where
  bits : UInt16
deriving DecidableEq, Inhabited

namespace AccessFlags

variable {kind : FlagKind}

/-- Reads raw bits, dropping those that have no meaning. -/
def decode (raw : UInt16) : AccessFlags kind := ⟨raw &&& kind.mask⟩

/-- The bits in four hexadecimal digits. -/
def text (flags : AccessFlags kind) : String :=
  let digits := Nat.toDigits 16 flags.bits.toNat
  "0x" ++ String.ofList (List.replicate (4 - digits.length) '0' ++ digits)

/-- Whether the method receives `this` in local 0, that is, is not static. -/
def hasReceiver (flags : AccessFlags .ofMethod) : Bool := flags.bits &&& 0x0008 == 0

end AccessFlags

end JvmClass
