import JvmClass.Descriptor.Parse
import JvmClass.Event
import JvmClass.Image.Basic

/-!
# Reading stack maps

The entries of a stack map are read one after another, each expanded after the locals of the frame
before it. The first frame follows the locals that the method's descriptor implies, and its offset
is stored as it is; every other offset is stored as the distance from the one before, less one.
-/

namespace JvmClass

/-- A frame of a stack map at its offset. -/
structure PlacedFrame where
  offset : Nat
  layout : Layout NamedType
deriving DecidableEq, Inhabited

namespace ClassImage

def stackMapFault {α : Type} (fault : AttributeFault) : Scan α :=
  throw (.malformedAttribute "StackMapTable" fault)

/-- Reads a stored type. -/
def readType (image : ClassImage) : Scan NamedType := do
  let tag ← Scan.u8
  if tag = 0 then return .top
  else if tag = 1 then return .int
  else if tag = 2 then return .float
  else if tag = 3 then return .double
  else if tag = 4 then return .long
  else if tag = 5 then return .null
  else if tag = 6 then return .uninitializedThis
  else if tag = 7 then return .object (← Step.of (image.cls (← Scan.u16)))
  else if tag = 8 then return .uninitialized (← Scan.u16).toNat
  else stackMapFault (.unknownVerificationType tag)

/-- Reads an entry of a stack map. -/
def readEntry (image : ClassImage) : Scan (StackMapEntry NamedType) := do
  let kind ← Scan.u8
  if kind < 64 then return .same kind.toUInt16
  else if kind < 128 then return .sameWithStack (kind - 64).toUInt16 (← image.readType)
  else if kind < 247 then stackMapFault (.reservedFrameType kind)
  else
    let delta ← Scan.u16
    if kind = 247 then return .sameWithStack delta (← image.readType)
    else if kind < 251 then return .chop delta (251 - kind)
    else if kind = 251 then return .same delta
    else if kind < 255 then
      return .append delta (← Scan.times (kind - 251).toNat image.readType)
    else
      let locals ← Scan.counted image.readType
      return .full delta locals (← Scan.counted image.readType)

/-- The offset of a frame whose entry has a distance, given the offset of the frame before. -/
def nextOffset (delta : UInt16) : Option Nat → Nat
  | none => delta.toNat
  | some previous => previous + delta.toNat + 1

/-- Reads frames after a frame with the given locals and offset, with those read so far in
reverse. -/
def readFrames (image : ClassImage) (locals : List NamedType) (previous : Option Nat)
    (done : List PlacedFrame) : Nat → Scan (List PlacedFrame)
  | 0 => return done.reverse
  | n + 1 => do
    let entry ← image.readEntry
    match Layout.expand? locals entry with
    | some layout =>
      let offset := nextOffset entry.delta previous
      image.readFrames layout.locals (some offset) (⟨offset, layout⟩ :: done) n
    | none => stackMapFault (.cannotChop entry.chopped locals.length)

/-- Reads a stack map whose first frame follows the given locals. -/
def readStackMap (image : ClassImage) (locals : List NamedType) : Scan (List PlacedFrame) := do
  let n ← Scan.u16
  image.readFrames locals none [] n.toNat

/-- The locals that the descriptor of a method implies. -/
def entryLocals (image : ClassImage) (d : MethodDeclaration) :
    Except ClassError (List NamedType) := do
  let thisClass ← ClassName.parse (← image.className)
  let descriptor ← parseDescriptor MethodDescriptor d.descriptor
  return (Frame.entry thisClass (!d.flags.hasReceiver) d.isConstructor descriptor).layout.locals

end ClassImage

end JvmClass
