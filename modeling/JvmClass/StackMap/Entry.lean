import JvmClass.Bytes
import JvmClass.Constant.Pool

/-!
# Entries of a stack map

A stack map stores each frame by what changes from the frame before it. A frame that keeps the
locals, drops up to three of them, or adds up to three has a short form; any other is stored in
full.
-/

namespace JvmClass

/-- One entry of a stack map. `delta` is the distance from the frame before, less one. -/
inductive StackMapEntry (T : Type) where
  /-- The locals stay and the stack is empty. -/
  | same (delta : UInt16)
  /-- The locals stay and the stack has one entry. -/
  | sameWithStack (delta : UInt16) (entry : T)
  /-- The last locals are gone and the stack is empty. -/
  | chop (delta : UInt16) (count : UInt8)
  /-- There are new locals and the stack is empty. -/
  | append (delta : UInt16) (locals : List T)
  | full (delta : UInt16) (locals stack : List T)
deriving Inhabited

namespace PooledType

/-- The number of bytes of a stored type. -/
def byteSize : PooledType → Nat
  | .object _ | .uninitialized _ => 3
  | _ => 1

/-- Appends the tag of a type and what it refers to. -/
def put (t : PooledType) : Put Unit := do
  Put.u8 t.tag
  match t with
  | .object cls => Put.u16 cls
  | .uninitialized offset => Put.u16 offset
  | _ => pure ()

/-- The number of bytes of a counted list of stored types. -/
def listSize (types : List PooledType) : Nat := 2 + total byteSize types

end PooledType

/-- Asks the pool for the class of a type; the offset of a `new` instruction must fit in sixteen
bits. -/
def NamedType.resolve (t : NamedType) : ConstantPool.Request PooledType :=
  t.mapM ConstantPool.cls fun offset =>
    if offset < 65536 then pure (UInt16.ofNat offset) else throw (.methodCodeOverflow offset)

/-- Asks the pool for the classes of types in order. -/
def resolveAll (types : List NamedType) : ConstantPool.Request (List PooledType) :=
  types.mapM NamedType.resolve

/-- Asks the pool for the classes of a frame, those of its locals first. -/
def Layout.resolve (l : Layout NamedType) : ConstantPool.Request (Layout PooledType) := do
  let locals ← resolveAll l.locals
  let stack ← resolveAll l.stack
  return ⟨locals, stack⟩

namespace StackMapEntry

variable {T : Type}

/-- The distance from the frame before, less one. -/
def delta : StackMapEntry T → UInt16
  | same delta | sameWithStack delta _ | chop delta _ | append delta _ | full delta _ _ => delta

/-- How many locals of the frame before are gone. -/
def chopped : StackMapEntry T → Nat
  | chop _ count => count.toNat
  | _ => 0

/-- Asks the pool for the classes of an entry. -/
def resolve : StackMapEntry NamedType → ConstantPool.Request (StackMapEntry PooledType)
  | same delta => pure (same delta)
  | sameWithStack delta entry => do return sameWithStack delta (← entry.resolve)
  | chop delta count => pure (chop delta count)
  | append delta locals => do return append delta (← resolveAll locals)
  | full delta locals stack => do
    let locals ← resolveAll locals
    let stack ← resolveAll stack
    return full delta locals stack

/-- The largest distance that the short tags hold. -/
def shortDelta : UInt16 := 63

/-- The number of bytes of a stored entry. -/
def byteSize : StackMapEntry PooledType → Nat
  | same delta => if delta ≤ shortDelta then 1 else 3
  | sameWithStack delta entry =>
    (if delta ≤ shortDelta then 1 else 3) + PooledType.byteSize entry
  | chop _ _ => 3
  | append _ locals => 3 + total PooledType.byteSize locals
  | full _ locals stack => 3 + PooledType.listSize locals + PooledType.listSize stack

/-- Appends an entry. -/
def put : StackMapEntry PooledType → Put Unit
  | same delta => do
    if delta ≤ shortDelta then Put.u8 delta.toUInt8
    else
      Put.u8 251
      Put.u16 delta
  | sameWithStack delta entry => do
    if delta ≤ shortDelta then Put.u8 (delta.toUInt8 + 64)
    else
      Put.u8 247
      Put.u16 delta
    PooledType.put entry
  | chop delta count => do
    if 1 ≤ count && count ≤ 3 then
      Put.u8 (251 - count)
      Put.u16 delta
    else throw (.chopCount count.toNat)
  | append delta locals => do
    if 1 ≤ locals.length && locals.length ≤ 3 then
      Put.u8 (251 + UInt8.ofNat locals.length)
      Put.u16 delta
      Put.each PooledType.put locals
    else throw (.appendCount locals.length)
  | full delta locals stack => do
    Put.u8 255
    Put.u16 delta
    Put.counted PooledType.put locals
    Put.counted PooledType.put stack

end StackMapEntry

namespace Layout

variable {T : Type} [DecidableEq T]

/-- The entry that stores a frame in full. -/
def fullEntry (l : Layout T) (delta : UInt16) : StackMapEntry T := .full delta l.locals l.stack

/-- The shortest entry that stores a frame after another one. -/
def entryAfter (l previous : Layout T) (delta : UInt16) : StackMapEntry T :=
  match l.stack with
  | [] =>
    if l.locals.length ≤ previous.locals.length then
      let gone := previous.locals.length - l.locals.length
      if gone < 4 && l.locals.isPrefixOf previous.locals then
        if gone = 0 then .same delta else .chop delta (UInt8.ofNat gone)
      else l.fullEntry delta
    else if l.locals.length - previous.locals.length < 4 &&
        previous.locals.isPrefixOf l.locals then
      .append delta (l.locals.drop previous.locals.length)
    else l.fullEntry delta
  | [entry] => if l.locals = previous.locals then .sameWithStack delta entry else l.fullEntry delta
  | _ => l.fullEntry delta

/-- The frame that an entry stands for after a frame with the given locals, if it has that many. -/
def expand? (locals : List T) : StackMapEntry T → Option (Layout T)
  | .same _ => some ⟨locals, []⟩
  | .sameWithStack _ entry => some ⟨locals, [entry]⟩
  | .chop _ count =>
    if count.toNat ≤ locals.length then some ⟨locals.take (locals.length - count.toNat), []⟩
    else none
  | .append _ added => some ⟨locals ++ added, []⟩
  | .full _ locals stack => some ⟨locals, stack⟩

end Layout

end JvmClass
