import Std.Data.HashMap
import JvmClass.ChainTable
import JvmClass.Constant.Basic
import JvmClass.Search

/-!
# The constant pool

A pool hands out one index for each constant: asking for a constant that it holds gives the index
that the constant has. Index zero is never handed out, and indices are neither reused nor
renumbered. A pool that starts as a copy of another keeps that one's bytes, duplicates included, and
answers with the first index of each constant.

A request for a constant that refers to others asks for those first; they stay in the pool when a
later part of the request fails.
-/

namespace JvmClass

/-- Constants by index, and the bootstrap methods that they refer to. -/
structure ConstantPool where
  /-- The constants that requests are answered with, in the order of their indices. -/
  items : Array (PoolIndex × Constant)
  indices : ChainTable Constant PoolIndex
  /-- The stored entries. -/
  bytes : Bytes
  /-- The index of the next entry, which is also the count that the class file stores. -/
  nextIndex : UInt16
  bootstraps : Array BootstrapMethod
  positions : Std.HashMap BootstrapMethod UInt16

namespace ConstantPool

/-- A pool without entries. -/
def empty : ConstantPool := ⟨#[], ∅, #[], 1, #[], ∅⟩

instance : Inhabited ConstantPool := ⟨empty⟩

/-- The number of bytes of the pool section, its count included. -/
def byteSize (p : ConstantPool) : Nat := 2 + p.bytes.size

/-- The constant at an index, if requests are answered with that index. -/
def get? (p : ConstantPool) (index : PoolIndex) : Option Constant :=
  let position := partitionPoint p.items.size fun i =>
    match p.items[i]? with
    | some (start, _) => decide (start < index)
    | none => false
  match p.items[position]? with
  | some (start, constant) => if start = index then some constant else none
  | none => none

/-- The index after an entry, or the overflow that it makes. -/
def indexAfter (index : PoolIndex) (constant : Constant) : Except ClassError PoolIndex :=
  let next := index.toNat + constant.width
  if next < 65536 then .ok (UInt16.ofNat next) else .error (.constantPoolOverflow next)

/-- Makes a constant known under an index, unless it has one. -/
def register (p : ConstantPool) (index : PoolIndex) (constant : Constant) : ConstantPool :=
  if p.indices.contains constant then p
  else
    { p with
      items := p.items.push (index, constant)
      indices := p.indices.insert constant index }

/-- Registers the entries of a copied pool, which are given in order with their indices. -/
def registerAll (p : ConstantPool) : List (PoolIndex × Constant) → Except ClassError ConstantPool
  | [] => .ok p
  | (index, constant) :: rest =>
    match indexAfter index constant with
    | .error e => .error e
    | .ok next =>
      ({ p.register index constant with nextIndex := next } : ConstantPool).registerAll rest

/-- Adds a bootstrap method at the end; requests are answered with the first position of each. -/
def addBootstrap (p : ConstantPool) (method : BootstrapMethod) : ConstantPool :=
  let position := UInt16.ofNat p.bootstraps.size
  { p with
    bootstraps := p.bootstraps.push method
    positions := p.positions.insertIfNew method position }

/-- A pool that starts as a copy of stored entries. -/
def copy (bytes : Bytes) (entries : List (PoolIndex × Constant))
    (bootstraps : List BootstrapMethod) : Except ClassError ConstantPool :=
  match ({ empty with bytes } : ConstantPool).registerAll entries with
  | .error e => .error e
  | .ok p => .ok (bootstraps.foldl addBootstrap p)

/-- A request to a pool. -/
abbrev Request := Step ConstantPool

/-- The index of a constant, which is added if the pool does not hold it. -/
def intern (constant : Constant) : Request PoolIndex := fun p =>
  match p.indices[constant]? with
  | some index => .ok index p
  | none =>
    match indexAfter p.nextIndex constant with
    | .error e => .error e p
    | .ok next =>
      .ok p.nextIndex
        { p with
          items := p.items.push (p.nextIndex, constant)
          indices := p.indices.insert constant p.nextIndex
          bytes := p.bytes.putAll constant.encode
          nextIndex := next }

/-- A text whose stored form is longer than 65535 bytes has no entry. -/
def utf8 (text : String) : Request PoolIndex :=
  let size := Text.ModifiedUtf8.encodedSize text
  if size < 65536 then intern (.utf8 text) else throw (.stringTooLong size)

def int (value : Int32) : Request PoolIndex := intern (.int value)

def float (bits : UInt32) : Request PoolIndex := intern (.float bits)

def long (value : Int64) : Request PoolIndex := intern (.long value)

def double (bits : UInt64) : Request PoolIndex := intern (.double bits)

/-- A class by its internal name, or an array class by its descriptor. -/
def cls (name : String) : Request PoolIndex := do intern (.cls (← utf8 name))

def string (text : String) : Request PoolIndex := do intern (.string (← utf8 text))

def nameAndType (name descriptor : String) : Request PoolIndex := do
  let name ← utf8 name
  let descriptor ← utf8 descriptor
  intern (.nameAndType name descriptor)

def fieldRef (owner name descriptor : String) : Request PoolIndex := do
  let owner ← cls owner
  let member ← nameAndType name descriptor
  intern (.fieldRef owner member)

def methodRef (owner name descriptor : String) (ownerIsInterface : Bool) : Request PoolIndex := do
  let owner ← cls owner
  let member ← nameAndType name descriptor
  intern (.methodRef owner member ownerIsInterface)

def methodType (descriptor : String) : Request PoolIndex := do
  intern (.methodType (← utf8 descriptor))

/-- A method handle, which refers to a field or a method according to its kind. -/
def methodHandle (h : Handle) : Request PoolIndex := do
  let member ←
    if h.kind.isField then fieldRef h.owner h.name h.descriptor
    else methodRef h.owner h.name h.descriptor h.ownerIsInterface
  intern (.methodHandle h.kind member)

def module (name : String) : Request PoolIndex := do intern (.module (← utf8 name))

def package (name : String) : Request PoolIndex := do intern (.package (← utf8 name))

/-- The position of a bootstrap method, which is added if the pool does not hold it. -/
def bootstrapAt (method : BootstrapMethod) : Request UInt16 := fun p =>
  match p.positions[method]? with
  | some position => .ok position p
  | none =>
    if p.bootstraps.size < 65536 then
      .ok (UInt16.ofNat p.bootstraps.size) (p.addBootstrap method)
    else .error (.tooManyEntries "BootstrapMethods" (p.bootstraps.size + 1)) p

mutual

/-- A value that `ldc` can load. -/
def loadable : Loadable → Request PoolIndex
  | .int value => int value
  | .float bits => float bits
  | .long value => long value
  | .double bits => double bits
  | .string text => string text
  | .cls name => cls name
  | .methodType descriptor => methodType descriptor
  | .methodHandle handle => methodHandle handle
  | .dynamic name descriptor handle arguments => do
    let method ← methodHandle handle
    let arguments ← loadables [] arguments
    let position ← bootstrapAt ⟨method, arguments⟩
    let member ← nameAndType name descriptor
    intern (.dynamic position member)

/-- Values in order, with the indices of those before them in reverse. -/
def loadables (done : List PoolIndex) : List Loadable → Request (List PoolIndex)
  | [] => pure done.reverse
  | value :: rest => do
    let index ← loadable value
    loadables (index :: done) rest

end

/-- The position of a bootstrap method with its static arguments. -/
def bootstrap (handle : Handle) (arguments : List Loadable) : Request UInt16 := do
  let method ← methodHandle handle
  let arguments ← loadables [] arguments
  bootstrapAt ⟨method, arguments⟩

/-- A call site that a bootstrap method links. -/
def invokeDynamic (name descriptor : String) (handle : Handle) (arguments : List Loadable) :
    Request PoolIndex := do
  let position ← bootstrap handle arguments
  let member ← nameAndType name descriptor
  intern (.invokeDynamic position member)

/-- A constant that a bootstrap method computes. -/
def dynamic (name descriptor : String) (handle : Handle) (arguments : List Loadable) :
    Request PoolIndex := loadable (.dynamic name descriptor handle arguments)

/-- Appends the pool section: the count and the entries. -/
def put (p : ConstantPool) : Put Unit := do
  Put.u16 p.nextIndex
  Put.bytes p.bytes

end ConstantPool

end JvmClass
