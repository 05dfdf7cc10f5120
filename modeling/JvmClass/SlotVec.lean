import JvmClass.Search
import JvmClass.Total

/-!
# Sequences addressed by slot

The constant pool and the operand stack address their entries by slots rather than by position:
`long` and `double` entries take two slots and all others one. A `SlotVec` keeps every entry beside
the offset at which it starts, so that the entry at an offset is found by halving.
-/

namespace JvmClass

/-- How many slots a value takes up. -/
class SlotWidth (α : Type) where
  width : α → Nat

/-- Entries beside their offsets, and the offset that the next entry will get. -/
structure SlotVec (α : Type) where
  /-- Offset of the first entry. -/
  start : Nat
  entries : Array (Nat × α)
  /-- Offset of the next entry to be added. -/
  nextOffset : Nat
deriving Inhabited, DecidableEq

namespace SlotVec

variable {α : Type}

/-- What lies at an offset. -/
inductive Lookup (α : Type) where
  /-- The entry at this index starts there. -/
  | found (index : Nat) (value : α)
  /-- No entry starts there; one that did would stand at this index, before an existing entry. -/
  | between (index : Nat)
  /-- Every entry starts before the offset. -/
  | beyond

/-- The entry found, if one starts at the offset. -/
def Lookup.value? : Lookup α → Option α
  | found _ value => some value
  | between _ | beyond => none

/-- No entries, the first of which will start at `start`. -/
def startingAt (start : Nat) : SlotVec α := ⟨start, #[], start⟩

/-- No entries; offsets count from zero. -/
def empty : SlotVec α := startingAt 0

def size (v : SlotVec α) : Nat := v.entries.size

def isEmpty (v : SlotVec α) : Bool := v.entries.isEmpty

/-- The entries in order, without their offsets. -/
def toList (v : SlotVec α) : List α := v.entries.toList.map Prod.snd

/-- Adds an entry, which starts at `v.nextOffset`. -/
def push [SlotWidth α] (v : SlotVec α) (value : α) : SlotVec α :=
  { v with
    entries := v.entries.push (v.nextOffset, value)
    nextOffset := v.nextOffset + SlotWidth.width value }

/-- Adds entries in order. -/
def append [SlotWidth α] (v : SlotVec α) (values : List α) : SlotVec α := values.foldl push v

/-- Entries in order, counting from offset zero. -/
def ofList [SlotWidth α] (values : List α) : SlotVec α := empty.append values

/-- The last entry with its offset, and the vector without it. -/
def pop? (v : SlotVec α) : Option ((Nat × α) × SlotVec α) :=
  match v.entries.back? with
  | none => none
  | some (offset, value) =>
    some ((offset, value), { v with entries := v.entries.pop, nextOffset := offset })

def last? (v : SlotVec α) : Option α := v.entries.back?.map Prod.snd

/-- An entry as it is handed out. -/
structure Item (α : Type) where
  offset : Nat
  index : Nat
  value : α
deriving DecidableEq

/-- The last entry as it is handed out, and the vector without it. -/
def popItem? (v : SlotVec α) : Option (Item α × SlotVec α) :=
  v.pop?.map fun ((offset, value), rest) => (⟨offset, rest.size, value⟩, rest)

/-- Drops every entry. -/
def clear (v : SlotVec α) : SlotVec α := startingAt v.start

/-- What lies at an offset. -/
def locate (v : SlotVec α) (offset : Nat) : Lookup α :=
  let index := partitionPoint v.entries.size fun i =>
    match v.entries[i]? with
    | some (start, _) => decide (start < offset)
    | none => false
  match v.entries[index]? with
  | none => .beyond
  | some (start, value) => if start = offset then .found index value else .between index

/-- The entry that starts at an offset. -/
def get? (v : SlotVec α) (offset : Nat) : Option α := (v.locate offset).value?

/-- Changes every value, keeping the offsets. -/
def map (f : α → α) (v : SlotVec α) : SlotVec α :=
  { v with entries := v.entries.map fun (offset, value) => (offset, f value) }

/-- Entries that are still to be handed out, from either end. -/
structure Traversal (α : Type) where
  /-- Index of the first entry that is left. -/
  index : Nat
  entries : List (Nat × α)

/-- All entries are still to be handed out. -/
def traverse (v : SlotVec α) : Traversal α := ⟨0, v.entries.toList⟩

namespace Traversal

/-- The first entry that is left. -/
def next? (t : Traversal α) : Option (Item α × Traversal α) :=
  match t.entries with
  | [] => none
  | (offset, value) :: rest => some (⟨offset, t.index, value⟩, ⟨t.index + 1, rest⟩)

/-- The last entry that is left. -/
def nextBack? (t : Traversal α) : Option (Item α × Traversal α) :=
  match t.entries.getLast? with
  | none => none
  | some (offset, value) =>
    let rest := t.entries.dropLast
    some (⟨offset, t.index + rest.length, value⟩, ⟨t.index, rest⟩)

end Traversal

/-- The entries between brackets, each behind the offset at which it starts. -/
def describe (text : α → String) (v : SlotVec α) : String :=
  let items := v.entries.toList.map fun (offset, value) => s!"#{offset} = {text value}"
  "[" ++ ", ".intercalate items ++ "]"

/-- Every entry starts where the one before it ends, and `nextOffset` is where the last one ends. -/
inductive Laid [SlotWidth α] : SlotVec α → Prop where
  | startingAt (start : Nat) : Laid (startingAt start)
  | push {v : SlotVec α} (value : α) : Laid v → Laid (v.push value)

/-- Every entry starts at the sum of the widths of the entries before it, and the next one to be
added will. -/
structure Measured [SlotWidth α] (v : SlotVec α) : Prop where
  offset : ∀ index offset value, v.entries[index]? = some (offset, value) →
    offset = total SlotWidth.width (v.toList.take index)
  nextOffset : v.nextOffset = total SlotWidth.width v.toList

end SlotVec

end JvmClass
