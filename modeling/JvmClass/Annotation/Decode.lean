import JvmClass.Image.Basic

/-!
# Reading annotations

The values of annotation elements are read by their tags, and their constants looked up in the pool.
Values nest, and each takes at least the byte of its tag, which bounds how deep.
-/

namespace JvmClass

namespace ClassImage

/-- Reads the index of a text. -/
def readUtf8 (image : ClassImage) : Scan String := do Step.of (image.utf8 (← Scan.u16))

/-- Reads the index of an integer. -/
def readInt (image : ClassImage) : Scan Int32 := do
  let index ← Scan.u16
  match ← Step.of (image.constant index) with
  | .int value => return value
  | _ => throw (.unexpectedConstant index .int)

/-- Reads a value that holds no other values, given its tag. -/
def readSimpleValue (image : ClassImage) (tag : UInt8) : Scan ElementValue := do
  match Char.ofNat tag.toNat with
  | 'B' => return .byte (← image.readInt).toInt8
  | 'C' => return .char (← image.readInt).toUInt32.toUInt16
  | 'S' => return .short (← image.readInt).toInt16
  | 'Z' => return .boolean ((← image.readInt) != 0)
  | 'I' => return .int (← image.readInt)
  | 'J' =>
    let index ← Scan.u16
    match ← Step.of (image.constant index) with
    | .long value => return .long value
    | _ => throw (.unexpectedConstant index .long)
  | 'F' =>
    let index ← Scan.u16
    match ← Step.of (image.constant index) with
    | .float bits => return .float bits
    | _ => throw (.unexpectedConstant index .float)
  | 'D' =>
    let index ← Scan.u16
    match ← Step.of (image.constant index) with
    | .double bits => return .double bits
    | _ => throw (.unexpectedConstant index .double)
  | 's' => return .string (← image.readUtf8)
  | 'e' =>
    let descriptor ← image.readUtf8
    return .enum descriptor (← image.readUtf8)
  | 'c' => return .cls (← image.readUtf8)
  | _ => throw (.malformedAttribute "RuntimeVisibleAnnotations" (.unknownElementTag tag))

/-- Reads an element of an annotation: its name and its value. -/
def readElement (image : ClassImage) (readValue : Scan ElementValue) :
    Scan (String × ElementValue) := do
  let name ← image.readUtf8
  return (name, ← readValue)

/-- Reads the value of an element, in which values nest at most `depth` deep. -/
def readValueWithin (image : ClassImage) : (depth : Nat) → Scan ElementValue
  | 0 => do image.readSimpleValue (← Scan.u8)
  | depth + 1 => do
    let tag ← Scan.u8
    match Char.ofNat tag.toNat with
    | '@' =>
      let descriptor ← image.readUtf8
      return .nested descriptor
        (← Scan.counted (image.readElement (image.readValueWithin depth)))
    | '[' => return .array (← Scan.counted (image.readValueWithin depth))
    | _ => image.readSimpleValue tag

/-- Reads an annotation. -/
def readAnnotationEntry (image : ClassImage) : Scan Annotation := do
  let depth := (← get).remaining
  let descriptor ← image.readUtf8
  return ⟨descriptor, ← Scan.counted (image.readElement (image.readValueWithin depth))⟩

/-- Reads the count of annotations and the annotations. -/
def readAnnotations (image : ClassImage) : Scan (List Annotation) :=
  Scan.counted image.readAnnotationEntry

end ClassImage

end JvmClass
