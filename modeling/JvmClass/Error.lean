import JvmClass.Constant.Loadable
import JvmClass.Typing.Frame

/-!
# What can go wrong

Every way in which reading, computing frames or writing can fail is a constructor of `ClassError`,
which carries what the failure is about. The wording is in one place, `ClassError.message`.
-/

namespace JvmClass

/-- Why an instruction cannot be simulated on a frame. -/
inductive SimulationFault where
  | emptyStack
  /-- The entry on top of the stack is wider than what is left to take. -/
  | invalidWidth (width : Nat)
  | notArray (found : VType)
  | invalidLocal (slot : UInt16)
  | unsupportedOpcode (opcode : UInt8)
deriving DecidableEq

/-- What a parser of descriptors expects. -/
inductive Expectation where
  | baseType | classDescriptor | referenceType | fieldType | openParen | closeParen | finish
deriving DecidableEq

/-- Why a text is not a descriptor. -/
inductive DescriptorFault where
  /-- The character found at a byte offset is not what is expected there. -/
  | unexpected (expected : Expectation) (offset : Nat) (found : Option Char)
  /-- The class name that starts at a byte offset has no end. -/
  | unterminated (offset : Nat)
  | badName (text : String) (fault : ClassName.Fault)
  | tooManyDimensions (count : Nat)
deriving DecidableEq

/-- Kinds of constant pool entries that a use of an index asks for. -/
inductive ConstantRole where
  | utf8 | int | long | float | double | cls | nameAndType | member | methodHandle
  | invokeDynamic | loadable
deriving DecidableEq

/-- Instructions that cannot be written, or not when frames are computed. -/
inductive UnsupportedInstruction where
  | bytePush | shortPush | arrayCode | subroutineReturn | subroutineCall
  | tableTargets | lookupTargets
deriving DecidableEq

/-- Structures that cannot be stored, however they came about. -/
inductive StoreFault where
  | sequenceTooLong (count : Nat)
  | attributeTooLong
  | chopCount (count : Nat)
  | appendCount (count : Nat)
deriving DecidableEq

/-- What is wrong with the content of an attribute. -/
inductive AttributeFault where
  | noBootstrapMethod (position : Nat)
  | notInstructionStart (offset : Nat)
  | branchBeforeStart (offset : Nat)
  | emptyRange (offset : Nat) (low high : Int)
  | switchPastEnd (offset count : Nat)
  | framePastEnd (offset : Nat)
  | repeatedFrame (offset : Nat)
  | reservedFrameType (frameType : UInt8)
  | cannotChop (count available : Nat)
  | unknownVerificationType (tag : UInt8)
  | unknownElementTag (tag : UInt8)
  | endsBeforeStart (name : String) (stop start : Nat)
  | notInitializer (value : Loadable) (field : String)
  | halfMethod (owner : String)
  | cyclicConstant (index : UInt16)

/-- Everything that can go wrong while a class is read or written. -/
inductive ClassError where
  /-- The input ends before a structure does. -/
  | unexpectedEnd (offset needed : Nat)
  | invalidMagic (magic : UInt32)
  | unsupportedVersion (major minor : UInt16)
  | invalidConstantTag (tag : UInt8) (index : UInt16)
  /-- The index is zero, past the end, or the second half of a wide entry. -/
  | invalidConstantIndex (index : UInt16)
  | invalidHandleKind (kind : UInt8) (index : UInt16)
  | unexpectedConstant (index : UInt16) (expected : ConstantRole)
  | invalidOpcode (opcode : UInt8) (offset : Nat)
  | malformedUtf8 (index : UInt16)
  | malformedAttribute (name : String) (fault : AttributeFault)
  | badDescriptor (descriptor : String) (fault : DescriptorFault)
  | badName (text : String)
  /-- The indices of the pool are used up. -/
  | constantPoolOverflow (index : Nat)
  | stringTooLong (size : Nat)
  | tooManyEntries (what : String) (count : Nat)
  /-- A label is referred to but has no place in the code. -/
  | unresolvedLabel (label : Label)
  | duplicateLabel (label : Label)
  /-- A structure wrote another number of bytes than it declared. -/
  | sizeMismatch (what : String) (declared written : Nat)
  /-- An uninterpreted attribute refers to constants of the class it came from. -/
  | rawAttributeNeedsCopiedPool (name : String)
  | branchOffsetOverflow (source target : Nat)
  | methodCodeOverflow (size : Nat)
  | maxStackOverflow (slots : Nat)
  | maxLocalsOverflow (slots : Nat)
  /-- An instruction stands outside of a method body. -/
  | codeNotStarted
  | missingClassHeader
  | unsupportedInstruction (which : UnsupportedInstruction)
  /-- Two paths reach a block with frames that do not meet. -/
  | incompatibleFrames (label : Label) (left right : Frame)
  | simulation (offset : Nat) (fault : SimulationFault)
  | store (fault : StoreFault)
  /-- The frames of a method keep changing. -/
  | unsettledFrames

/-- Two hexadecimal digits of a byte, in upper case. -/
def hexByte (b : UInt8) : String :=
  let digits := (Nat.toDigits 16 b.toNat).map Char.toUpper
  String.ofList (List.replicate (2 - digits.length) '0' ++ digits)

/-- Eight hexadecimal digits of a word, in upper case. -/
def hexWord (w : UInt32) : String :=
  let digits := (Nat.toDigits 16 w.toNat).map Char.toUpper
  String.ofList (List.replicate (8 - digits.length) '0' ++ digits)

def SimulationFault.message : SimulationFault → String
  | emptyStack => "pop from an empty stack"
  | invalidWidth width => s!"stack entry has width {width}, which does not match the instruction"
  | notArray (.object type) => s!"expected an array type, found {type.describe}"
  | notArray type => s!"expected an array type, found {type.describe}"
  | invalidLocal slot => s!"local {slot.toNat} does not hold a reference"
  | unsupportedOpcode opcode => s!"opcode 0x{hexByte opcode} cannot be simulated"

def Expectation.text : Expectation → String
  | baseType => "Expected a base type"
  | classDescriptor => "Expected 'L'"
  | referenceType => "Expected a reference type"
  | fieldType => "Expected a field type"
  | openParen => "Expected '('"
  | closeParen => "Expected ')'"
  | finish => "Expected end of descriptor"

def DescriptorFault.message : DescriptorFault → String
  | unexpected expected offset (some c) => s!"{expected.text} at offset {offset}, found '{c}'"
  | unexpected expected offset none => s!"{expected.text} at offset {offset}, found end of input"
  | unterminated offset => s!"Class name at offset {offset} has no terminating ';'"
  | badName text fault => fault.message text
  | tooManyDimensions count => s!"Array type has {count} dimensions (max 255)"

def ConstantRole.text : ConstantRole → String
  | utf8 => "Utf8" | int => "Integer" | long => "Long" | float => "Float" | double => "Double"
  | cls => "Class" | nameAndType => "NameAndType" | member => "Fieldref or Methodref"
  | methodHandle => "MethodHandle" | invokeDynamic => "InvokeDynamic"
  | loadable => "loadable constant"

def UnsupportedInstruction.text : UnsupportedInstruction → String
  | bytePush => "bipush operand out of range"
  | shortPush => "sipush operand out of range"
  | arrayCode => "newarray with an unknown element type"
  | subroutineReturn => "ret"
  | subroutineCall => "jsr"
  | tableTargets => "tableswitch whose targets do not match its range"
  | lookupTargets => "lookupswitch with a different number of keys and targets"

def StoreFault.message : StoreFault → String
  | sequenceTooLong count => s!"sequence of {count} elements has no u16 length"
  | attributeTooLong => "attribute longer than 4GB"
  | chopCount count => s!"chop frame removes {count} locals (must be 1-3)"
  | appendCount count => s!"append frame adds {count} locals (must be 1-3)"

def AttributeFault.message : AttributeFault → String
  | noBootstrapMethod position => s!"no bootstrap method at position {position}"
  | notInstructionStart offset => s!"offset {offset} is not the start of an instruction"
  | branchBeforeStart offset => s!"branch at {offset} jumps before the start of the code"
  | emptyRange offset low high => s!"tableswitch at {offset} has low {low} above high {high}"
  | switchPastEnd offset count =>
    s!"switch at {offset} has {count} entries past the end of the code"
  | framePastEnd offset => s!"frame at offset {offset} is past the last instruction"
  | repeatedFrame offset => s!"more than one frame at offset {offset}"
  | reservedFrameType frameType => s!"reserved frame type {frameType.toNat}"
  | cannotChop count available => s!"cannot chop {count} locals from {available}"
  | unknownVerificationType tag => s!"unknown verification type {tag.toNat}"
  | unknownElementTag tag =>
    s!"unknown element value tag {Text.quoteChar (Char.ofNat tag.toNat)}"
  | endsBeforeStart name stop start =>
    s!"{name} ends at offset {stop} before it starts at {start}"
  | notInitializer value field => s!"{value.describe} cannot initialize field {field}"
  | halfMethod owner => s!"method of {owner} needs both a name and a descriptor"
  | cyclicConstant index => s!"constant {index.toNat} is an argument of itself"

/-- The failure in words. -/
def ClassError.message : ClassError → String
  | unexpectedEnd offset needed =>
    s!"unexpected end of class file: needed {needed} byte(s) at offset {offset}"
  | invalidMagic magic => s!"invalid class file magic 0x{hexWord magic}"
  | unsupportedVersion major minor =>
    s!"unsupported class file version {major.toNat}.{minor.toNat}"
  | invalidConstantTag tag index =>
    s!"invalid constant pool tag {tag.toNat} at index {index.toNat}"
  | invalidConstantIndex index =>
    s!"constant pool index {index.toNat} does not refer to an entry"
  | invalidHandleKind kind index =>
    s!"invalid method handle kind {kind.toNat} at index {index.toNat}"
  | unexpectedConstant index expected =>
    s!"constant pool entry {index.toNat} is not a {expected.text}"
  | invalidOpcode opcode offset => s!"invalid opcode 0x{hexByte opcode} at code offset {offset}"
  | malformedUtf8 index => s!"constant pool entry {index.toNat} is not valid modified UTF-8"
  | malformedAttribute name fault => s!"malformed {name} attribute: {fault.message}"
  | badDescriptor descriptor fault =>
    s!"invalid descriptor `{descriptor}`: {fault.message}"
  | badName text => s!"invalid name `{text}`"
  | constantPoolOverflow index => s!"constant pool overflow at index {index}"
  | stringTooLong size => s!"string of {size} encoded bytes does not fit in a UTF8 constant"
  | tooManyEntries what count => s!"too many entries ({count}) in {what}"
  | unresolvedLabel label => s!"label {label.text} was never placed"
  | duplicateLabel label => s!"label {label.text} was placed more than once"
  | sizeMismatch what declared written =>
    s!"{what} declared {declared} bytes but wrote {written}"
  | rawAttributeNeedsCopiedPool name =>
    s!"attribute {name} can only be copied into a class that keeps the original constant pool"
  | branchOffsetOverflow source target =>
    s!"branch at offset {source} to offset {target} does not fit in 16 bits"
  | methodCodeOverflow size => s!"method code is {size} bytes long (limit is 65535)"
  | maxStackOverflow slots => s!"method needs {slots} stack slots (limit is 65535)"
  | maxLocalsOverflow slots => s!"method needs {slots} local slots (limit is 65535)"
  | codeNotStarted => "instruction emitted outside of a code section"
  | missingClassHeader => "class header has not been visited"
  | unsupportedInstruction which => s!"{which.text} is not supported when computing frames"
  | incompatibleFrames label left right =>
    s!"incompatible frames at {label.text}: {left.describe} vs {right.describe}"
  | simulation offset fault => s!"verifier error at code offset {offset}: {fault.message}"
  | store fault => fault.message
  | unsettledFrames => "frames of a method do not settle"

/-- A computation on a state that may fail; the state it leaves behind when it does is kept. -/
abbrev Step (σ : Type) := EStateM ClassError σ

/-- Runs a step on a part of a state, which is taken out of the whole meanwhile. -/
@[inline] def Step.on {σ τ α : Type} [Inhabited τ] (part : σ → τ) (replace : σ → τ → σ)
    (step : Step τ α) : Step σ α := fun s =>
  let t := part s
  let s := replace s default
  match step t with
  | .ok a t => .ok a (replace s t)
  | .error e t => .error e (replace s t)

/-- A computation that neither reads nor changes the state. -/
@[inline] def Step.of {σ α : Type} : Except ClassError α → Step σ α
  | .ok a => pure a
  | .error e => throw e

/-- A count as it is stored in sixteen bits, if it fits. -/
def count16 (what : String) (count : Nat) : Except ClassError UInt16 :=
  if count < 65536 then .ok (UInt16.ofNat count) else .error (.tooManyEntries what count)

end JvmClass
