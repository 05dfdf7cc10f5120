import JvmClass.Typing.Type

/-!
# Frames

A frame says what the stack and the local variables hold at a place in the code. Local variables are
indexed by slot: a wide value is followed by a `top` for its upper half, and slots that were never
written hold `top`, where trailing ones may be missing. `Frame.WellFormed` states that rule; the
operations on frames keep it.
-/

namespace JvmClass

/-- What the local variables and the stack hold at a place in the code. -/
structure Frame where
  /-- Local variables by slot. -/
  locals : Array VType
  stack : SlotVec VType
deriving DecidableEq, Inhabited

/-- A frame as it is stored, with a wide local as one entry. -/
structure Layout (T : Type) where
  locals : List T
  stack : List T
deriving DecidableEq, Inhabited

namespace Frame

/-- No locals and an empty stack. -/
def empty : Frame := ⟨#[], SlotVec.empty⟩

/-- Number of stack slots in use. -/
def stackSize (f : Frame) : Nat := f.stack.nextOffset

/-- What a local variable holds. -/
def local? (f : Frame) (slot : Nat) : VType := f.locals[slot]?.getD .top

/-- Stores a type in a local variable. A wide value that the store overlaps from above is lost, and
the slot after a wide type holds its upper half. -/
def setLocal (f : Frame) (slot : Nat) (type : VType) : Frame :=
  let missing := slot + type.width - f.locals.size
  let locals := f.locals ++ Array.replicate missing .top
  let locals :=
    match slot with
    | 0 => locals
    | below + 1 => if (locals[below]?.getD .top).width = 2 then locals.set! below .top else locals
  let locals := if type.width = 2 then locals.set! (slot + 1) .top else locals
  { f with locals := locals.set! slot type }

/-- Adds an entry on top of the stack. -/
def push (f : Frame) (type : VType) : Frame := { f with stack := f.stack.push type }

/-- Stores the parameters of a method in local variables from a slot on. -/
def setParameters (f : Frame) (slot : Nat) : List FieldType → Frame
  | [] => f
  | type :: rest =>
    (f.setLocal slot (VType.ofField type)).setParameters (slot + type.width) rest

/-- The frame on entry to a method. In a constructor `this` starts out uninitialized, except in the
root class, which has no superclass constructor to call. -/
def entry (thisClass : ClassName) (isStatic isConstructor : Bool) (d : MethodDescriptor) : Frame :=
  if isStatic then empty.setParameters 0 d.parameters
  else
    let this : VType :=
      if isConstructor && thisClass != ClassName.object then .uninitializedThis
      else VType.instanceOf thisClass
    (empty.setLocal 0 this).setParameters 1 d.parameters

/-- The frame at the start of an exception handler. -/
def handler (locals : Array VType) (caught : VType) : Frame := ⟨locals, SlotVec.empty.push caught⟩

/-- The frame given to unreachable code, which is replaced by a throw. -/
def unreachable : Frame := handler #[] (VType.instanceOf ClassName.throwable)

/-- The locals from a slot on as they are stored: the upper half of a wide one is left out. -/
def layoutLocals (locals : Array VType) (slot : Nat) : List NamedType :=
  if h : slot < locals.size then
    locals[slot].named :: layoutLocals locals (slot + locals[slot].width)
  else []
termination_by locals.size - slot
decreasing_by
  have := VerificationType.width_pos locals[slot]
  omega

/-- Drops the `top` entries at the end. -/
def trimTop (types : List NamedType) : List NamedType :=
  (types.reverse.dropWhile (· = .top)).reverse

/-- The frame as it is stored, by class text and offset. -/
def layout (f : Frame) : Layout NamedType where
  locals := trimTop (layoutLocals f.locals 0)
  stack := f.stack.toList.map VType.named

/-- The frame as messages show it. -/
def describe (f : Frame) : String :=
  let locals := "[" ++ ", ".intercalate (f.locals.toList.map VType.describe) ++ "]"
  s!"Frame \x7b locals: {locals}, stack: {f.stack.describe VType.describe} \x7d"

/-- Every wide local is followed by a slot that holds `top`, and every stack entry starts where the
widths of those below it end. -/
structure WellFormed (f : Frame) : Prop where
  upperHalf : ∀ slot type, f.locals[slot]? = some type → type.width = 2 →
    f.locals[slot + 1]? = some .top
  measured : f.stack.Measured

end Frame

end JvmClass
