import JvmClass.Error
import JvmClass.Typing.Effect

/-!
# Simulating instructions on frames

`Frame.execute` carries out the effect of an instruction. A failing instruction leaves the frame as
far as it got: entries that it has taken off the stack stay taken.
-/

namespace JvmClass

/-- A computation on a frame that may fail. -/
abbrev Simulation := EStateM SimulationFault Frame

namespace Simulation

/-- Takes the topmost entry off the stack. -/
def popEntry : Simulation VType := fun f =>
  match f.stack.pop? with
  | none => .error .emptyStack f
  | some ((_, type), stack) => .ok type { f with stack }

/-- Takes a number of entries off the stack. -/
def dropEntries : Nat → Simulation Unit
  | 0 => pure ()
  | n + 1 => do
    let _ ← popEntry
    dropEntries n

/-- Takes entries that cover exactly `remaining` slots off the stack, those `taken` before on top.
The entries are given from the bottom up. -/
def takeSlots (taken : List VType) (remaining : Nat) : Simulation (List VType) := fun f =>
  if remaining = 0 then .ok taken f
  else match f.stack.pop? with
    | none => .error .emptyStack f
    | some ((_, type), stack) =>
      if remaining < type.width then .error (.invalidWidth type.width) { f with stack }
      else takeSlots (type :: taken) (remaining - type.width) { f with stack }
termination_by remaining
decreasing_by
  have := type.width_pos
  omega

/-- Takes entries that cover exactly a number of slots. -/
def popSlots (slots : Nat) : Simulation (List VType) := takeSlots [] slots

/-- Takes groups of slots, the topmost first. -/
def popGroups : List Nat → Simulation (List (List VType))
  | [] => pure []
  | slots :: rest => do
    let group ← popSlots slots
    let others ← popGroups rest
    return group :: others

def push (type : VType) : Simulation Unit := modify (·.push type)

def pushAll (types : List VType) : Simulation Unit :=
  modify fun f => { f with stack := f.stack.append types }

/-- Carries out what a plain instruction does. -/
def plain : PlainEffect → Simulation Unit
  | .nothing => pure ()
  | .push type => push type
  | .replace entries type => do
    dropEntries entries
    push type
  | .drop entries => dropEntries entries
  | .loadElement => do
    let _ ← popEntry
    match ← popEntry with
    | .null => push .null
    | .object type =>
      match type.element? with
      | some element => push (VType.ofField element)
      | none => throw (.notArray (.object type))
    | other => throw (.notArray other)
  | .shuffle which => do
    let groups ← popGroups which.groups
    for group in which.result do
      pushAll (groups.getD group [])

/-- Replaces every occurrence of an uninitialized object by its class once its constructor has
run. -/
def construct (receiver : VType) (thisClass : ClassName) : Simulation Unit :=
  let replaceBy (constructed : VType) : Simulation Unit :=
    let swap (type : VType) : VType := if type = receiver then constructed else type
    modify fun f => { locals := f.locals.map swap, stack := f.stack.map swap }
  match receiver with
  | .uninitializedThis => replaceBy (VType.instanceOf thisClass)
  | .uninitialized allocation => replaceBy (VType.instanceOf allocation.cls)
  | _ => pure ()

/-- Pushes the value that a method returns. -/
def pushReturn (d : MethodDescriptor) : Simulation Unit :=
  match d.returnType with
  | none => pure ()
  | some type => push (VType.ofField type)

/-- Carries out the effect of an instruction in a class. -/
def execute (thisClass : ClassName) : Effect → Simulation Unit
  | .plain op =>
    match PlainEffect.of? op with
    | some effect => plain effect
    | none => throw (.unsupportedOpcode op)
  | .load type => push type
  | .access op slot => do
    if op = Opcode.iload then push .int
    else if op = Opcode.lload then push .long
    else if op = Opcode.fload then push .float
    else if op = Opcode.dload then push .double
    else if op = Opcode.aload then
      let type := (← get).local? slot.toNat
      if type.isReference then push type else throw (.invalidLocal slot)
    else if Opcode.isStore op then
      let type ← popEntry
      modify (·.setLocal slot.toNat type)
    else throw (.unsupportedOpcode op)
  | .increment slot => modify (·.setLocal slot.toNat .int)
  | .newArray element => do
    let _ ← popEntry
    push (.object (RefType.arrayOf (.base element)))
  | .newObjectArray element => do
    let _ ← popEntry
    push (.object (RefType.arrayOf element))
  | .new allocation => push (.uninitialized allocation)
  | .checkCast type => do
    let _ ← popEntry
    push (.object type)
  | .field op type => do
    if op = Opcode.getstatic then push (VType.ofField type)
    else if op = Opcode.putstatic then
      let _ ← popSlots type.width
    else if op = Opcode.getfield then
      let _ ← popEntry
      push (VType.ofField type)
    else
      let _ ← popSlots type.width
      let _ ← popEntry
  | .invoke op isConstructor d => do
    let _ ← popSlots (d.parameterSlots false)
    if op ≠ Opcode.invokestatic then
      let receiver ← popEntry
      if isConstructor && op == Opcode.invokespecial then construct receiver thisClass
    pushReturn d
  | .invokeDynamic d => do
    let _ ← popSlots (d.parameterSlots false)
    pushReturn d
  | .newMultiArray type dimensions => do
    let _ ← popSlots dimensions.toNat
    push (.object type)

end Simulation

/-- Carries out the effect of an instruction in a class: the fault, if it fails, and the frame that
it leaves behind. -/
def Frame.execute (thisClass : ClassName) (effect : Effect) (f : Frame) :
    Option SimulationFault × Frame :=
  match Simulation.execute thisClass effect f with
  | .ok _ g => (none, g)
  | .error fault g => (some fault, g)

end JvmClass
