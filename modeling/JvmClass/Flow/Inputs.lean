import JvmClass.Flow.Exploration
import JvmClass.Typing.Merge
import JvmClass.Typing.Simulation

/-!
# Input frames of blocks

Every block that can be reached gets an input frame: the merge of the frames that its incoming edges
carry. Blocks wait in a queue; the first one is simulated from its input, the frames it arrives at
are sent along its edges, and blocks whose input changes by that wait again. The inputs are final
when no block waits.
-/

namespace JvmClass

/-- The instructions of a block and what they do to the height of the stack. -/
structure BlockSummary where
  /-- Instructions with their offsets, kept when frames are computed. -/
  instructions : Array (Nat × Effect) := #[]
  /-- Change in stack height over the whole block. -/
  delta : Int := 0
  /-- Greatest stack height in the block, relative to the height on entry. -/
  peak : Int := 0
deriving Inhabited

/-- Adds an instruction to a block. -/
def BlockSummary.add (s : BlockSummary) (keep : Bool) (offset : Nat) (effect : Effect) :
    BlockSummary :=
  let delta := s.delta + effect.stackDelta
  { delta, peak := max s.peak delta
    instructions := if keep then s.instructions.push (offset, effect) else s.instructions }

/-- The frames of a method body while they are computed. -/
structure Inputs where
  frames : Std.HashMap Label Frame
  /-- The blocks that wait to be simulated, each once. -/
  waiting : List Label
  /-- The greatest stack height met so far. -/
  maxStack : Nat

/-- What does not change while frames are computed. -/
structure FlowSetting where
  graph : LabelGraph
  blocks : Std.HashMap Label BlockSummary
  hierarchy : Hierarchy
  thisClass : ClassName

namespace FlowSetting

/-- Simulates instructions from a frame. The answer is the frame after them, and the greatest stack
height after an instruction or before them. -/
def simulate (thisClass : ClassName) (peak : Nat) (f : Frame) :
    List (Nat × Effect) → Except ClassError (Frame × Nat)
  | [] => .ok (f, peak)
  | (offset, effect) :: rest =>
    match f.execute thisClass effect with
    | (some fault, _) => .error (.simulation offset fault)
    | (none, g) => simulate thisClass (max peak g.stackSize) g rest

/-- The instructions of a block. -/
def instructions (s : FlowSetting) (block : Label) : List (Nat × Effect) :=
  match s.blocks[block]? with
  | none => []
  | some summary => summary.instructions.toList

/-- The frame that an edge out of a block carries: at its end for a normal edge, and the locals on
entry with the type caught for an exception. -/
def carried (input output : Frame) : EdgeKind → Frame
  | .normal => output
  | .exception => Frame.handler input.locals (VType.instanceOf ClassName.throwable)
  | .caught type => Frame.handler input.locals type

/-- The merge that is used for edges of a kind. -/
def mergeFor (h : Hierarchy) (kind : EdgeKind) (f g : Frame) : Option Frame :=
  if kind = .normal then Frame.merge? h f g else Frame.mergeCaught? h f g

end FlowSetting

namespace Inputs

/-- The inputs when only the entry of the method has one. -/
def start (entry : Label) (f : Frame) : Inputs := ⟨Std.HashMap.insert ∅ entry f, [entry], 0⟩

/-- Makes a block wait, unless it does. -/
def await (s : Inputs) (block : Label) : Inputs :=
  if s.waiting.contains block then s else { s with waiting := s.waiting ++ [block] }

/-- Sends a frame along an edge to a block. -/
def receive (setting : FlowSetting) (s : Inputs) (kind : EdgeKind) (block : Label) (f : Frame) :
    Except ClassError Inputs :=
  match s.frames[block]? with
  | none => .ok ({ s with frames := s.frames.insert block f }.await block)
  | some existing =>
    let outcome := FlowSetting.mergeFor setting.hierarchy kind existing f
    match Frame.merged block existing f outcome with
    | .error e => .error e
    | .ok (merged, changed) =>
      let s := { s with frames := s.frames.insert block merged }
      .ok (if changed then s.await block else s)

/-- Sends frames along the edges out of a block. -/
def sendAll (setting : FlowSetting) (input output : Frame) (s : Inputs) :
    List Edge → Except ClassError Inputs
  | [] => .ok s
  | edge :: rest =>
    match s.receive setting edge.kind (setting.graph.blockOf edge.successor)
        (FlowSetting.carried input output edge.kind) with
    | .error e => .error e
    | .ok s => s.sendAll setting input output rest

/-- Simulates the first block that waits, if there is one. -/
def step? (setting : FlowSetting) (s : Inputs) : Except ClassError (Option Inputs) :=
  match s.waiting with
  | [] => .ok none
  | block :: rest =>
    let input := s.frames.getD block Frame.empty
    match FlowSetting.simulate setting.thisClass (max s.maxStack input.stackSize) input
        (setting.instructions block) with
    | .error e => .error e
    | .ok (output, maxStack) =>
      match ({ s with waiting := rest, maxStack } : Inputs).sendAll setting input output
          (setting.graph.edges block) with
      | .error e => .error e
      | .ok s => .ok (some s)

/-- Simulates blocks until none waits, at most `rounds` times. -/
def settle (setting : FlowSetting) : (rounds : Nat) → Inputs → Except ClassError Inputs
  | 0, s => if s.waiting.isEmpty then .ok s else .error .unsettledFrames
  | rounds + 1, s =>
    match s.step? setting with
    | .error e => .error e
    | .ok none => .ok s
    | .ok (some s) => settle setting rounds s

/-- The number of rounds after which frames count as unsettled: two to the power of 62. -/
def roundLimit : Nat := 4611686018427387904

end Inputs

/-- The input frames of the blocks that can be reached from the entry of a method. -/
def FlowSetting.inputs (setting : FlowSetting) (entry : Label) (f : Frame) :
    Except ClassError Inputs := (Inputs.start entry f).settle setting Inputs.roundLimit

/-- The greatest stack height of a method body when types are not tracked: blocks are entered with
the height that the edge along which they are found first carries, one for exceptions. -/
def LabelGraph.stackHeights (g : LabelGraph) (blocks : Std.HashMap Label BlockSummary)
    (entry : Label) : Std.HashMap Label Int :=
  g.explore
    (fun block height edge =>
      match edge.kind with
      | .normal => height + ((blocks.getD block {}).delta)
      | .exception | .caught _ => 1)
    entry 0

/-- The greatest stack height in any block that is found. -/
def LabelGraph.maxStack (g : LabelGraph) (blocks : Std.HashMap Label BlockSummary)
    (entry : Label) : Int :=
  (g.stackHeights blocks entry).fold
    (fun most block height => max most (height + (blocks.getD block {}).peak)) 0

end JvmClass
