import JvmClass.Error
import JvmClass.Typing.Join

/-!
# Merging frames

A block that several paths reach gets the join of the frames that they carry. Stacks must agree in
height and join entry by entry; local variables that have no join become unusable. Frames that do
not meet leave the frame unchanged.
-/

namespace JvmClass

namespace Frame

/-- The joins of the entries of two stacks of one height, if all of them meet. -/
def joinStack (h : Hierarchy) : List VType → List VType → Option (List VType)
  | [], [] => some []
  | a :: as, b :: bs =>
    match a.join h b with
    | none => none
    | some joined => (joinStack h as bs).map (joined :: ·)
  | _, _ => none

/-- The meets of the locals of a frame with those of another from a slot on, a wide one together
with its upper half. -/
def meetLocals (h : Hierarchy) (f g : Frame) (slot : Nat) (met : Array VType) : Array VType :=
  if hs : slot < f.locals.size then
    let joined := VType.meet h f.locals[slot] (g.local? slot)
    let met := met.push joined
    meetLocals h f g (slot + joined.width) (if joined.width = 2 then met.push .top else met)
  else met
termination_by f.locals.size - slot
decreasing_by
  have := (VType.meet h f.locals[slot] (g.local? slot)).width_pos
  omega

/-- Drops unusable locals at the end, except the upper half of a wide one. -/
def trimLocals (locals : Array VType) : Array VType :=
  if h : locals.size = 0 then locals
  else if locals[locals.size - 1] = .top &&
      !(2 ≤ locals.size && (locals[locals.size - 2]?.getD .top).width = 2) then
    trimLocals locals.pop
  else locals
termination_by locals.size
decreasing_by simp; omega

/-- Merges a frame with one that a path carries, joining the stacks by one hierarchy and the locals
by another. The answer is the merged frame, if the frames meet. -/
def mergeBy? (stackHierarchy hierarchy : Hierarchy) (f g : Frame) : Option Frame :=
  match joinStack stackHierarchy f.stack.toList g.stack.toList with
  | none => none
  | some types =>
    let stack := SlotVec.ofList types
    if stack.nextOffset = f.stack.nextOffset then
      some ⟨trimLocals (meetLocals hierarchy f g 0 #[]), stack⟩
    else none

/-- Merges a frame with one that a jump carries. -/
def merge? (h : Hierarchy) (f g : Frame) : Option Frame := mergeBy? h h f g

/-- Merges the frame of a handler with one that an exception carries: caught types meet no higher
than everything that can be thrown. -/
def mergeCaught? (h : Hierarchy) (f g : Frame) : Option Frame := mergeBy? h.caught h f g

/-- Whether a merge has changed the frame. -/
def changedBy (f merged : Frame) : Bool :=
  f.stack.toList != merged.stack.toList || f.locals != merged.locals

/-- The outcome of a merge at a label: the merged frame and whether it differs, or the frames that
do not meet. -/
def merged (label : Label) (f g : Frame) : Option Frame → Except ClassError (Frame × Bool)
  | none => .error (.incompatibleFrames label f g)
  | some m => .ok (m, f.changedBy m)

/-- What a merge at a label reports, and the frame that it leaves: the merged one, or the frame as
it was if the frames do not meet. -/
def outcome (label : Label) (f g : Frame) (m : Option Frame) : Except ClassError Bool × Frame :=
  match merged label f g m with
  | .error e => (.error e, f)
  | .ok (m, changed) => (.ok changed, m)

/-- Merges in place a frame that a jump carries. -/
def merge (h : Hierarchy) (label : Label) (f g : Frame) : Except ClassError Bool × Frame :=
  outcome label f g (merge? h f g)

/-- Merges in place a frame that an exception carries. -/
def mergeCaught (h : Hierarchy) (label : Label) (f g : Frame) : Except ClassError Bool × Frame :=
  outcome label f g (mergeCaught? h f g)

end Frame

end JvmClass
