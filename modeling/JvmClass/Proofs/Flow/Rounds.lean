import JvmClass.Flow.Inputs
import JvmClass.Proofs.Typing.Execution
import JvmClass.Proofs.Typing.Merging
import Mathlib.Logic.Relation

/-!
# Rounds of the frame computation

In a round the first block that waits is simulated and its frames are received along its edges. This
module has what one receipt, the edges of one block and one round do to the inputs and to the blocks
that wait, and that computed frames stay regular (`Tidy`).
-/

namespace JvmClass

namespace FlowSetting

theorem instructions_eq {setting : FlowSetting} {block : Label} {list : List (Nat × Effect)}
    (h : setting.blocks[block]?.map (·.instructions.toList) = some list) :
    setting.instructions block = list := by
  obtain ⟨summary, hs, hl⟩ := Option.map_eq_some_iff.1 h
  simp only [FlowSetting.instructions, hs]
  exact hl

/-- The hierarchy by which an edge joins stacks. -/
def stackHierarchy (h : Hierarchy) (kind : EdgeKind) : Hierarchy :=
  if kind = .normal then h else h.caught

theorem joinsStacks (h : Hierarchy) (kind : EdgeKind) : h.JoinsStacks (stackHierarchy h kind) := by
  unfold stackHierarchy
  split
  · exact Or.inl rfl
  · exact Or.inr rfl

theorem mergeFor_eq (h : Hierarchy) (kind : EdgeKind) (f g : Frame) :
    mergeFor h kind f g = Frame.mergeBy? (stackHierarchy h kind) h f g := by
  unfold mergeFor stackHierarchy
  split <;> rfl

/-- The frame after a block does not depend on the stack height so far. -/
theorem simulate_peak {thisClass : ClassName} {peak height : Nat} (peak' : Nat) {f g : Frame}
    {instructions : List (Nat × Effect)}
    (h : simulate thisClass peak f instructions = .ok (g, height)) :
    ∃ height', simulate thisClass peak' f instructions = .ok (g, height') := by
  induction instructions generalizing peak peak' f with
  | nil =>
    cases h
    exact ⟨peak', rfl⟩
  | cons instruction rest ih =>
    obtain ⟨offset, effect⟩ := instruction
    unfold simulate at h ⊢
    split at h
    · cases h
    · exact ih _ h

/-- Simulation ends in a regular frame. -/
theorem regular_simulate {thisClass : ClassName} {peak height : Nat} {f g : Frame}
    {instructions : List (Nat × Effect)} (hf : f.Regular)
    (h : simulate thisClass peak f instructions = .ok (g, height)) : g.Regular := by
  induction instructions generalizing peak f with
  | nil =>
    cases h
    exact hf
  | cons instruction rest ih =>
    obtain ⟨offset, effect⟩ := instruction
    unfold simulate at h
    split at h
    · cases h
    · rename_i he
      exact ih (hf.execute he) h

/-- Edges carry regular frames. -/
theorem regular_carried {input output : Frame} (hi : input.Regular) (ho : output.Regular)
    (kind : EdgeKind) : (carried input output kind).Regular := by
  cases kind with
  | normal => exact ho
  | exception => exact Frame.regular_handler hi.upperHalves _
  | caught type => exact Frame.regular_handler hi.upperHalves type

end FlowSetting

namespace Inputs

variable {setting : FlowSetting} {s s' : Inputs} {block : Label} {kind : EdgeKind} {f : Frame}

@[simp] theorem frames_await (s : Inputs) (block : Label) : (s.await block).frames = s.frames := by
  unfold await
  split <;> rfl

@[simp] theorem mem_waiting_await {s : Inputs} {block b : Label} :
    b ∈ (s.await block).waiting ↔ b ∈ s.waiting ∨ b = block := by
  unfold await
  split
  · rename_i hc
    rw [List.contains_iff_mem] at hc
    constructor
    · exact Or.inl
    · rintro (h | rfl)
      · exact h
      · exact hc
  · simp

theorem nodup_await (hs : s.waiting.Nodup) (block : Label) : (s.await block).waiting.Nodup := by
  unfold await
  split
  · exact hs
  · rename_i hc
    rw [List.contains_iff_mem] at hc
    rw [List.nodup_append]
    refine ⟨hs, List.nodup_singleton block, ?_⟩
    intro a ha b hb he
    rw [List.mem_singleton] at hb
    exact hc (hb ▸ he ▸ ha)

/-- The ways in which a frame is received at a block: the block is found, its input changes, or it
covers the frame already. -/
inductive Received (setting : FlowSetting) (s : Inputs) (kind : EdgeKind) (block : Label)
    (f : Frame) : Inputs → Prop where
  | found (hn : s.frames[block]? = none) :
    Received setting s kind block f (({ s with frames := s.frames.insert block f }).await block)
  | changed {old merged : Frame} (ho : s.frames[block]? = some old)
    (hm : FlowSetting.mergeFor setting.hierarchy kind old f = some merged)
    (hc : old.changedBy merged = true) :
    Received setting s kind block f
      (({ s with frames := s.frames.insert block merged }).await block)
  | kept {old merged : Frame} (ho : s.frames[block]? = some old)
    (hm : FlowSetting.mergeFor setting.hierarchy kind old f = some merged)
    (hc : old.changedBy merged = false) :
    Received setting s kind block f { s with frames := s.frames.insert block merged }

theorem received (h : s.receive setting kind block f = .ok s') :
    Received setting s kind block f s' := by
  unfold receive at h
  split at h
  · rename_i hn
    cases h
    exact .found hn
  · rename_i old ho
    simp only at h
    cases hm : FlowSetting.mergeFor setting.hierarchy kind old f with
    | none =>
      rw [hm] at h
      cases h
    | some merged =>
      rw [hm] at h
      cases hc : old.changedBy merged with
      | true =>
        simp only [Frame.merged, hc, if_true] at h
        cases h
        exact .changed ho hm hc
      | false =>
        simp only [Frame.merged, hc, Bool.false_eq_true, if_false] at h
        cases h
        exact .kept ho hm hc

theorem Received.receive (h : Received setting s kind block f s') :
    s.receive setting kind block f = .ok s' := by
  unfold Inputs.receive
  cases h with
  | found hn => rw [hn]
  | changed ho hm hc => simp only [ho, hm, Frame.merged, hc, if_true]
  | kept ho hm hc => simp only [ho, hm, Frame.merged, hc, Bool.false_eq_true, if_false]

/-- Frames are regular, and the blocks that wait have one and wait once. -/
structure Tidy (s : Inputs) : Prop where
  regular : ∀ {block : Label} {f : Frame}, s.frames[block]? = some f → f.Regular
  waiting : ∀ {block : Label}, block ∈ s.waiting → ∃ f, s.frames[block]? = some f
  nodup : s.waiting.Nodup

theorem tidy_start (entry : Label) (hf : f.Regular) : (start entry f).Tidy where
  regular := by
    intro block g hg
    simp only [start, Std.HashMap.getElem?_insert, Std.HashMap.getElem?_empty] at hg
    split at hg
    · cases hg
      exact hf
    · cases hg
  waiting := by
    intro block hb
    obtain rfl := List.mem_singleton.1 hb
    exact ⟨f, by simp [start]⟩
  nodup := List.nodup_singleton entry

/-- What a block has as its input after a receipt. -/
theorem Received.frame (hr : Received setting s kind block f s') :
    ∃ g, s'.frames[block]? = some g := by
  cases hr with
  | found hn => exact ⟨f, by simp⟩
  | @changed old merged ho hm hc => exact ⟨merged, by simp⟩
  | @kept old merged ho hm hc => exact ⟨merged, by simp⟩

theorem Received.other (hr : Received setting s kind block f s') {b : Label} (hb : b ≠ block) :
    s'.frames[b]? = s.frames[b]? := by
  have hne : (block == b) = false := beq_eq_false_iff_ne.2 (Ne.symm hb)
  cases hr with
  | found hn => simp [Std.HashMap.getElem?_insert, hne]
  | changed ho hm hc => simp [Std.HashMap.getElem?_insert, hne]
  | kept ho hm hc => simp [Std.HashMap.getElem?_insert, hne]

theorem Received.waiting_subset (hr : Received setting s kind block f s') :
    s.waiting ⊆ s'.waiting := by
  intro b hb
  cases hr with
  | found hn => exact mem_waiting_await.2 (Or.inl hb)
  | changed ho hm hc => exact mem_waiting_await.2 (Or.inl hb)
  | kept ho hm hc => exact hb

/-- The merge that an input went through. -/
theorem Received.merged (hr : Received setting s kind block f s') (ht : s.Tidy) {old : Frame}
    (ho : s.frames[block]? = some old) :
    ∃ new, s'.frames[block]? = some new ∧
      Frame.Merged (FlowSetting.stackHierarchy setting.hierarchy kind) setting.hierarchy old f
        new := by
  cases hr with
  | found hn =>
    rw [hn] at ho
    cases ho
  | @changed old' merged ho' hm hc =>
    rw [ho'] at ho
    cases ho
    rw [FlowSetting.mergeFor_eq] at hm
    exact ⟨merged, by simp, Frame.merged_of_mergeBy? (ht.regular ho') hm⟩
  | @kept old' merged ho' hm hc =>
    rw [ho'] at ho
    cases ho
    rw [FlowSetting.mergeFor_eq] at hm
    exact ⟨merged, by simp, Frame.merged_of_mergeBy? (ht.regular ho') hm⟩

/-- A block that does not wait after a receipt has kept its input. -/
theorem Received.settled (hr : Received setting s kind block f s') (ht : s.Tidy) {b : Label}
    (hb : b ∉ s'.waiting) : s'.frames[b]? = s.frames[b]? := by
  by_cases he : b = block
  · subst he
    cases hr with
    | found hn => exact absurd (mem_waiting_await.2 (Or.inr rfl)) hb
    | changed ho hm hc => exact absurd (mem_waiting_await.2 (Or.inr rfl)) hb
    | @kept old merged ho hm hc =>
      rw [FlowSetting.mergeFor_eq] at hm
      have hm' := Frame.merged_of_mergeBy? (ht.regular ho) hm
      rw [hm'.eq_of_unchanged (ht.regular ho) hc]
      simp [ho]
  · exact hr.other he

theorem Received.tidy (hr : Received setting s kind block f s') (hf : f.Regular) (ht : s.Tidy) :
    s'.Tidy := by
  refine ⟨?_, ?_, ?_⟩
  · intro b g hg
    by_cases hb : b = block
    · subst hb
      cases ho : s.frames[b]? with
      | none =>
        cases hr with
        | found hn =>
          simp only [frames_await, Std.HashMap.getElem?_insert_self, Option.some.injEq] at hg
          exact hg ▸ hf
        | changed ho' hm hc =>
          rw [ho] at ho'
          cases ho'
        | kept ho' hm hc =>
          rw [ho] at ho'
          cases ho'
      | some old =>
        obtain ⟨new, hnew, hm⟩ := hr.merged ht ho
        rw [hnew] at hg
        cases hg
        exact hm.regular
    · rw [hr.other hb] at hg
      exact ht.regular hg
  · intro b hb
    by_cases he : b = block
    · subst he
      exact hr.frame
    · rw [hr.other he]
      apply ht.waiting
      cases hr with
      | found hn => exact (mem_waiting_await.1 hb).resolve_right he
      | changed ho hm hc => exact (mem_waiting_await.1 hb).resolve_right he
      | kept ho hm hc => exact hb
  · cases hr with
    | found hn =>
      apply nodup_await
      exact ht.nodup
    | changed ho hm hc =>
      apply nodup_await
      exact ht.nodup
    | kept ho hm hc => exact ht.nodup

/-- The receipts along a list of edges of one block. -/
inductive Sent (setting : FlowSetting) (input output : Frame) :
    Inputs → List Edge → Inputs → Prop where
  | nil (s : Inputs) : Sent setting input output s [] s
  | cons {s mid s' : Inputs} {edge : Edge} {rest : List Edge}
    (head : Received setting s edge.kind (setting.graph.blockOf edge.successor)
      (FlowSetting.carried input output edge.kind) mid)
    (tail : Sent setting input output mid rest s') :
    Sent setting input output s (edge :: rest) s'

variable {input output : Frame} {edges : List Edge}

theorem sent (h : s.sendAll setting input output edges = .ok s') :
    Sent setting input output s edges s' := by
  induction edges generalizing s with
  | nil =>
    cases h
    exact .nil _
  | cons edge rest ih =>
    unfold sendAll at h
    split at h
    · cases h
    · rename_i mid hmid
      exact .cons (received hmid) (ih h)

theorem Sent.sendAll (h : Sent setting input output s edges s') :
    s.sendAll setting input output edges = .ok s' := by
  induction h with
  | nil s => rfl
  | cons head tail ih =>
    unfold Inputs.sendAll
    rw [head.receive]
    exact ih

theorem Sent.waiting_subset (hs : Sent setting input output s edges s') :
    s.waiting ⊆ s'.waiting := by
  induction hs with
  | nil s => exact List.Subset.refl _
  | cons head tail ih => exact List.Subset.trans head.waiting_subset ih

theorem Sent.frame (hs : Sent setting input output s edges s') {f : Frame}
    (hf : s.frames[block]? = some f) : ∃ g, s'.frames[block]? = some g := by
  induction hs generalizing f with
  | nil s => exact ⟨f, hf⟩
  | @cons s mid s' edge rest head tail ih =>
    by_cases he : block = setting.graph.blockOf edge.successor
    · subst he
      obtain ⟨g, hg⟩ := head.frame
      exact ih hg
    · exact ih ((head.other he).trans hf)

theorem Sent.tidy (hs : Sent setting input output s edges s') (hi : input.Regular)
    (ho : output.Regular) (ht : s.Tidy) : s'.Tidy := by
  induction hs with
  | nil s => exact ht
  | cons head tail ih => exact ih (head.tidy (FlowSetting.regular_carried hi ho _) ht)

/-- A block that does not wait after its receipts has kept its input. -/
theorem Sent.settled (hs : Sent setting input output s edges s') (hi : input.Regular)
    (ho : output.Regular) (ht : s.Tidy) (hb : block ∉ s'.waiting) :
    s'.frames[block]? = s.frames[block]? := by
  induction hs with
  | nil s => rfl
  | cons head tail ih =>
    have hmid := fun h => hb (tail.waiting_subset h)
    rw [ih (head.tidy (FlowSetting.regular_carried hi ho _) ht) hb, head.settled ht hmid]

/-- A round: the first block that waits is simulated, and its frames are received along its
edges. -/
inductive Round (setting : FlowSetting) (s s' : Inputs) : Prop where
  | mk {block : Label} {rest : List Label} {output : Frame} {maxStack : Nat}
    (head : s.waiting = block :: rest)
    (simulated : FlowSetting.simulate setting.thisClass
      (max s.maxStack (s.frames.getD block Frame.empty).stackSize)
      (s.frames.getD block Frame.empty) (setting.instructions block) = .ok (output, maxStack))
    (sent : Sent setting (s.frames.getD block Frame.empty) output
      { s with waiting := rest, maxStack } (setting.graph.edges block) s')

theorem round (h : s.step? setting = .ok (some s')) : Round setting s s' := by
  unfold step? at h
  split at h
  · cases h
  · rename_i block rest hw
    simp only at h
    split at h
    · cases h
    · rename_i output maxStack hsim
      split at h
      · cases h
      · rename_i final hfinal
        cases h
        exact .mk hw hsim (sent hfinal)

/-- A round from the input of the first block that waits. -/
theorem Round.of_frame (input output : Frame) (maxStack : Nat) {rest : List Label}
    (hw : s.waiting = block :: rest) (hf : s.frames[block]? = some input)
    (hsim : FlowSetting.simulate setting.thisClass (max s.maxStack input.stackSize) input
      (setting.instructions block) = .ok (output, maxStack))
    (hsent : Sent setting input output { s with waiting := rest, maxStack }
      (setting.graph.edges block) s') : Round setting s s' := by
  have hd : s.frames.getD block Frame.empty = input := by
    rw [Std.HashMap.getD_eq_getD_getElem?, hf]
    rfl
  subst hd
  exact .mk hw hsim hsent

theorem Round.step?_eq (h : Round setting s s') : s.step? setting = .ok (some s') := by
  obtain ⟨head, simulated, sent⟩ := h
  unfold step?
  rw [head]
  simp only [simulated, sent.sendAll]

/-- What a round leads to is determined. -/
theorem Round.unique {s'' : Inputs} (h : Round setting s s') (h' : Round setting s s'') :
    s' = s'' := by
  have heq := h.step?_eq.symm.trans h'.step?_eq
  cases heq
  rfl

/-- A round is carried out before the others. -/
theorem Round.settle (h : Round setting s s') (rounds : Nat) :
    s.settle setting (rounds + 1) = s'.settle setting rounds := by
  rw [Inputs.settle, h.step?_eq]

/-- There are no rounds when no block waits. -/
theorem Round.ne_nil (h : Round setting s s') : s.waiting ≠ [] := by
  obtain ⟨head, -, -⟩ := h
  rw [head]
  exact List.cons_ne_nil _ _

/-- Nothing changes when no block waits. -/
theorem settle_of_waiting (hw : s.waiting = []) (rounds : Nat) :
    s.settle setting rounds = .ok s := by
  cases rounds with
  | zero =>
    unfold settle
    rw [hw]
    rfl
  | succ rounds =>
    unfold settle step?
    rw [hw]

/-- Inputs are settled after rounds that leave no block waiting. -/
theorem rounds_of_settle {rounds : Nat} (h : s.settle setting rounds = .ok s') :
    Relation.ReflTransGen (Round setting) s s' ∧ s'.waiting = [] := by
  induction rounds generalizing s with
  | zero =>
    unfold settle at h
    split at h
    · rename_i hw
      cases h
      exact ⟨.refl, List.isEmpty_iff.1 hw⟩
    · cases h
  | succ rounds ih =>
    unfold settle at h
    split at h
    · cases h
    · rename_i hnone
      cases h
      refine ⟨.refl, ?_⟩
      unfold step? at hnone
      split at hnone
      · assumption
      · simp only at hnone
        split at hnone
        · cases hnone
        · split at hnone <;> cases hnone
    · rename_i next hnext
      obtain ⟨hrun, hw⟩ := ih h
      exact ⟨.head (round hnext) hrun, hw⟩

/-- The input of the block at the head of the queue. -/
theorem Tidy.head (ht : s.Tidy) {rest : List Label} (hw : s.waiting = block :: rest) :
    s.frames[block]? = some (s.frames.getD block Frame.empty) := by
  obtain ⟨f, hf⟩ := ht.waiting (hw ▸ List.mem_cons_self)
  rw [Std.HashMap.getD_eq_getD_getElem?, hf]
  rfl

/-- The first block stops waiting, and its input goes with it. -/
theorem Tidy.dequeue (ht : s.Tidy) {rest : List Label} (hw : s.waiting = block :: rest)
    (maxStack : Nat) : ({ s with waiting := rest, maxStack } : Inputs).Tidy where
  regular := ht.regular
  waiting hb := ht.waiting (hw ▸ List.mem_cons_of_mem _ hb)
  nodup := (List.nodup_cons.1 (hw ▸ ht.nodup)).2

theorem Round.tidy (hr : Round setting s s') (ht : s.Tidy) : s'.Tidy := by
  obtain ⟨head, simulated, sent⟩ := hr
  have hi := ht.regular (ht.head head)
  exact sent.tidy hi (FlowSetting.regular_simulate hi simulated) (ht.dequeue head _)

/-- Blocks keep having an input. -/
theorem Round.frame (hr : Round setting s s') {f : Frame} (hf : s.frames[block]? = some f) :
    ∃ g, s'.frames[block]? = some g := by
  obtain ⟨-, -, sent⟩ := hr
  exact sent.frame hf

theorem rounds_tidy (hr : Relation.ReflTransGen (Round setting) s s') (ht : s.Tidy) : s'.Tidy := by
  induction hr with
  | refl => exact ht
  | tail _ hlast ih => exact hlast.tidy ih

/-- Every input has a property, which may depend on the block. -/
def All (P : Label → Frame → Prop) (s : Inputs) : Prop :=
  ∀ (block : Label) (f : Frame), s.frames[block]? = some f → P block f

section All

variable {P : Label → Frame → Prop}

theorem all_start {entry : Label} (hf : P entry f) : (start entry f).All P := by
  intro block g hg
  simp only [start, Std.HashMap.getElem?_insert, Std.HashMap.getElem?_empty] at hg
  split at hg
  · rename_i he
    cases hg
    exact beq_iff_eq.1 he ▸ hf
  · cases hg

variable (hm : ∀ {block : Label} {g h : Hierarchy} {f k m : Frame}, f.Regular →
  Frame.Merged g h f k m → P block f → P block k → P block m)
include hm

theorem Received.all (hr : Received setting s kind block f s') (ht : s.Tidy) (hf : P block f)
    (h : s.All P) : s'.All P := by
  intro b g hg
  by_cases hb : b = block
  · subst hb
    cases ho : s.frames[b]? with
    | none =>
      cases hr with
      | found hn =>
        rw [frames_await, Std.HashMap.getElem?_insert_self] at hg
        cases hg
        exact hf
      | changed ho' _ _ => cases ho.symm.trans ho'
      | kept ho' _ _ => cases ho.symm.trans ho'
    | some old =>
      obtain ⟨new, hnew, hmerged⟩ := hr.merged ht ho
      cases hnew.symm.trans hg
      exact hm (ht.regular ho) hmerged (h b old ho) hf
  · rw [hr.other hb] at hg
    exact h b g hg

theorem Sent.all (hs : Sent setting input output s edges s') (hi : input.Regular)
    (ho : output.Regular) (ht : s.Tidy)
    (hcarried : ∀ edge ∈ edges, P (setting.graph.blockOf edge.successor)
      (FlowSetting.carried input output edge.kind)) (h : s.All P) : s'.All P := by
  induction hs with
  | nil s => exact h
  | cons head tail ih =>
    rw [List.forall_mem_cons] at hcarried
    exact ih (head.tidy (FlowSetting.regular_carried hi ho _) ht) hcarried.2
      (head.all hm ht hcarried.1 h)

end All

end Inputs

end JvmClass
