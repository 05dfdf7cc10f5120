import JvmClass.Proofs.Flow.Rounds

/-!
# The blocks that have an input

A block gets an input frame exactly if edges lead to it from the entry (`LabelGraph.Reaches`): every
block that gets one is the entry or the end of an edge of a block that has one, and when no block
waits the edges of every block with an input have been followed (`FlowSetting.inputs_iff_reaches`).
-/

namespace JvmClass

/-- The blocks to which edges lead from the entry of a method. -/
inductive LabelGraph.Reaches (g : LabelGraph) (entry : Label) : Label → Prop
  | entry : Reaches g entry entry
  | step {block next : Label} (h : Reaches g entry block) (edge : next ∈ g.successors block) :
    Reaches g entry next

namespace Inputs

variable {setting : FlowSetting} {s s' : Inputs} {entry : Label} {input output : Frame}
  {edges : List Edge}

/-- Inputs are found along edges only, and the edges of a block that does not wait have been
followed. -/
structure Followed (setting : FlowSetting) (entry : Label) (s : Inputs) : Prop where
  begun : ∃ f, s.frames[entry]? = some f
  reached : ∀ block f, s.frames[block]? = some f → setting.graph.Reaches entry block
  closed : ∀ block f, s.frames[block]? = some f → block ∉ s.waiting →
    ∀ edge ∈ setting.graph.edges block, ∃ g, s.frames[setting.graph.blockOf edge.successor]? = some g

theorem followed_start (entry : Label) (f : Frame) : Followed setting entry (start entry f) := by
  have honly : ∀ block g, (start entry f).frames[block]? = some g → block = entry := by
    intro block g hg
    simp only [start, Std.HashMap.getElem?_insert, Std.HashMap.getElem?_empty] at hg
    split at hg
    · exact (beq_iff_eq.1 ‹_›).symm
    · cases hg
  refine ⟨⟨f, by simp [start]⟩, fun block g hg => ?_, fun block g hg hb => ?_⟩
  · rw [honly block g hg]
    exact .entry
  · exact absurd (List.mem_singleton.2 (honly block g hg)) hb

/-- Along edges only their ends get inputs, and each of them does. -/
theorem Sent.frames (hs : Sent setting input output s edges s') :
    (∀ block f, s'.frames[block]? = some f → (∃ g, s.frames[block]? = some g) ∨
      ∃ edge ∈ edges, block = setting.graph.blockOf edge.successor) ∧
    ∀ edge ∈ edges, ∃ f, s'.frames[setting.graph.blockOf edge.successor]? = some f := by
  induction hs with
  | nil s => exact ⟨fun block f hf => Or.inl ⟨f, hf⟩, by simp⟩
  | @cons s mid s' edge rest head tail ih =>
    refine ⟨fun block f hf => ?_, fun e he => ?_⟩
    · rcases ih.1 block f hf with ⟨g, hg⟩ | ⟨e, he, hb⟩
      · by_cases hb : block = setting.graph.blockOf edge.successor
        · exact Or.inr ⟨edge, List.mem_cons_self, hb⟩
        · rw [head.other hb] at hg
          exact Or.inl ⟨g, hg⟩
      · exact Or.inr ⟨e, List.mem_cons_of_mem _ he, hb⟩
    · rcases List.mem_cons.1 he with rfl | he
      · obtain ⟨g, hg⟩ := head.frame
        exact tail.frame hg
      · exact ih.2 e he

theorem Round.followed (hr : Round setting s s') (ht : s.Tidy) (h : Followed setting entry s) :
    Followed setting entry s' := by
  have hkeep : ∀ {block f}, s.frames[block]? = some f → ∃ g, s'.frames[block]? = some g :=
    fun hf => hr.frame hf
  obtain @⟨block, rest, output, maxStack, head, simulated, sent⟩ := hr
  have hinput := ht.head head
  have hregular := ht.regular hinput
  obtain ⟨hfound, hends⟩ := sent.frames
  refine ⟨?_, fun b f hf => ?_, fun b f hf hb edge he => ?_⟩
  · obtain ⟨f, hf⟩ := h.begun
    exact hkeep hf
  · rcases hfound b f hf with ⟨g, hg⟩ | ⟨edge, he, rfl⟩
    · exact h.reached b g hg
    · exact .step (h.reached block _ hinput) (List.mem_map.2 ⟨edge, he, rfl⟩)
  · by_cases hblock : b = block
    · subst hblock
      exact hends edge he
    · -- A block that does not wait now had its input before the round, and did not wait then.
      rw [sent.settled hregular (FlowSetting.regular_simulate hregular simulated)
        (ht.dequeue head _) hb] at hf
      have hnot : b ∉ s.waiting := by
        rw [head, List.mem_cons]
        rintro (he | hmem)
        · exact hblock he
        · exact hb (sent.waiting_subset hmem)
      obtain ⟨g, hg⟩ := h.closed b f hf hnot edge he
      exact hkeep hg

theorem rounds_followed (hr : Relation.ReflTransGen (Round setting) s s') (ht : s.Tidy)
    (h : Followed setting entry s) : Followed setting entry s' := by
  induction hr with
  | refl => exact h
  | tail hrounds hlast ih => exact hlast.followed (rounds_tidy hrounds ht) ih

end Inputs

/-- The blocks with an input are those that edges lead to from the entry. -/
theorem FlowSetting.inputs_iff_reaches {setting : FlowSetting} {entry : Label} {f : Frame}
    {r : Inputs} (hf : f.Regular) (h : setting.inputs entry f = .ok r) (block : Label) :
    (∃ input, r.frames[block]? = some input) ↔ setting.graph.Reaches entry block := by
  obtain ⟨hrounds, hw⟩ := Inputs.rounds_of_settle h
  have hfollowed := Inputs.rounds_followed hrounds (Inputs.tidy_start entry hf)
    (Inputs.followed_start entry f)
  refine ⟨fun ⟨input, hi⟩ => hfollowed.reached block input hi, fun hreach => ?_⟩
  induction hreach with
  | entry => exact hfollowed.begun
  | step _ edge ih =>
    obtain ⟨input, hi⟩ := ih
    obtain ⟨e, he, rfl⟩ := List.mem_map.1 edge
    exact hfollowed.closed _ input hi (by rw [hw]; exact List.not_mem_nil) e he

end JvmClass
