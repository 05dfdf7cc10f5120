import JvmClass.Proofs.Assembly.Changes

/-!
# Blocks and frames in sequence

While a body is written, its blocks start at ascending positions of the code, and the frames that
are given come at ascending offsets (`MethodBuilder.Sequenced`). Every event of a run in order
leaves a body like this behind, also an event that fails (`MethodBuilder.sequenced_of_run`).
-/

namespace JvmClass

/-- Offsets that ascend up to a bound. -/
def AscendTo (bound : Nat) (offsets : List Nat) : Prop :=
  offsets.Pairwise (· < ·) ∧ ∀ offset ∈ offsets, offset ≤ bound

namespace AscendTo

variable {bound bound' offset : Nat} {offsets : List Nat}

theorem mono (h : AscendTo bound offsets) (hle : bound ≤ bound') : AscendTo bound' offsets :=
  ⟨h.1, fun o ho => Nat.le_trans (h.2 o ho) hle⟩

theorem concat (h : AscendTo bound offsets) (hlast : ∀ last, offsets.getLast? = some last →
    last < offset) (hle : offset ≤ bound) : AscendTo bound (offsets ++ [offset]) := by
  have hall : ∀ o ∈ offsets, o < offset := by
    intro o ho
    obtain rfl | ⟨front, last, rfl⟩ := List.eq_nil_or_concat' offsets
    · cases ho
    have hlt := hlast last List.getLast?_concat
    rcases List.mem_append.1 ho with ho | ho
    · exact Nat.lt_trans ((List.pairwise_append.1 h.1).2.2 o ho last
        (List.mem_singleton_self _)) hlt
    · rwa [List.mem_singleton.1 ho]
  refine ⟨List.pairwise_append.2 ⟨h.1, List.pairwise_singleton _ _, fun o ho o' ho' => ?_⟩,
    fun o ho => ?_⟩
  · rw [List.mem_singleton.1 ho']
    exact hall o ho
  · rcases List.mem_append.1 ho with ho | ho
    · exact h.2 o ho
    · rwa [List.mem_singleton.1 ho]

end AscendTo

namespace MethodBuilder

/-- Blocks tile the code, and the frames that were given come one after another in it. -/
structure Sequenced (b : MethodBuilder) : Prop where
  tiled : b.graph.Tiled b.code.size
  frames : AscendTo b.code.size (b.givenFrames.toList.map Prod.fst)

variable {A : Fixup → Prop} {b b' : MethodBuilder}

theorem sequenced_ofSetting (setting : MethodSetting) (pool : ConstantPool) :
    Sequenced (ofSetting setting pool) := ⟨.empty, .nil, nofun⟩

namespace Sequenced

/-- More code, and blocks that tile it. -/
theorem grow (h : b.Sequenced) (hsize : b.code.size ≤ b'.code.size)
    (hgraph : b'.graph.Tiled b'.code.size) (hframes : b'.givenFrames = b.givenFrames) :
    b'.Sequenced := ⟨hgraph, hframes ▸ h.frames.mono hsize⟩

/-- What a body has beside its layout does not matter. -/
theorem of_eq (h : b.Sequenced) (same : b'.skeleton = b.skeleton) : b'.Sequenced := by
  simp only [skeleton, Prod.mk.injEq] at same
  obtain ⟨hcode, hgraph, hframes, -⟩ := same
  exact h.grow (Nat.le_of_eq (by rw [hcode])) (by rw [hcode, hgraph]; exact h.tiled) hframes

theorem relayout (h : b.Sequenced) {g : LabelGraph} (hg : b.graph.SameLayout g) :
    Sequenced { b with graph := g } := ⟨h.tiled.sameLayout hg, h.frames⟩

theorem addLabels (h : b.Sequenced) (count : Nat) :
    Sequenced { b with graph := b.graph.addLabels count } := ⟨h.tiled.addLabels count, h.frames⟩

/-- A label is placed at the end of the code. -/
theorem place (h : b.Sequenced) {label : Label} {starts : Bool} {g : LabelGraph}
    (hg : LabelGraph.Placing b.graph label b.code.size starts g) :
    Sequenced { b with graph := g } := by
  refine ⟨?_, h.frames⟩
  cases starts with
  | false => exact (h.tiled.joins hg).1
  | true => exact (h.tiled.starts hg).1

/-- A frame comes past the one before it. -/
theorem frame (h : b.Sequenced) (layout : Layout LabelledType)
    (later : ∀ last, b.givenFrames.back? = some last → last.1 < b.code.size) :
    Sequenced { b with givenFrames := b.givenFrames.push (b.code.size, layout) } := by
  refine ⟨h.tiled, ?_⟩
  rw [Array.toList_push, List.map_append]
  refine h.frames.concat (fun last hl => ?_) (Nat.le_refl _)
  rw [List.getLast?_map, Array.getLast?_toList] at hl
  obtain ⟨f, hf, rfl⟩ := Option.map_eq_some_iff.1 hl
  exact later f hf

theorem change (h : b.Sequenced) (hc : Change A b b') : b'.Sequenced := by
  cases hc with
  | aside same => exact h.of_eq same
  | write code grows => exact h.grow grows (h.tiled.mono grows) rfl
  | relayout graph same => exact h.relayout same
  | addLabels count => exact h.addLabels count
  | place graph placed => exact h.place placed
  | fixup => exact ⟨h.tiled, h.frames⟩
  | frame layout later => exact h.frame layout later

theorem changes (h : b.Sequenced) (hc : Changes A b b') : b'.Sequenced := by
  induction hc with
  | refl => exact h
  | tail _ hc ih => exact ih.change hc

end Sequenced

/-- Every run in order leaves blocks and frames in sequence, whichever events fail. -/
theorem sequenced_of_run {events : List MethodEvent} (h : b.Sequenced) (hempty : b.code.size = 0)
    (horder : inOrder 0 events = true)
    (hlast : ∀ event ∈ events, ∀ n, event.stage = some n → n ≤ 3) :
    (leftAfter events b).Sequenced :=
  h.changes (changes_of_run (fun _ => hempty) horder hlast)

end MethodBuilder

end JvmClass
