import Mathlib.Algebra.Order.BigOperators.Group.List
import Mathlib.Algebra.Order.Group.Nat
import Mathlib.Data.List.Induction
import JvmClass.Proofs.Flow.Layout

/-!
# Graphs by the calls that make them

A graph of labels comes about by calls that make labels, place them, add edges, set flags and settle
offsets, in any order. Some of the calls fail, and leave the graph as it is. After every call a
label that is placed belongs to the block at its position (`LabelGraph.grouped_ofCalls`), so that
blocks that start one after another tile the code (`LabelGraph.Grouped.tiled_of_ascending`).
-/

namespace JvmClass

namespace LabelGraph

/-- The calls that change a graph. -/
inductive Call where
  | addLabel
  | place (label : Label) (position : Nat)
  | addEdge (source : Label) (kind : EdgeKind) (successor : Label)
  | setFlags (label : Label) (flags : BlockFlags)
  | resolve
deriving DecidableEq

/-- The graph that a call leaves behind when it gives an answer or fails. -/
def leftBy {α : Type} : EStateM.Result ClassError LabelGraph α → LabelGraph
  | .ok _ g => g
  | .error _ g => g

/-- The graph after a call. -/
def Call.apply (g : LabelGraph) : Call → LabelGraph
  | addLabel => g.addLabel
  | place label position => leftBy (LabelGraph.place label position g)
  | addEdge source kind successor => leftBy (LabelGraph.addEdge source kind successor g)
  | setFlags label flags => g.setFlags label flags
  | resolve => g.resolve

/-- The graph after a number of calls, one after another. -/
def ofCalls (calls : List Call) : LabelGraph := calls.foldl Call.apply empty

theorem ofCalls_snoc (calls : List Call) (call : Call) :
    ofCalls (calls ++ [call]) = call.apply (ofCalls calls) := by
  unfold ofCalls
  rw [List.foldl_append]
  rfl

variable {g : LabelGraph}

/-- A label that cannot be placed leaves the graph as it is. -/
theorem place_error {label : Label} {p : Nat} {e : ClassError} {g' : LabelGraph}
    (h : place label p g = .error e g') : g' = g := by
  unfold place at h
  split at h
  · cases h
    rfl
  · split at h
    · cases h
      rfl
    · split at h
      · cases h
      · cases h

/-- An edge that cannot be added leaves the graph as it is. -/
theorem addEdge_error {source successor : Label} {kind : EdgeKind} {e : ClassError}
    {g' : LabelGraph} (h : addEdge source kind successor g = .error e g') : g' = g := by
  unfold addEdge at h
  simp only at h
  split at h
  · cases h
  · cases h
    rfl

theorem leftBy_place (g : LabelGraph) (label : Label) (p : Nat) :
    leftBy (place label p g) = g ∨
      ∃ starts, Placing g label p starts (leftBy (place label p g)) := by
  cases h : place label p g with
  | ok starts g' => exact Or.inr ⟨starts, placing h⟩
  | error e g' => exact Or.inl (place_error h)

theorem sameLayout_leftBy_addEdge (g : LabelGraph) (source : Label) (kind : EdgeKind)
    (successor : Label) : g.SameLayout (leftBy (addEdge source kind successor g)) := by
  cases h : addEdge source kind successor g with
  | ok u g' => exact sameLayout_addEdge h
  | error e g' =>
    obtain rfl := addEdge_error h
    exact .refl g'

theorem Grouped.afterPlacing {label : Label} {p : Nat} {starts : Bool} {g' : LabelGraph}
    (hg : g.Grouped) (h : Placing g label p starts g') : g'.Grouped := by
  cases starts with
  | false => exact (hg.joins h).1
  | true => exact (hg.starts h).1

theorem Grouped.call (hg : g.Grouped) (call : Call) : (call.apply g).Grouped := by
  cases call with
  | addLabel => exact hg.addLabel
  | place label p =>
    obtain hsame | ⟨starts, hp⟩ := leftBy_place g label p
    · rw [show (Call.place label p).apply g = g from hsame]
      exact hg
    · exact hg.afterPlacing hp
  | addEdge source kind successor =>
    exact hg.sameLayout (sameLayout_leftBy_addEdge g source kind successor)
  | setFlags label flags => exact hg.sameLayout (sameLayout_setFlags g label flags)
  | resolve => exact hg.sameLayout (sameLayout_resolve g)

theorem grouped_ofCalls (calls : List Call) : (ofCalls calls).Grouped := by
  induction calls using List.reverseRecOn with
  | nil => exact .empty
  | append_singleton calls call ih =>
    rw [ofCalls_snoc]
    exact ih.call call

/-- Every block starts after the one placed before it. -/
def Ascending (g : LabelGraph) : Prop := (g.blocks.filterMap g.position?).Pairwise (· < ·)

instance (g : LabelGraph) : Decidable g.Ascending :=
  inferInstanceAs (Decidable ((g.blocks.filterMap g.position?).Pairwise (· < ·)))

theorem Ascending.lt (h : g.Ascending) {i j p q : Nat} {l m : Label} (hij : i < j)
    (hl : g.chain[i]? = some l) (hm : g.chain[j]? = some m) (hp : g.position? l = some p)
    (hq : g.position? m = some q) : p < q := by
  rw [← blocks_getElem] at hl hm
  obtain ⟨hi, rfl⟩ := List.getElem?_eq_some_iff.1 hl
  obtain ⟨hj, rfl⟩ := List.getElem?_eq_some_iff.1 hm
  exact List.pairwise_iff_getElem.1 (List.pairwise_filterMap.1 h) i j hi hj hij p hp q hq

/-- Blocks that start one after another tile the code up to some size. -/
theorem Grouped.tiled_of_ascending (hg : g.Grouped) (h : g.Ascending) : ∃ size, g.Tiled size := by
  refine ⟨(g.blocks.filterMap g.position?).sum, hg.tiled (fun i l p hl hp => ?_)
    fun i j l m p q => h.lt⟩
  exact List.le_sum_of_mem (List.mem_filterMap.2 ⟨l, (mem_blocks g l).2 ⟨i, hl⟩, hp⟩)

end LabelGraph

end JvmClass
