import Std.Data.HashMap
import JvmClass.Flow.LabelGraph

/-!
# Exploring a graph from a block

`LabelGraph.explore` walks along edges and gives a value to every block that it finds, computed from
the edge along which the block was found first. It ends because every block that it adds is the
successor of some edge and was not found before. The reachable blocks and the stack heights are both
such walks.
-/

namespace JvmClass

/-- Fewer elements pass a filter that is nowhere weaker and rejects one that the other accepts. -/
theorem length_filter_lt {α : Type} {p q : α → Bool} {l : List α}
    (h : ∀ x ∈ l, q x = true → p x = true) {a : α} (ha : a ∈ l) (hp : p a = true)
    (hq : q a = false) : (l.filter q).length < (l.filter p).length := by
  induction l with
  | nil => simp at ha
  | cons x rest ih =>
    have hle : (rest.filter q).length ≤ (rest.filter p).length := by
      clear ih ha
      induction rest with
      | nil => simp
      | cons y ys ihy =>
        have hy := h y (by simp)
        have := ihy fun z hz => h z (by
          rcases List.mem_cons.1 hz with rfl | hz
          · simp
          · simp [hz])
        by_cases hqy : q y = true
        · simp only [List.filter_cons, hqy, hy hqy, if_true, List.length_cons]; omega
        · by_cases hpy : p y = true
          · simp only [List.filter_cons, hqy, hpy, if_true, List.length_cons]
            simp; omega
          · simp [hqy, hpy]; omega
    rcases List.mem_cons.1 ha with rfl | hmem
    · simp only [List.filter_cons, hp, hq, if_true, List.length_cons]
      simp; omega
    · have hlt := ih (fun z hz => h z (by simp [hz])) hmem
      by_cases hqx : q x = true
      · simp only [List.filter_cons, hqx, h x (by simp) hqx, if_true, List.length_cons]; omega
      · by_cases hpx : p x = true
        · simp only [List.filter_cons, hqx, hpx, if_true, List.length_cons]
          simp; omega
        · simp [hqx, hpx]; omega

namespace LabelGraph

variable {α : Type}

/-- Every block to which some edge leads. -/
def allSuccessors (g : LabelGraph) : List Label :=
  g.labels.toList.flatMap fun d => d.edges.toList.map fun edge => g.blockOf edge.successor

/-- Every edge is recorded at some label. -/
theorem exists_of_mem_edges {g : LabelGraph} {block : Label} {edge : Edge}
    (h : edge ∈ g.edges block) : ∃ data ∈ g.labels, edge ∈ data.edges := by
  unfold edges at h
  split at h
  · simp at h
  · rename_i data hd
    exact ⟨data, Array.mem_of_getElem? hd, Array.mem_toList_iff.1 h⟩

theorem mem_allSuccessors {g : LabelGraph} {block : Label} {edge : Edge}
    (h : edge ∈ g.edges block) : g.blockOf edge.successor ∈ g.allSuccessors := by
  obtain ⟨data, hd, he⟩ := exists_of_mem_edges h
  refine List.mem_flatMap.2 ⟨data, Array.mem_toList_iff.2 hd, ?_⟩
  exact List.mem_map.2 ⟨edge, Array.mem_toList_iff.2 he, rfl⟩

/-- How many ends of edges have not been found. -/
def unfound (g : LabelGraph) (found : Std.HashMap Label α) : Nat :=
  (g.allSuccessors.filter fun l => !found.contains l).length

/-- What is left to visit, and the values of the blocks found. -/
structure Front (α : Type) where
  toVisit : List Label
  found : Std.HashMap Label α

/-- Finds the block that an edge leads to, unless it has been found. -/
def discover (g : LabelGraph) (along : Edge → α) (front : Front α) (edge : Edge) : Front α :=
  let block := g.blockOf edge.successor
  if front.found.contains block then front
  else ⟨block :: front.toVisit, front.found.insert block (along edge)⟩

/-- Finding a block uses up an end of an edge for each block to be visited. -/
theorem discover_measure {g : LabelGraph} {along : Edge → α} {front : Front α} {edge : Edge}
    (h : g.blockOf edge.successor ∈ g.allSuccessors) :
    g.unfound (g.discover along front edge).found + (g.discover along front edge).toVisit.length ≤
      g.unfound front.found + front.toVisit.length := by
  unfold discover
  by_cases hc : front.found.contains (g.blockOf edge.successor) = true
  · simp [hc]
  · simp only [hc, Bool.false_eq_true, if_false, List.length_cons]
    have : g.unfound (front.found.insert (g.blockOf edge.successor) (along edge)) <
        g.unfound front.found := by
      refine length_filter_lt (fun x _ hx => ?_) h ?_ ?_
      · simp only [Std.HashMap.contains_insert, Bool.not_or, Bool.and_eq_true] at hx
        exact hx.2
      · simpa using hc
      · simp
    omega

theorem foldl_discover_measure {g : LabelGraph} {along : Edge → α} (es : List Edge)
    (front : Front α) (h : ∀ edge ∈ es, g.blockOf edge.successor ∈ g.allSuccessors) :
    g.unfound (es.foldl (g.discover along) front).found +
        (es.foldl (g.discover along) front).toVisit.length ≤
      g.unfound front.found + front.toVisit.length := by
  induction es generalizing front with
  | nil => exact Nat.le_refl _
  | cons edge rest ih =>
    exact Nat.le_trans (ih _ fun e he => h e (by simp [he]))
      (discover_measure (h edge (by simp)))

/-- Walks from the blocks to be visited, the last found first. -/
def exploreFrom (g : LabelGraph) (along : Label → α → Edge → α) (toVisit : List Label)
    (found : Std.HashMap Label α) : Std.HashMap Label α :=
  match toVisit with
  | [] => found
  | block :: rest =>
    match found[block]? with
    | none => g.exploreFrom along rest found
    | some value =>
      let front := (g.edges block).foldl (g.discover (along block value)) ⟨rest, found⟩
      g.exploreFrom along front.toVisit front.found
termination_by g.unfound found + toVisit.length
decreasing_by
  · simp
  · have := @foldl_discover_measure α g (along block value) (g.edges block)
      ⟨rest, found⟩ (fun edge he => mem_allSuccessors he)
    dsimp only at this
    simp only [List.length_cons]
    omega

/-- Gives a value to every block that can be reached from a block, which has the value `start`. -/
def explore (g : LabelGraph) (along : Label → α → Edge → α) (entry : Label) (start : α) :
    Std.HashMap Label α :=
  g.exploreFrom along [entry] (Std.HashMap.insert ∅ entry start)

/-- The blocks that can be reached from the block of a label. -/
def reachable (g : LabelGraph) (entry : Label) : Std.HashMap Label Unit :=
  g.explore (fun _ _ _ => ()) (g.blockOf entry) ()

end LabelGraph

end JvmClass
