import JvmClass.Flow.Exploration

/-!
# What a walk over blocks finds

A walk gives a block the value that some path from its start carries there, and it finds every block
to which a path leads (`LabelGraph.Explored`). Where all paths to a block carry the same value, the
walk gives it that value (`LabelGraph.explore_of_carries`).
-/

namespace JvmClass.LabelGraph

variable {α : Type} {g : LabelGraph} {along : Label → α → Edge → α} {entry block : Label}
  {start value : α}

/-- The values that paths from a block carry to others. -/
inductive Carries (g : LabelGraph) (along : Label → α → Edge → α) (entry : Label) (start : α) :
    Label → α → Prop
  | entry : Carries g along entry start entry start
  | step {block : Label} {value : α} {edge : Edge} (h : Carries g along entry start block value)
    (edge_mem : edge ∈ g.edges block) :
    Carries g along entry start (g.blockOf edge.successor) (along block value edge)

/-- What following edges does to a walk: blocks that are found for the first time get their values
and wait to be visited. -/
structure Discovers (g : LabelGraph) (along : Edge → α) (edges : List Edge)
    (front front' : Front α) : Prop where
  kept : ∀ (b : Label) (v : α), front.found[b]? = some v → front'.found[b]? = some v
  fresh : ∀ (b : Label) (v : α), front'.found[b]? = some v → front.found[b]? = some v ∨
    b ∈ front'.toVisit ∧ ∃ edge ∈ edges, b = g.blockOf edge.successor ∧ v = along edge
  ends : ∀ edge ∈ edges, ∃ v : α, front'.found[g.blockOf edge.successor]? = some v
  waiting : front.toVisit ⊆ front'.toVisit

theorem discovers_discover (g : LabelGraph) (along : Edge → α) (front : Front α) (edge : Edge) :
    g.Discovers along [edge] front (g.discover along front edge) := by
  unfold discover
  by_cases hc : front.found.contains (g.blockOf edge.successor) = true
  · rw [if_pos hc]
    refine ⟨fun b v h => h, fun b v h => Or.inl h, fun e he => ?_, List.Subset.refl _⟩
    rw [List.mem_singleton.1 he]
    exact Option.isSome_iff_exists.1 (Std.HashMap.isSome_getElem?_eq_contains.trans hc)
  · rw [if_neg hc]
    refine ⟨fun b v h => ?_, fun b v h => ?_, fun e he => ?_, List.subset_cons_self _ _⟩
    · rw [Std.HashMap.getElem?_insert, if_neg]
      · exact h
      · intro hb
        rw [beq_iff_eq.1 hb, Std.HashMap.contains_eq_isSome_getElem?, h] at hc
        exact hc rfl
    · rw [Std.HashMap.getElem?_insert] at h
      split at h
      · rename_i hb
        obtain rfl := beq_iff_eq.1 hb
        cases h
        exact Or.inr ⟨List.mem_cons_self, edge, List.mem_singleton_self edge, rfl, rfl⟩
      · exact Or.inl h
    · rw [List.mem_singleton.1 he]
      exact ⟨_, Std.HashMap.getElem?_insert_self⟩

theorem Discovers.cons {along : Edge → α} {edge : Edge} {rest : List Edge}
    {front mid front' : Front α} (h : g.Discovers along [edge] front mid)
    (h' : g.Discovers along rest mid front') : g.Discovers along (edge :: rest) front front' where
  kept b v hb := h'.kept b v (h.kept b v hb)
  fresh b v hb := by
    rcases h'.fresh b v hb with hb | ⟨hw, e, he, hv⟩
    · refine (h.fresh b v hb).imp_right fun ⟨hw, e, he, hv⟩ => ⟨h'.waiting hw, e, ?_, hv⟩
      rw [List.mem_singleton.1 he]
      exact List.mem_cons_self
    · exact Or.inr ⟨hw, e, List.mem_cons_of_mem _ he, hv⟩
  ends e he := by
    rcases List.mem_cons.1 he with rfl | he
    · obtain ⟨v, hv⟩ := h.ends e (List.mem_singleton_self e)
      exact ⟨v, h'.kept _ v hv⟩
    · exact h'.ends e he
  waiting := List.Subset.trans h.waiting h'.waiting

theorem discovers_foldl (g : LabelGraph) (along : Edge → α) (edges : List Edge) (front : Front α) :
    g.Discovers along edges front (edges.foldl (g.discover along) front) := by
  induction edges generalizing front with
  | nil => exact ⟨fun b v h => h, fun b v h => Or.inl h, fun e he => absurd he List.not_mem_nil,
      List.Subset.refl _⟩
  | cons edge rest ih => exact (discovers_discover g along front edge).cons (ih _)

/-- A walk under way: what is found is carried there, and the edges out of every block that does not
wait to be visited have been followed. -/
structure Explored (g : LabelGraph) (along : Label → α → Edge → α) (entry : Label) (start : α)
    (front : Front α) : Prop where
  carried : ∀ (b : Label) (v : α), front.found[b]? = some v → g.Carries along entry start b v
  begun : ∃ v : α, front.found[entry]? = some v
  closed : ∀ (b : Label) (v : α), front.found[b]? = some v → b ∉ front.toVisit →
    ∀ edge ∈ g.edges b, ∃ w : α, front.found[g.blockOf edge.successor]? = some w

theorem explored_start (g : LabelGraph) (along : Label → α → Edge → α) (entry : Label) (start : α) :
    g.Explored along entry start ⟨[entry], Std.HashMap.insert ∅ entry start⟩ := by
  have honly : ∀ (b : Label) (v : α),
      (Std.HashMap.insert ∅ entry start : Std.HashMap Label α)[b]? = some v →
        b = entry ∧ v = start := by
    intro b v hb
    rw [Std.HashMap.getElem?_insert, Std.HashMap.getElem?_empty] at hb
    split at hb
    · cases hb
      exact ⟨(beq_iff_eq.1 ‹_›).symm, rfl⟩
    · cases hb
  refine ⟨fun b v hb => ?_, ⟨start, Std.HashMap.getElem?_insert_self⟩, fun b v hb hw => ?_⟩
  · obtain ⟨rfl, rfl⟩ := honly b v hb
    exact .entry
  · exact absurd (List.mem_singleton.2 (honly b v hb).1) hw

/-- A block that has been found is visited. -/
theorem Explored.visit {rest : List Label} {found : Std.HashMap Label α}
    (h : g.Explored along entry start ⟨block :: rest, found⟩) (hb : found[block]? = some value) :
    g.Explored along entry start
      ((g.edges block).foldl (g.discover (along block value)) ⟨rest, found⟩) := by
  have hd := discovers_foldl g (along block value) (g.edges block) ⟨rest, found⟩
  refine ⟨fun b v hv => ?_, ?_, fun b v hv hw edge he => ?_⟩
  · rcases hd.fresh b v hv with hv | ⟨-, edge, he, rfl, rfl⟩
    · exact h.carried b v hv
    · exact .step (h.carried block value hb) he
  · obtain ⟨v, hv⟩ := h.begun
    exact ⟨v, hd.kept entry v hv⟩
  · have hv := (hd.fresh b v hv).resolve_right fun hnew => hw hnew.1
    by_cases hself : b = block
    · exact hd.ends edge (hself ▸ he)
    · obtain ⟨w, hw'⟩ := h.closed b v hv
        (List.not_mem_cons_of_ne_of_not_mem hself fun hr => hw (hd.waiting hr)) edge he
      exact ⟨w, hd.kept _ w hw'⟩

theorem Explored.exploreFrom {toVisit : List Label} {found : Std.HashMap Label α}
    (h : g.Explored along entry start ⟨toVisit, found⟩) :
    g.Explored along entry start ⟨[], g.exploreFrom along toVisit found⟩ := by
  fun_induction LabelGraph.exploreFrom g along toVisit found with
  | case1 found => exact h
  | case2 found block rest hnone ih =>
    refine ih ⟨h.carried, h.begun, fun b v hv hw => h.closed b v hv ?_⟩
    refine List.not_mem_cons_of_ne_of_not_mem (fun he => ?_) hw
    cases hnone.symm.trans (he ▸ hv)
  | case3 found block rest value hvalue front ih => exact ih (h.visit hvalue)

theorem explored_explore (g : LabelGraph) (along : Label → α → Edge → α) (entry : Label)
    (start : α) : g.Explored along entry start ⟨[], g.explore along entry start⟩ :=
  (explored_start g along entry start).exploreFrom

theorem carries_of_explore (h : (g.explore along entry start)[block]? = some value) :
    g.Carries along entry start block value :=
  (explored_explore g along entry start).carried block value h

/-- Every block to which a path leads is found. -/
theorem Carries.found (h : g.Carries along entry start block value) :
    ∃ v, (g.explore along entry start)[block]? = some v := by
  have he := explored_explore g along entry start
  induction h with
  | entry => exact he.begun
  | step _ edge_mem ih =>
    obtain ⟨v, hv⟩ := ih
    exact he.closed _ v hv List.not_mem_nil _ edge_mem

theorem explore_of_carries (hu : ∀ v, g.Carries along entry start block v → v = value)
    (h : g.Carries along entry start block value) :
    (g.explore along entry start)[block]? = some value := by
  obtain ⟨v, hv⟩ := h.found
  rw [hv, hu v (carries_of_explore hv)]

end JvmClass.LabelGraph
