import JvmClass.Proofs.Flow.DeadBlocks
import JvmClass.Proofs.Flow.HandlerTable

/-!
# Which edges there are

The edges out of a block are those that were added to it, in order: marks and new labels leave them
alone, and so does a label that is placed, as long as nothing leads out of labels that start no
block (`LabelGraph.Unlinked`). At the end every block has one more edge to each handler whose range
it starts in, in the order of the handlers (`Handlers.edges_complete`,
`Handlers.edges_completeTyped`).
-/

namespace JvmClass

namespace LabelGraph

variable {g g' : LabelGraph} {label l source successor : Label} {kind : EdgeKind} {size p : Nat}
  {u : Unit}

theorem edges_eq_data (g : LabelGraph) (l : Label) :
    g.edges l = ((g.data? (g.blockOf l)).map (·.edges.toList)).getD [] := by
  unfold edges
  cases g.data? (g.blockOf l) <;> rfl

theorem edges_blockOf (ht : g.Tiled size) (l : Label) : g.edges (g.blockOf l) = g.edges l := by
  rw [edges_eq_data, edges_eq_data, ht.blockOf_blockOf]

/-- Nothing leads out of a label that starts no block. -/
def Unlinked (g : LabelGraph) : Prop :=
  ∀ l d, g.data? l = some d → (∀ i : Nat, g.chain[i]? ≠ some l) → d.edges = #[]

theorem unlinked_empty : empty.Unlinked := by
  intro l d hd
  simp [empty, data?] at hd

theorem edges_addLabel (g : LabelGraph) (l : Label) : g.addLabel.edges l = g.edges l := by
  rw [edges_eq_data, edges_eq_data, blockOf_addLabel, data?_addLabel]
  split
  · rename_i he
    rw [he, show g.data? g.nextLabel = none from Array.getElem?_size ..]
    rfl
  · rfl

theorem edges_addLabels (g : LabelGraph) (count : Nat) (l : Label) :
    (g.addLabels count).edges l = g.edges l := by
  induction count generalizing g with
  | zero => rfl
  | succ n ih => exact (ih g.addLabel).trans (edges_addLabel g l)

theorem Unlinked.addLabel (h : g.Unlinked) : g.addLabel.Unlinked := by
  intro l d hd hl
  rw [data?_addLabel] at hd
  split at hd
  · cases hd
    rfl
  · exact h l d hd hl

theorem Unlinked.addLabels (h : g.Unlinked) (count : Nat) : (g.addLabels count).Unlinked := by
  induction count generalizing g with
  | zero => exact h
  | succ n ih => exact ih h.addLabel

theorem edges_setFlags (g : LabelGraph) (label l : Label) (flags : BlockFlags) :
    (g.setFlags label flags).edges l = g.edges l := by
  rw [edges_eq_data, edges_eq_data, (sameLayout_setFlags g label flags).blockOf, setFlags,
    data?_update]
  split
  · rw [Option.map_map]
    rfl
  · rfl

theorem Unlinked.setFlags (h : g.Unlinked) (label : Label) (flags : BlockFlags) :
    (g.setFlags label flags).Unlinked := by
  intro l d hd hl
  rw [LabelGraph.setFlags, data?_update] at hd
  split at hd
  · obtain ⟨d', hd', rfl⟩ := Option.map_eq_some_iff.1 hd
    exact h l d' hd' hl
  · exact h l d hd hl

theorem edges_resolve (g : LabelGraph) (l : Label) : g.resolve.edges l = g.edges l := by
  rw [edges_eq_data, edges_eq_data, (sameLayout_resolve g).blockOf, data?_resolve, Option.map_map]
  rfl

/-- An edge is the last one out of the block that it was added to. -/
theorem edges_addEdge (h : addEdge source kind successor g = .ok u g')
    (l : Label) : g'.edges l = g.edges l ++
      if g.blockOf l = g.blockOf source then [⟨kind, successor⟩] else [] := by
  rw [edges_eq_data, edges_eq_data, (sameLayout_addEdge h).blockOf, data?_addEdge h]
  split
  · rename_i he
    have hsome : (g.data? (g.blockOf source)).isSome = true := by
      unfold addEdge at h
      simp only at h
      split at h
      · assumption
      · cases h
    obtain ⟨d, hd⟩ := Option.isSome_iff_exists.1 hsome
    rw [he, hd]
    simp
  · rw [List.append_nil]

theorem Unlinked.addEdge (hu : g.Unlinked) (h : addEdge source kind successor g = .ok u g')
    {i : Nat} (hi : g.chain[i]? = some (g.blockOf source)) : g'.Unlinked := by
  intro l d hd hl
  rw [data?_addEdge h] at hd
  rw [(sameLayout_addEdge h).chain] at hl
  split at hd
  · rename_i he
    exact absurd (he ▸ hi) (hl i)
  · exact hu l d hd hl

theorem Unlinked.resolve (h : g.Unlinked) : g.resolve.Unlinked := by
  intro l d hd hl
  rw [data?_resolve] at hd
  obtain ⟨d', hd', rfl⟩ := Option.map_eq_some_iff.1 hd
  exact h l d' hd' hl

/-- Edges lead out of blocks alone. -/
theorem Unlinked.chained (h : g.Unlinked) {edge : Edge} (he : edge ∈ g.edges l) :
    ∃ i : Nat, g.chain[i]? = some (g.blockOf l) := by
  by_contra hn
  rw [edges_eq_data] at he
  cases hd : g.data? (g.blockOf l) with
  | none =>
    rw [hd] at he
    cases he
  | some d =>
    rw [hd, Option.map_some, Option.getD_some, h _ d hd fun i hi => hn ⟨i, hi⟩] at he
    cases he

/-- A label that is placed leaves the edges of all blocks as they are, and starts without any. -/
theorem edges_place (ht : g.Tiled size) (hu : g.Unlinked) {starts : Bool}
    (h : place label p g = .ok starts g') :
    (∀ (i : Nat) l, g.chain[i]? = some l → g'.edges l = g.edges l) ∧
      (starts = true → g'.edges label = []) ∧ g'.Unlinked := by
  obtain ⟨d, hd, hnone, hcases⟩ := place_ok h
  have hunplaced : g.position? label = none := by rw [position?, hd, Option.bind_some, hnone]
  have hself := ht.blockOf_unplaced hunplaced
  have hfree : ∀ i : Nat, g.chain[i]? ≠ some label :=
    fun i hi => absurd rfl (ht.ne_of_leader hi hd hnone)
  have hempty := hu label d hd hfree
  have hblock : ∀ (i : Nat) l, g.chain[i]? = some l → g'.blockOf l = l := by
    intro i l hi
    rw [(place_others h (ht.ne_of_leader hi hd hnone)).2, ht.blockOf_leader hi]
  rcases hcases with ⟨rfl, hchain, hdata⟩ | ⟨rfl, hchain, leader, hback, hhere, hdata⟩
  · have hlabel : g'.blockOf label = label := by
      rw [blockOf_eq_data, hdata, if_pos rfl, Option.bind_some,
        show d.leader = none from ht.unplaced label _ (by rw [place?, hd]; rfl) hnone]
      rfl
    refine ⟨fun i l hi => ?_, fun _ => ?_, fun l d' hd' hl => ?_⟩
    · rw [edges_eq_data, edges_eq_data, hblock i l hi, ht.blockOf_leader hi, hdata,
        if_neg (ht.ne_of_leader hi hd hnone)]
    · rw [edges_eq_data, hlabel, hdata, if_pos rfl]
      simp [hempty]
    · rw [hdata] at hd'
      split at hd'
      · cases hd'
        exact hempty
      · refine hu l d' hd' fun i hi => hl i ?_
        have := (Array.getElem?_eq_some_iff.1 hi).1
        rw [hchain, Array.getElem?_push, if_neg (by omega), hi]
  · refine ⟨fun i l hi => ?_, fun hs => absurd hs Bool.false_ne_true, fun l d' hd' hl => ?_⟩
    · rw [edges_eq_data, edges_eq_data, hblock i l hi, ht.blockOf_leader hi, hdata,
        if_neg (ht.ne_of_leader hi hd hnone)]
      split
      · cases g.data? l with
        | none => rfl
        | some old => simp [hempty]
      · rfl
    · rw [hchain] at hl
      rw [hdata] at hd'
      split at hd'
      · cases hd'
        rfl
      · split at hd'
        · rename_i he
          exact absurd (he ▸ chain_of_back hback) (hl _)
        · exact hu l d' hd' hl

end LabelGraph

namespace Handlers

open LabelGraph

variable {g g' : LabelGraph} {handlers : Handlers} {size p i : Nat} {l : Label} {u : Unit}
  {kind : EdgeKind}

/-- Each of some blocks gets one edge, after those that it has. -/
theorem edges_addEdges_of_nodup {successor : Label} {blocks : List Label} (ht : g.Tiled size)
    (hchained : ∀ block ∈ blocks, block ∈ g.blocks) (hnodup : blocks.Nodup)
    (h : addEdges kind successor blocks g = .ok u g') (l : Label) :
    g'.edges l = g.edges l ++ if g.blockOf l ∈ blocks then [⟨kind, successor⟩] else [] := by
  induction blocks generalizing g with
  | nil =>
    obtain ⟨-, rfl⟩ := Step.pure_ok.1 h
    simp
  | cons block rest ih =>
    obtain ⟨_, mid, h1, h2⟩ := Step.bind_ok.1 h
    have hlayout := sameLayout_addEdge h1
    obtain ⟨j, hj⟩ := (mem_blocks g block).1 (hchained block List.mem_cons_self)
    obtain ⟨hnot, hnodup⟩ := List.nodup_cons.1 hnodup
    rw [ih (ht.sameLayout hlayout)
      (fun b hb => hlayout.blocks ▸ hchained b (List.mem_cons_of_mem _ hb)) hnodup h2,
      edges_addEdge h1, hlayout.blockOf, ht.blockOf_leader hj]
    by_cases he : g.blockOf l = block
    · simp [he, hnot]
    · simp [he]

theorem unlinked_addEdges {successor : Label} {blocks : List Label} (ht : g.Tiled size)
    (hchained : ∀ block ∈ blocks, block ∈ g.blocks) (hu : g.Unlinked)
    (h : addEdges kind successor blocks g = .ok u g') : g'.Unlinked := by
  induction blocks generalizing g with
  | nil =>
    obtain ⟨-, rfl⟩ := Step.pure_ok.1 h
    exact hu
  | cons block rest ih =>
    obtain ⟨_, mid, h1, h2⟩ := Step.bind_ok.1 h
    have hlayout := sameLayout_addEdge h1
    obtain ⟨j, hj⟩ := (mem_blocks g block).1 (hchained block List.mem_cons_self)
    exact ih (ht.sameLayout hlayout)
      (fun b hb => hlayout.blocks ▸ hchained b (List.mem_cons_of_mem _ hb))
      (hu.addEdge h1 ((ht.blockOf_leader hj).symm ▸ hj)) h2

/-- Whether a block starts in the range of a handler. -/
def coversBlock (g : LabelGraph) (h : ExceptionHandler) (block : Label) : Bool :=
  match g.offset block with
  | .ok start => covers g start h
  | .error _ => false

theorem coversBlock_eq (hp : g.offset l = .ok p) (h : ExceptionHandler) :
    coversBlock g h l = covers g p h := by
  rw [coversBlock, hp]

theorem covers_congr (hg : ∀ label, g'.offset label = g.offset label) (p : Nat)
    (h : ExceptionHandler) : covers g' p h = covers g p h := by
  unfold covers
  rw [hg, hg]

theorem coversBlock_congr (hg : ∀ label, g'.offset label = g.offset label) (h : ExceptionHandler)
    (block : Label) : coversBlock g' h block = coversBlock g h block := by
  simp only [coversBlock, hg, covers_congr hg]

/-- The blocks of a range that lies in the code are found. -/
theorem coveredBlocks_ranged {h : ExceptionHandler} (ht : g.Tiled size) (hr : g.Resolved)
    (hstart : ∃ p, g.offset h.start = .ok p) (hstop : ∃ p, g.offset h.stop = .ok p) :
    g.coveredBlocks h.start h.stop = .ok (g.blocks.filter (coversBlock g h)) := by
  obtain ⟨first, hfirst⟩ := hstart
  obtain ⟨last, hlast⟩ := hstop
  rw [coveredBlocks_eq ht (fun label q => (hr label q).2) ((hr _ _).1 hfirst) hlast]
  have hsame : g.startsIn first last = coversBlock g h := by
    funext block
    unfold startsIn coversBlock
    cases g.offset block with
    | error e => rfl
    | ok p => exact (covers_eq hfirst hlast p).symm
  rw [hsame]

/-- The block of a label is found for a range exactly if it starts in it. -/
theorem blockOf_mem_covered (ht : g.Tiled size) (hr : g.Resolved) (h : ExceptionHandler)
    (l : Label) : g.blockOf l ∈ g.blocks.filter (coversBlock g h) ↔
      coversBlock g h (g.blockOf l) = true := by
  rw [List.mem_filter, and_iff_right_iff_imp]
  intro hc
  unfold coversBlock at hc
  split at hc
  · rename_i p hp
    rw [mem_blocks, ← ht.blockOf_blockOf l]
    exact (ht.placed _ p ((hr _ _).1 hp)).1
  · cases hc

/-- The blocks of the range of a handler get an edge to it, and no others do. -/
theorem edges_covered {h : ExceptionHandler} {blocks : List Label} (ht : g.Tiled size)
    (hr : g.Resolved) (hblocks : g.coveredBlocks h.start h.stop = .ok blocks)
    (hadd : addEdges kind h.handler blocks g = .ok u g') (l : Label) :
    g'.edges l = g.edges l ++
      if coversBlock g h (g.blockOf l) then [⟨kind, h.handler⟩] else [] := by
  obtain ⟨hstart, hstop⟩ := offsets_of_coveredBlocks ht hr hblocks
  rw [coveredBlocks_ranged ht hr hstart hstop] at hblocks
  cases hblocks
  rw [edges_addEdges_of_nodup ht (fun b hb => (List.mem_filter.1 hb).1)
    (ht.grouped.nodup_blocks.filter _) hadd l]
  simp only [blockOf_mem_covered ht hr]

/-- The edges that a block gets from handlers, in the order of the handlers. -/
def edgesOf (g : LabelGraph) (kind : ExceptionHandler → EdgeKind) (handlers : Handlers)
    (block : Label) : List Edge :=
  (handlers.filter fun h => coversBlock g h block).map fun h => ⟨kind h, h.handler⟩

theorem edgesOf_cons (g : LabelGraph) (kind : ExceptionHandler → EdgeKind) (h : ExceptionHandler)
    (rest : Handlers) (block : Label) : edgesOf g kind (h :: rest) block =
      (if coversBlock g h block then [⟨kind h, h.handler⟩] else []) ++
        edgesOf g kind rest block := by
  unfold edgesOf
  rw [List.filter_cons]
  split
  · rfl
  · rfl

theorem edgesOf_congr (hg : ∀ label, g'.offset label = g.offset label)
    (kind : ExceptionHandler → EdgeKind) (handlers : Handlers) (block : Label) :
    edgesOf g' kind handlers block = edgesOf g kind handlers block := by
  simp only [edgesOf, coversBlock_congr hg]

theorem mem_edgesOf (hp : g.offset l = .ok p) (kind : ExceptionHandler → EdgeKind) (edge : Edge) :
    edge ∈ edgesOf g kind handlers l ↔
      ∃ h ∈ handlers, covers g p h = true ∧ edge = ⟨kind h, h.handler⟩ := by
  unfold edgesOf
  rw [List.mem_map]
  refine exists_congr fun h => ?_
  rw [List.mem_filter, coversBlock_eq hp, and_assoc, @eq_comm _ edge]

/-- Every block has, after the edges that it had, one to each handler whose range it starts in. -/
theorem edges_complete (ht : g.Tiled size) (hr : g.Resolved) (h : complete handlers g = .ok u g')
    (l : Label) :
    g'.edges l = g.edges l ++ edgesOf g (fun _ => .exception) handlers (g.blockOf l) := by
  induction handlers generalizing g with
  | nil =>
    obtain ⟨-, rfl⟩ := Step.pure_ok.1 h
    exact (List.append_nil _).symm
  | cons handler rest ih =>
    obtain ⟨blocks, mid, hblocks, hadd, hrest⟩ := complete_cons.1 h
    have hw := (addEdges_ok hadd).1
    rw [ih (ht.sameLayout hw.layout) (hr.widens hw) hrest, edges_covered ht hr hblocks hadd,
      edgesOf_congr hw.offset, hw.layout.blockOf, List.append_assoc, edgesOf_cons]

/-- The same holds of edges with the types caught. -/
theorem edges_completeTyped (ht : g.Tiled size) (hr : g.Resolved)
    {caught : ExceptionHandler → VType} (hcaught : ∀ h ∈ handlers, h.caughtType = .ok (caught h))
    (h : completeTyped handlers g = .ok u g') (l : Label) : g'.edges l =
      g.edges l ++ edgesOf g (fun h => .caught (caught h)) handlers (g.blockOf l) := by
  induction handlers generalizing g with
  | nil =>
    obtain ⟨-, rfl⟩ := Step.pure_ok.1 h
    exact (List.append_nil _).symm
  | cons handler rest ih =>
    obtain ⟨type, blocks, mid, htype, hblocks, hadd, hrest⟩ := completeTyped_cons.1 h
    obtain rfl : type = caught handler :=
      Except.ok.inj (htype.symm.trans (hcaught handler List.mem_cons_self))
    have hw := (addEdges_ok hadd).1.trans (widens_setFlags mid handler.handler ⟨true, false⟩)
    rw [ih (ht.sameLayout hw.layout) (hr.widens hw)
      (fun h hh => hcaught h (List.mem_cons_of_mem _ hh)) hrest, edges_setFlags,
      edges_covered ht hr hblocks hadd, edgesOf_congr hw.offset, hw.layout.blockOf,
      List.append_assoc, edgesOf_cons]

theorem mem_edges_complete (ht : g.Tiled size) (hr : g.Resolved)
    (h : complete handlers g = .ok u g') (hl : g.chain[i]? = some l)
    (hp : g.position? l = some p) (edge : Edge) :
    edge ∈ g'.edges l ↔ edge ∈ g.edges l ∨
      ∃ handler ∈ handlers, covers g p handler = true ∧ edge = ⟨.exception, handler.handler⟩ := by
  rw [edges_complete ht hr h, List.mem_append, ht.blockOf_leader hl, mem_edgesOf ((hr _ _).2 hp)]

theorem mem_edges_completeTyped (ht : g.Tiled size) (hr : g.Resolved)
    (h : completeTyped handlers g = .ok u g') (hl : g.chain[i]? = some l)
    (hp : g.position? l = some p) (edge : Edge) :
    edge ∈ g'.edges l ↔ edge ∈ g.edges l ∨ ∃ handler ∈ handlers, ∃ type,
      handler.caughtType = .ok type ∧ covers g p handler = true ∧
        edge = ⟨.caught type, handler.handler⟩ := by
  have htypes := (completeTyped_ok h).2
  have hcaught : ∀ handler ∈ handlers,
      handler.caughtType = .ok (handler.caughtType.toOption.getD default) := by
    intro handler hh
    obtain ⟨type, _, htype, -⟩ := htypes handler hh
    rw [htype]
    rfl
  rw [edges_completeTyped ht hr hcaught h, List.mem_append, ht.blockOf_leader hl,
    mem_edgesOf ((hr _ _).2 hp)]
  refine or_congr_right (exists_congr fun handler => and_congr_right fun hh => ?_)
  obtain ⟨type, _, htype, -⟩ := htypes handler hh
  simp only [htype, Except.ok.injEq, exists_eq_left']
  rfl

theorem unlinked_completeTyped (ht : g.Tiled size) (hr : g.Resolved) (hu : g.Unlinked)
    (h : completeTyped handlers g = .ok u g') : g'.Unlinked := by
  induction handlers generalizing g with
  | nil =>
    obtain ⟨-, rfl⟩ := Step.pure_ok.1 h
    exact hu
  | cons handler rest ih =>
    obtain ⟨type, blocks, mid, htype, hblocks, hadd, hrest⟩ := completeTyped_cons.1 h
    have hw := (addEdges_ok hadd).1.trans (widens_setFlags mid handler.handler ⟨true, false⟩)
    obtain ⟨hstart, hstop⟩ := offsets_of_coveredBlocks ht hr hblocks
    rw [coveredBlocks_ranged ht hr hstart hstop] at hblocks
    cases hblocks
    exact ih (ht.sameLayout hw.layout) (hr.widens hw)
      ((unlinked_addEdges ht (fun b hb => (List.mem_filter.1 hb).1) hu hadd).setFlags _ _) hrest

end Handlers

end JvmClass
