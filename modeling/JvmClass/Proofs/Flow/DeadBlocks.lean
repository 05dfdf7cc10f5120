import JvmClass.Proofs.Flow.Marks

/-!
# Where blocks stand, and which of them are dead

The code of a block goes from its offset to that of the next block (`LabelGraph.Spans`), so that the
spans of the blocks cut the code into pieces in order (`LabelGraph.Ordered`). A block that is reached
and follows one that is not is marked (`LabelGraph.MarkedPlaced.after_dead`): nothing falls through
into it.
-/

namespace JvmClass

namespace LabelGraph

variable {g g' : LabelGraph} {size i p start stop : Nat} {block first l : Label}
  {blocks rest : List Label}

/-- A block of a list with the offsets at which its code starts and stops: at the start of the next
block of the list, or at the end of the code. -/
inductive Spans (g : LabelGraph) (size : Nat) : List Label → Label → Nat → Nat → Prop
  | last {block : Label} {start : Nat} (offset : g.offset block = .ok start) :
    Spans g size [block] block start size
  | inner {block next : Label} {rest : List Label} {start stop : Nat}
    (offset : g.offset block = .ok start) (nextOffset : g.offset next = .ok stop) :
    Spans g size (block :: next :: rest) block start stop
  | later {other block : Label} {rest : List Label} {start stop : Nat}
    (h : Spans g size rest block start stop) : Spans g size (other :: rest) block start stop

namespace Spans

theorem mem (h : g.Spans size blocks block start stop) : block ∈ blocks := by
  induction h with
  | last => exact List.mem_singleton_self _
  | inner => exact List.mem_cons_self
  | later _ ih => exact List.mem_cons_of_mem _ ih

theorem offset (h : g.Spans size blocks block start stop) : g.offset block = .ok start := by
  induction h with
  | last offset => exact offset
  | inner offset _ => exact offset
  | later _ ih => exact ih

theorem congr (h : g.Spans size blocks block start stop)
    (hg : ∀ label, g'.offset label = g.offset label) : g'.Spans size blocks block start stop := by
  induction h with
  | last offset => exact .last ((hg _).trans offset)
  | inner offset next => exact .inner ((hg _).trans offset) ((hg _).trans next)
  | later _ ih => exact .later ih

theorem iff_getElem : g.Spans size blocks block start stop ↔
    ∃ i : Nat, blocks[i]? = some block ∧ g.offset block = .ok start ∧
      ((blocks[i + 1]? = none ∧ stop = size) ∨
        ∃ next, blocks[i + 1]? = some next ∧ g.offset next = .ok stop) := by
  constructor
  · intro h
    induction h with
    | last offset => exact ⟨0, rfl, offset, Or.inl ⟨rfl, rfl⟩⟩
    | inner offset next => exact ⟨0, rfl, offset, Or.inr ⟨_, rfl, next⟩⟩
    | later _ ih =>
      obtain ⟨i, hi⟩ := ih
      exact ⟨i + 1, hi⟩
  · rintro ⟨i, hi, hoffset, hstop⟩
    induction blocks generalizing i with
    | nil => cases hi
    | cons other rest ih =>
      cases i with
      | succ i => exact .later (ih i hi hstop)
      | zero =>
        cases hi
        cases rest with
        | nil =>
          rcases hstop with ⟨-, rfl⟩ | ⟨next, hn, -⟩
          · exact .last hoffset
          · cases hn
        | cons next rest =>
          rcases hstop with ⟨hn, -⟩ | ⟨_, hn, hnext⟩
          · cases hn
          · cases hn
            exact .inner hoffset hnext

end Spans

/-- Blocks start one after the other, and not past the end of the code. -/
structure Ordered (g : LabelGraph) (size : Nat) (blocks : List Label) : Prop where
  ascending : blocks.Pairwise fun l m => ∀ p q, g.offset l = .ok p → g.offset m = .ok q → p < q
  bounded : ∀ l ∈ blocks, ∀ p, g.offset l = .ok p → p ≤ size

namespace Ordered

theorem tail (h : g.Ordered size (first :: rest)) : g.Ordered size rest :=
  ⟨(List.pairwise_cons.1 h.ascending).2, fun l hl => h.bounded l (List.mem_cons_of_mem _ hl)⟩

theorem congr (h : g.Ordered size blocks) (hg : ∀ label, g'.offset label = g.offset label) :
    g'.Ordered size blocks := by
  refine ⟨h.ascending.imp fun ho p q hp hq => ?_, fun l hl p hp => ?_⟩
  · rw [hg] at hp hq
    exact ho p q hp hq
  · rw [hg] at hp
    exact h.bounded l hl p hp

theorem stop_le (h : g.Ordered size blocks) (hs : g.Spans size blocks block start stop) :
    stop ≤ size := by
  induction hs with
  | last => exact Nat.le_refl _
  | inner _ next => exact h.bounded _ (List.mem_cons_of_mem _ List.mem_cons_self) _ next
  | later _ ih => exact ih h.tail

theorem start_le (h : g.Ordered size blocks) (hs : g.Spans size blocks block start stop) :
    start ≤ stop := by
  induction hs with
  | last offset => exact h.bounded _ (List.mem_singleton_self _) _ offset
  | inner offset next =>
    exact Nat.le_of_lt ((List.pairwise_cons.1 h.ascending).1 _ List.mem_cons_self _ _ offset next)
  | later _ ih => exact ih h.tail

/-- The blocks of a list start at the first one or later. -/
theorem first_le (h : g.Ordered size (first :: rest)) (hfirst : g.offset first = .ok p)
    (hs : g.Spans size (first :: rest) block start stop) : p ≤ start := by
  cases hs with
  | last offset =>
    rw [hfirst] at offset
    exact Nat.le_of_eq (Except.ok.inj offset)
  | inner offset _ =>
    rw [hfirst] at offset
    exact Nat.le_of_eq (Except.ok.inj offset)
  | later hs =>
    exact Nat.le_of_lt ((List.pairwise_cons.1 h.ascending).1 _ hs.mem _ _ hfirst hs.offset)

/-- The first block stops where the next one starts. -/
theorem head_cases (h : g.Ordered size (block :: rest))
    (hs : g.Spans size (block :: rest) block start stop) :
    (rest = [] ∧ stop = size) ∨ ∃ next others, rest = next :: others ∧ g.offset next = .ok stop := by
  cases hs with
  | last => exact Or.inl ⟨rfl, rfl⟩
  | inner _ next => exact Or.inr ⟨_, _, rfl, next⟩
  | later hs =>
    have := (List.pairwise_cons.1 h.ascending).1 block hs.mem _ _ hs.offset hs.offset
    omega

/-- The other blocks start where the first one stops or later. -/
theorem le_start (h : g.Ordered size (block :: rest))
    (hs : g.Spans size (block :: rest) block start stop) {other : Label} {start' stop' : Nat}
    (ho : g.Spans size rest other start' stop') : stop ≤ start' := by
  rcases h.head_cases hs with ⟨rfl, -⟩ | ⟨next, others, rfl, hnext⟩
  · cases ho
  · exact h.tail.first_le hnext ho

theorem cons_cases (h : g.Ordered size (block :: rest))
    (hs : g.Spans size (block :: rest) block start stop) {other : Label} {start' stop' : Nat}
    (ho : g.Spans size (block :: rest) other start' stop') :
    (other = block ∧ start' = start ∧ stop' = stop) ∨ g.Spans size rest other start' stop' := by
  have hoffset := hs.offset
  rcases h.head_cases hs with ⟨rfl, rfl⟩ | ⟨next, others, rfl, hnext⟩
  · cases ho with
    | last offset =>
      rw [hoffset] at offset
      exact Or.inl ⟨rfl, (Except.ok.inj offset).symm, rfl⟩
    | later ho => cases ho
  · cases ho with
    | inner offset nextOffset =>
      rw [hoffset] at offset
      rw [hnext] at nextOffset
      exact Or.inl ⟨rfl, (Except.ok.inj offset).symm, (Except.ok.inj nextOffset).symm⟩
    | later ho => exact Or.inr ho

end Ordered

theorem Spans.cons_cases (h : g.Spans size (first :: rest) block start stop) :
    block = first ∨ g.Spans size rest block start stop := by
  cases h with
  | last => exact Or.inl rfl
  | inner => exact Or.inl rfl
  | later h => exact Or.inr h

/-- A place lies in the code of a block with some property. -/
def LiesIn (g : LabelGraph) (size : Nat) (blocks : List Label) (property : Label → Prop)
    (place : Nat) : Prop :=
  ∃ block start stop, g.Spans size blocks block start stop ∧ property block ∧ start ≤ place ∧
    place < stop

theorem LiesIn.later {property : Label → Prop} (h : g.LiesIn size rest property p) :
    g.LiesIn size (first :: rest) property p := by
  obtain ⟨block, start, stop, hs, h⟩ := h
  exact ⟨block, start, stop, .later hs, h⟩

/-- What lies in the first block lies in no other one. -/
theorem Ordered.not_liesIn (h : g.Ordered size (block :: rest))
    (hs : g.Spans size (block :: rest) block start stop) (hp : p < stop)
    {property : Label → Prop} : ¬ g.LiesIn size rest property p := by
  rintro ⟨other, start', stop', ho, -, hle, -⟩
  have := h.le_start hs ho
  omega

/-- The labels that have an offset are those that are placed, at their position. -/
def Resolved (g : LabelGraph) : Prop :=
  ∀ label p, g.offset label = .ok p ↔ g.position? label = some p

theorem resolved_resolve (g : LabelGraph) : g.resolve.Resolved := by
  intro label p
  rw [offset_resolve, (sameLayout_resolve g).position?]
  cases g.position? label with
  | none => simp
  | some q => simp

theorem Resolved.widens (h : g.Resolved) (hw : g.Widens g') : g'.Resolved := by
  intro label p
  rw [hw.offset, hw.layout.position?]
  exact h label p

theorem Tiled.ordered (ht : g.Tiled size) (hr : g.Resolved) : g.Ordered size g.blocks := by
  refine ⟨List.pairwise_iff_getElem.2 fun i j hi hj hij p q hp hq => ?_, fun l hl p hp => ?_⟩
  · refine ht.ascending i j _ _ p q hij ?_ ?_ ((hr _ _).1 hp) ((hr _ _).1 hq)
    · rw [← blocks_getElem, List.getElem?_eq_getElem hi]
    · rw [← blocks_getElem, List.getElem?_eq_getElem hj]
  · obtain ⟨i, hi⟩ := List.getElem?_of_mem hl
    rw [blocks_getElem] at hi
    obtain ⟨q, hq, hpos⟩ := ht.position hi
    rw [(hr _ _).1 hp] at hpos
    cases hpos
    exact hq

/-- A block that starts before the end of the code is not empty. -/
theorem Tiled.span (ht : g.Tiled size) (hr : g.Resolved) (hi : g.chain[i]? = some block)
    (hp : g.position? block = some p) (hlt : p < size) :
    ∃ stop, p < stop ∧ g.Spans size g.blocks block p stop := by
  have hoffset := (hr block p).2 hp
  cases hnext : g.chain[i + 1]? with
  | none =>
    refine ⟨size, hlt, Spans.iff_getElem.2 ⟨i, (blocks_getElem g i).trans hi, hoffset,
      Or.inl ⟨(blocks_getElem g _).trans hnext, rfl⟩⟩⟩
  | some next =>
    obtain ⟨q, -, hq⟩ := ht.position hnext
    refine ⟨q, ht.ascending i (i + 1) _ _ p q (Nat.lt_succ_self i) hi hnext hp hq,
      Spans.iff_getElem.2 ⟨i, (blocks_getElem g i).trans hi, hoffset,
        Or.inr ⟨next, (blocks_getElem g _).trans hnext, (hr next q).2 hq⟩⟩⟩

/-- Blocks that are reached start their own block. -/
theorem Reaches.blockOf_eq (ht : g.Tiled size) (hentry : g.chain[0]? = some first)
    (h : g.Reaches first block) : g.blockOf block = block := by
  cases h with
  | entry => exact ht.blockOf_leader hentry
  | step _ edge =>
    obtain ⟨e, -, rfl⟩ := List.mem_map.1 edge
    exact ht.blockOf_blockOf _

/-- Every edge to a label that is placed leads to a marked block, or to the next one. -/
def MarkedPlaced (g : LabelGraph) : Prop :=
  ∀ l d, g.data? l = some d → ∀ edge ∈ d.edges, (∃ p, g.position? edge.successor = some p) →
    (g.flags edge.successor).target = true ∨ g.Follows l edge.successor

theorem Marked.placed (hm : g.Marked) : g.MarkedPlaced := fun l d hd edge he _ => hm l d hd edge he

theorem data?_addEdge_edges {source successor : Label} {kind : EdgeKind} {u : Unit}
    (h : addEdge source kind successor g = .ok u g') {d' : LabelData} (hd : g'.data? l = some d')
    {edge : Edge} (he : edge ∈ d'.edges) :
    (∃ d, g.data? l = some d ∧ edge ∈ d.edges) ∨ edge.successor = successor := by
  rw [data?_addEdge h] at hd
  split at hd
  · obtain ⟨d, hold, rfl⟩ := Option.map_eq_some_iff.1 hd
    rcases Array.mem_push.1 he with he | rfl
    · exact Or.inl ⟨d, hold, he⟩
    · exact Or.inr rfl
  · exact Or.inl ⟨d', hd, he⟩

theorem data?_setFlags_edges {label : Label} {flags : BlockFlags} {d' : LabelData}
    (hd : (g.setFlags label flags).data? l = some d') : ∃ d, g.data? l = some d ∧ d'.edges = d.edges := by
  rw [setFlags, data?_update] at hd
  split at hd
  · obtain ⟨d, hold, rfl⟩ := Option.map_eq_some_iff.1 hd
    exact ⟨d, hold, rfl⟩
  · exact ⟨d', hd, rfl⟩

/-- Marking blocks as reachable changes nothing else, and only these blocks get marks. -/
theorem foldl_markReachable (found : List Label) :
    g.Widens (found.foldl markReachable g) ∧ g.Advances (found.foldl markReachable g) ∧
      ∀ l, ((found.foldl markReachable g).flags l).reachable = true →
        (g.flags l).reachable = true ∨ ∃ key ∈ found, g.blockOf l = g.blockOf key := by
  induction found generalizing g with
  | nil => exact ⟨.refl g, .refl g, fun l hl => Or.inl hl⟩
  | cons key rest ih =>
    have hlayout := sameLayout_setFlags g key ⟨false, true⟩
    obtain ⟨hw, ha, hfound⟩ := @ih (g.markReachable key)
    refine ⟨(widens_setFlags g key _).trans hw, (advances_setFlags g key _).trans ha,
      fun l hl => ?_⟩
    rcases hfound l hl with hl | ⟨other, hmem, hblock⟩
    · rw [markReachable, flags_setFlags] at hl
      split at hl
      · exact Or.inr ⟨key, List.mem_cons_self, ‹_›⟩
      · exact Or.inl hl
    · rw [markReachable, hlayout.blockOf, hlayout.blockOf] at hblock
      exact Or.inr ⟨other, List.mem_cons_of_mem _ hmem, hblock⟩

theorem fold_markReachable (frames : Std.HashMap Label Frame) (g : LabelGraph) :
    frames.fold (fun g block _ => g.markReachable block) g =
      (frames.toList.map Prod.fst).foldl markReachable g := by
  rw [Std.HashMap.fold_eq_foldl_toList, ← List.foldl_map (f := Prod.fst)]

/-- A range for which blocks are found has its ends in the code. -/
theorem offsets_of_coveredBlocks (ht : g.Tiled size) (hr : g.Resolved) {start stop : Label}
    (h : g.coveredBlocks start stop = .ok blocks) :
    (∃ p, g.offset start = .ok p) ∧ ∃ p, g.offset stop = .ok p := by
  unfold coveredBlocks at h
  cases hstop : g.offset stop with
  | error e =>
    rw [hstop] at h
    cases h
  | ok last =>
    rw [hstop] at h
    change g.blocksBefore last [] (g.chain.size + 1) (g.blockOf start) = _ at h
    refine ⟨?_, last, rfl⟩
    unfold blocksBefore at h
    cases hstart : g.offset (g.blockOf start) with
    | error e =>
      rw [hstart] at h
      cases h
    | ok first =>
      cases hp : g.position? start with
      | none => exact ⟨first, ht.blockOf_unplaced hp ▸ hstart⟩
      | some p => exact ⟨p, (hr _ _).2 hp⟩

end LabelGraph

/-- Blocks without an input are not marked as reachable, and those with one are where edges lead. -/
theorem FlowSetting.flags_unreached {setting : FlowSetting} {entry block : Label} {f : Frame}
    {r : Inputs} {size : Nat} (ht : setting.graph.Tiled size)
    (hentry : setting.graph.chain[0]? = some entry) (hu : setting.graph.Unreached)
    (hf : f.Regular) (h : setting.inputs entry f = .ok r)
    (hblock : setting.graph.blockOf block = block) (hnone : r.frames[block]? = none) :
    ((r.frames.fold (fun g block _ => g.markReachable block) setting.graph).flags
      block).reachable = false := by
  rw [LabelGraph.fold_markReachable]
  apply Bool.eq_false_iff.2
  intro hflag
  rcases (LabelGraph.foldl_markReachable _).2.2 block hflag with hflag | ⟨key, hkey, hsame⟩
  · rw [hu.flags] at hflag
    cases hflag
  · obtain ⟨⟨_, input⟩, hmem, rfl⟩ := List.mem_map.1 hkey
    have hinput := Std.HashMap.mem_toList_iff_getElem?_eq_some.1 hmem
    have hreach := (FlowSetting.inputs_iff_reaches hf h _).1 ⟨input, hinput⟩
    rw [hblock, hreach.blockOf_eq ht hentry] at hsame
    rw [hsame, hinput] at hnone
    cases hnone

namespace Handlers

open LabelGraph

variable {g g' : LabelGraph} {size : Nat} {u : Unit}

/-- The edges that are added lead to one label. -/
theorem edges_addEdges {kind : EdgeKind} {successor : Label} {blocks : List Label}
    (h : addEdges kind successor blocks g = .ok u g') :
    g.Advances g' ∧ (g.Unreached → g'.Unreached) ∧ ∀ l d', g'.data? l = some d' → ∀ edge ∈ d'.edges,
      (∃ d, g.data? l = some d ∧ edge ∈ d.edges) ∨ edge.successor = successor := by
  induction blocks generalizing g with
  | nil =>
    obtain ⟨-, rfl⟩ := Step.pure_ok.1 h
    exact ⟨.refl g, id, fun l d hd edge he => Or.inl ⟨d, hd, he⟩⟩
  | cons block rest ih =>
    obtain ⟨_, mid, h1, h2⟩ := Step.bind_ok.1 h
    obtain ⟨ha, hu, hedges⟩ := ih h2
    refine ⟨(advances_addEdge h1).trans ha, fun hg => hu (hg.addEdge h1), fun l d hd edge he => ?_⟩
    rcases hedges l d hd edge he with ⟨d', hd', he'⟩ | hs
    · exact data?_addEdge_edges h1 hd' he'
    · exact Or.inr hs

/-- Handlers that are placed are marked, and so edges still lead to marked blocks. -/
theorem marked_completeTyped {handlers : Handlers} (ht : g.Tiled size)
    (h : completeTyped handlers g = .ok u g') :
    g.Advances g' ∧ (g.Unreached → g'.Unreached) ∧ (g.MarkedPlaced → g'.MarkedPlaced) ∧
      ∀ handler ∈ handlers, ∀ p, g'.position? handler.handler = some p →
        (g'.flags handler.handler).target = true := by
  induction handlers generalizing g with
  | nil =>
    obtain ⟨-, rfl⟩ := Step.pure_ok.1 h
    exact ⟨.refl g, id, id, fun handler hh => nomatch hh⟩
  | cons handler rest ih =>
    obtain ⟨type, blocks, mid, -, -, hadd, hrest⟩ := completeTyped_cons.1 h
    have hlayout := (addEdges_ok hadd).1.layout
    have hmark := sameLayout_setFlags mid handler.handler ⟨true, false⟩
    have ht' := ht.sameLayout (hlayout.trans hmark)
    obtain ⟨ha, hu, hedges⟩ := edges_addEdges hadd
    obtain ⟨ha', hu', hmarked, hall⟩ := ih ht' hrest
    have hstep := ha.trans (advances_setFlags mid handler.handler ⟨true, false⟩)
    have hflag : ∀ p, (mid.markTarget handler.handler).position? handler.handler = some p →
        ((mid.markTarget handler.handler).flags handler.handler).target = true := by
      intro p hp
      rw [markTarget, hmark.position?] at hp
      exact flagged_markTarget (ht.sameLayout hlayout) (lt_size_of_position hp)
    refine ⟨hstep.trans ha', fun hg => hu' ((hu hg).markTarget _),
      fun hg => hmarked fun l d hd edge he hp => ?_, fun k hk p hp => ?_⟩
    · obtain ⟨d₁, hd₁, hsame⟩ := data?_setFlags_edges hd
      rw [hsame] at he
      rcases hedges l d₁ hd₁ edge he with ⟨d₂, hd₂, he₂⟩ | hs
      · have hplaced : ∃ p, g.position? edge.successor = some p := by
          obtain ⟨p, hp⟩ := hp
          exact ⟨p, by rw [← (hlayout.trans hmark).position?]; exact hp⟩
        exact (hg l d₂ hd₂ edge he₂ hplaced).imp (hstep.flagged _) (·.advances hstep)
      · obtain ⟨p, hp⟩ := hp
        rw [hs] at hp ⊢
        exact Or.inl (hflag p hp)
    · rcases List.mem_cons.1 hk with rfl | hk
      · rw [(completeTyped_ok hrest).1.layout.position?] at hp
        exact ha'.flagged _ (hflag p hp)
      · exact hall k hk p hp

end Handlers

end JvmClass
