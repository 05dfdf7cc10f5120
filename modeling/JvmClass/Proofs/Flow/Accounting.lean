import JvmClass.Proofs.Flow.Calls
import JvmClass.Proofs.Flow.Edges

/-!
# What labels record is kept by their blocks

Edges and flags may be recorded through a label before it is placed, and placing it may make it an
alias of the last block. Whatever calls made a graph, a block has the edges and the flags that were
recorded through the labels that belong to it now, each edge as often as it was added
(`LabelGraph.Accounts`, `LabelGraph.edges_flags_of_calls`). Flags that are set through a label before
the graph has made it are ignored, so that the label does not have them later
(`LabelGraph.flagsAhead_ignored`).
-/

namespace JvmClass

namespace BlockFlags

/-- The flags that some of a list have. -/
def unionAll (flags : List BlockFlags) : BlockFlags := flags.foldr union {}

theorem union_assoc (a b c : BlockFlags) : (a.union b).union c = a.union (b.union c) := by
  simp [union, Bool.or_assoc]

theorem union_left_comm (a b c : BlockFlags) : a.union (b.union c) = b.union (a.union c) := by
  simp [union, Bool.or_left_comm]

theorem unionAll_append (a b : List BlockFlags) :
    unionAll (a ++ b) = (unionAll a).union (unionAll b) := by
  induction a with
  | nil => rfl
  | cons f rest ih =>
    show f.union (unionAll (rest ++ b)) = (f.union (unionAll rest)).union (unionAll b)
    rw [ih, union_assoc]

theorem unionAll_perm {a b : List BlockFlags} (h : a.Perm b) : unionAll a = unionAll b := by
  induction h with
  | nil => rfl
  | cons f _ ih => exact congrArg f.union ih
  | swap f g rest => exact union_left_comm g f _
  | trans _ _ ih ih' => exact ih.trans ih'

end BlockFlags

namespace LabelGraph

variable {g g' : LabelGraph} {label l source successor : Label} {kind : EdgeKind} {α : Type}

/-- Whether the answer to a call is an error. -/
def isError {β : Type} : EStateM.Result ClassError LabelGraph β → Bool
  | .ok _ _ => false
  | .error _ _ => true

/-- Whether a call fails on a graph: the label that it places or that the edge leaves has not been
made, or is to be placed a second time. -/
def Call.fails (g : LabelGraph) : Call → Bool
  | place label position => isError (LabelGraph.place label position g)
  | addEdge source kind successor => isError (LabelGraph.addEdge source kind successor g)
  | addLabel | setFlags _ _ | resolve => false

/-- The edge that a call adds, with the label through which it is added. -/
def Call.edge? (g : LabelGraph) (call : Call) : Option (Label × Edge) :=
  match call with
  | addEdge source kind successor =>
    if call.fails g then none else some (source, ⟨kind, successor⟩)
  | _ => none

/-- The flags that a call asks for, with the label through which it does. -/
def Call.requested? : Call → Option (Label × BlockFlags)
  | setFlags label flags => some (label, flags)
  | _ => none

/-- The flags that a call sets: those that it asks for through a label that has been made. -/
def Call.flags? (g : LabelGraph) (call : Call) : Option (Label × BlockFlags) :=
  call.requested?.filter fun x => (g.data? x.1).isSome

/-- What calls record, each on the graph that those before it leave. -/
def recorded (what : LabelGraph → Call → Option α) (g : LabelGraph) : List Call → List α
  | [] => []
  | call :: rest => (what g call).toList ++ recorded what (call.apply g) rest

/-- What was recorded through the labels of a block. -/
def through (g : LabelGraph) (records : List (Label × α)) (block : Label) : List α :=
  (records.filter fun x => g.blockOf x.1 = block).map Prod.snd

theorem through_append (g : LabelGraph) (records rest : List (Label × α)) (block : Label) :
    g.through (records ++ rest) block = g.through records block ++ g.through rest block := by
  rw [through, List.filter_append, List.map_append]
  rfl

theorem through_cons (g : LabelGraph) (x : Label × α) (rest : List (Label × α)) (block : Label) :
    g.through (x :: rest) block =
      (if g.blockOf x.1 = block then [x.2] else []) ++ g.through rest block := by
  by_cases h : g.blockOf x.1 = block <;> simp [through, h]

theorem through_snoc (g : LabelGraph) (records : List (Label × α)) (x : Label × α)
    (block : Label) : g.through (records ++ [x]) block =
      g.through records block ++ if g.blockOf x.1 = block then [x.2] else [] := by
  rw [through_append, through_cons]
  exact congrArg _ (List.append_nil _)

theorem through_congr (h : ∀ l, g'.blockOf l = g.blockOf l) (records : List (Label × α))
    (block : Label) : g'.through records block = g.through records block := by
  simp only [through, h]

/-- Two graphs have the same blocks, with the same edges and flags. -/
structure SameBlocks (g g' : LabelGraph) : Prop where
  blockOf : ∀ l, g'.blockOf l = g.blockOf l
  edges : ∀ l, g'.edges l = g.edges l
  flags : ∀ l, g'.flags l = g.flags l

/-- A label becomes an alias of another one, which gets its edges and flags. -/
structure Joins (g : LabelGraph) (label leader : Label) (g' : LabelGraph) : Prop where
  ne : leader ≠ label
  leads : g.blockOf leader = leader
  alone : g.blockOf label = label
  blockOf : ∀ l, g'.blockOf l = if g.blockOf l = label then leader else g.blockOf l
  edges : ∀ l, g'.edges l =
    if g'.blockOf l = leader then g.edges leader ++ g.edges label else g.edges l
  flags : ∀ l, g'.flags l =
    if g'.blockOf l = leader then (g.flags leader).union (g.flags label) else g.flags l

namespace Joins

variable {leader block : Label}

/-- The block of another label stays. -/
theorem blockOf_other (h : g.Joins label leader g') (hl : g'.blockOf l ≠ leader) :
    g'.blockOf l = g.blockOf l ∧ g.blockOf l ≠ label := by
  rw [h.blockOf] at hl ⊢
  split at hl
  · exact absurd rfl hl
  · exact ⟨if_neg ‹_›, ‹_›⟩

/-- What was recorded through the label is of the block that it joins now. -/
theorem through_leader (h : g.Joins label leader g') (records : List (Label × α)) :
    (g'.through records leader).Perm (g.through records leader ++ g.through records label) := by
  induction records with
  | nil => exact .refl _
  | cons x rest ih =>
    rw [through_cons, through_cons, through_cons, h.blockOf]
    by_cases hx : g.blockOf x.1 = label
    · rw [if_pos hx, if_pos rfl, if_neg (hx ▸ Ne.symm h.ne), if_pos hx]
      exact (ih.cons x.2).trans List.perm_middle.symm
    · rw [if_neg hx, if_neg hx]
      split
      · exact ih.cons x.2
      · exact ih

/-- What was recorded through the labels of other blocks is theirs still. -/
theorem through_other (h : g.Joins label leader g') (hb : block ≠ leader) (hl : block ≠ label)
    (records : List (Label × α)) : g'.through records block = g.through records block := by
  induction records with
  | nil => rfl
  | cons x rest ih =>
    rw [through_cons, through_cons, ih, h.blockOf]
    by_cases hx : g.blockOf x.1 = label
    · rw [if_pos hx, if_neg (Ne.symm hb), hx, if_neg (Ne.symm hl)]
    · rw [if_neg hx]

end Joins

/-- The edges and flags of every block are those recorded through its labels. -/
structure Accounts (g : LabelGraph) (added : List (Label × Edge))
    (set : List (Label × BlockFlags)) : Prop where
  edges : ∀ l, (g.edges l).Perm (g.through added (g.blockOf l))
  flags : ∀ l, g.flags l = BlockFlags.unionAll (g.through set (g.blockOf l))

variable {added : List (Label × Edge)} {set : List (Label × BlockFlags)}

theorem accounts_empty : empty.Accounts [] [] := ⟨fun _ => .refl _, fun _ => rfl⟩

theorem Accounts.sameBlocks (ha : g.Accounts added set) (h : g.SameBlocks g') :
    g'.Accounts added set where
  edges l := by
    rw [h.edges, h.blockOf, through_congr h.blockOf]
    exact ha.edges l
  flags l := by
    rw [h.flags, h.blockOf, through_congr h.blockOf]
    exact ha.flags l

theorem Accounts.joins {leader : Label} (ha : g.Accounts added set)
    (h : g.Joins label leader g') : g'.Accounts added set where
  edges l := by
    rw [h.edges]
    split
    · rename_i he
      have hleader := ha.edges leader
      have hlabel := ha.edges label
      rw [h.leads] at hleader
      rw [h.alone] at hlabel
      rw [he]
      exact (hleader.append hlabel).trans (h.through_leader added).symm
    · rename_i he
      obtain ⟨hblock, hne⟩ := h.blockOf_other he
      rw [hblock] at he ⊢
      rw [h.through_other he hne]
      exact ha.edges l
  flags l := by
    rw [h.flags]
    split
    · rename_i he
      rw [he, BlockFlags.unionAll_perm (h.through_leader set), BlockFlags.unionAll_append,
        ha.flags, ha.flags, h.leads, h.alone]
    · rename_i he
      obtain ⟨hblock, hne⟩ := h.blockOf_other he
      rw [hblock] at he ⊢
      rw [h.through_other he hne]
      exact ha.flags l

theorem flags_addLabel (g : LabelGraph) (l : Label) : g.addLabel.flags l = g.flags l := by
  rw [flags_eq, flags_eq, blockOf_addLabel, data?_addLabel]
  split
  · rename_i he
    rw [he, show g.data? g.nextLabel = none from Array.getElem?_size ..]
    rfl
  · rfl

theorem flags_resolve (g : LabelGraph) (l : Label) : g.resolve.flags l = g.flags l := by
  rw [flags_eq, flags_eq, (sameLayout_resolve g).blockOf, data?_resolve, Option.map_map]
  rfl

theorem flags_addEdge {u : Unit} (h : addEdge source kind successor g = .ok u g') (l : Label) :
    g'.flags l = g.flags l := by
  rw [flags_eq, flags_eq, (sameLayout_addEdge h).blockOf, data?_addEdge h]
  split
  · rw [Option.map_map]
    rfl
  · rfl

theorem Accounts.addEdge {u : Unit} (ha : g.Accounts added set)
    (h : addEdge source kind successor g = .ok u g') :
    g'.Accounts (added ++ [(source, ⟨kind, successor⟩)]) set where
  edges l := by
    have hblock := (sameLayout_addEdge h).blockOf
    rw [edges_addEdge h, hblock, through_congr hblock, through_snoc]
    refine (ha.edges l).append (.of_eq ?_)
    simp only [eq_comm]
  flags l := by
    have hblock := (sameLayout_addEdge h).blockOf
    rw [flags_addEdge h, hblock, through_congr hblock]
    exact ha.flags l

theorem Accounts.setFlags (ha : g.Accounts added set) (hg : g.Grouped)
    (hlabel : label.number < g.size) (flags : BlockFlags) :
    (g.setFlags label flags).Accounts added (set ++ [(label, flags)]) where
  edges l := by
    have hblock := (sameLayout_setFlags g label flags).blockOf
    rw [edges_setFlags, hblock, through_congr hblock]
    exact ha.edges l
  flags l := by
    have hblock := (sameLayout_setFlags g label flags).blockOf
    rw [hblock, through_congr hblock, through_snoc, BlockFlags.unionAll_append, ← ha.flags,
      flags_setFlags]
    by_cases he : g.blockOf l = g.blockOf label
    · obtain ⟨d, hd⟩ := hg.data?_blockOf hlabel
      rw [if_pos he, if_pos he.symm, flags_eq, he, hd]
      simp [BlockFlags.unionAll, BlockFlags.union]
    · rw [if_neg he, if_neg (Ne.symm he)]
      simp [BlockFlags.unionAll, BlockFlags.union]

/-- Flags set through a label that has not been made change nothing. -/
theorem setFlags_unmade (h : g.data? label = none) (flags : BlockFlags) :
    g.setFlags label flags = g := by
  have hself : g.blockOf label = label := by
    rw [blockOf_eq_data, h]
    rfl
  rw [LabelGraph.setFlags, hself, update]
  congr 1
  refine Array.ext_getElem? fun i => ?_
  rw [Array.getElem?_modify]
  split
  · rename_i he
    subst he
    rw [show g.labels[label.number]? = none from h]
    rfl
  · rfl

/-- A label that starts a block has its edges and flags already. -/
theorem Grouped.sameBlocks_of_place (hg : g.Grouped) {position : Nat} {starts : Bool}
    {d : LabelData} (h : place label position g = .ok starts g') (hd : g.data? label = some d)
    (hnone : d.position = none)
    (hdata : ∀ l, g'.data? l = if l = label then
      some { d with position := some position, chainIndex := some g.chain.size }
      else g.data? l) : g.SameBlocks g' := by
  have hunplaced : g.position? label = none := by rw [position?, hd, Option.bind_some, hnone]
  have hleader : d.leader = none := hg.unplaced label _ (by rw [place?, hd]; rfl) hnone
  have hblock : ∀ l, g'.blockOf l = g.blockOf l := by
    intro l
    by_cases he : l = label
    · subst he
      rw [hg.blockOf_unplaced hunplaced, blockOf_eq_data, hdata, if_pos rfl, Option.bind_some,
        hleader]
      rfl
    · exact (place_others h he).2
  refine ⟨hblock, fun l => ?_, fun l => ?_⟩
  · rw [edges_eq_data, edges_eq_data, hblock, hdata]
    split
    · rename_i he
      rw [he, hd]
      rfl
    · rfl
  · rw [flags_eq, flags_eq, hblock, hdata]
    split
    · rename_i he
      rw [he, hd]
      rfl
    · rfl

/-- A label at the place of a block hands its edges and flags over. -/
theorem Grouped.joins_of_place (hg : g.Grouped) {position : Nat} {starts : Bool} {leader : Label}
    {d : LabelData} (h : place label position g = .ok starts g') (hd : g.data? label = some d)
    (hnone : d.position = none) (hback : g.chain.back? = some leader)
    (hhere : g.position? leader = some position)
    (hdata : ∀ l, g'.data? l = if l = label then
      some { d with position := some position, leader := some leader, edges := #[] }
      else if l = leader then (g.data? l).map fun of =>
        { of with flags := of.flags.union d.flags, edges := of.edges ++ d.edges }
      else g.data? l) : g.Joins label leader g' := by
  have hunplaced : g.position? label = none := by rw [position?, hd, Option.bind_some, hnone]
  have halone := hg.blockOf_unplaced hunplaced
  have hne : leader ≠ label := ne_of_unplaced hhere hunplaced
  have hleads := hg.blockOf_leader (chain_of_back hback)
  obtain ⟨old, hold, -⟩ := Option.bind_eq_some_iff.1 hhere
  have hblock : ∀ l, g'.blockOf l = if g.blockOf l = label then leader else g.blockOf l := by
    intro l
    by_cases he : l = label
    · subst he
      rw [if_pos halone, blockOf_eq_data, hdata, if_pos rfl]
      rfl
    · rw [if_neg (hg.blockOf_ne hunplaced he), (place_others h he).2]
  have hother : ∀ l, g'.blockOf l ≠ leader →
      g'.data? (g'.blockOf l) = g.data? (g.blockOf l) := by
    intro l hl
    rw [hblock] at hl ⊢
    split at hl
    · exact absurd rfl hl
    · rw [if_neg ‹_›, hdata, if_neg ‹_›, if_neg hl]
  refine ⟨hne, hleads, halone, hblock, fun l => ?_, fun l => ?_⟩
  · split
    · rename_i he
      rw [edges_eq_data, he, hdata, if_neg hne, if_pos rfl, edges_eq_data, edges_eq_data, hleads,
        halone, hold, hd]
      simp
    · rename_i he
      rw [edges_eq_data, edges_eq_data, hother l he]
  · split
    · rename_i he
      rw [flags_eq, he, hdata, if_neg hne, if_pos rfl, flags_eq, flags_eq, hleads, halone, hold, hd]
      rfl
    · rename_i he
      rw [flags_eq, flags_eq, hother l he]

/-- A label that starts a block leaves all blocks as they are, and one that does not joins the last
block. -/
theorem Grouped.place_cases (hg : g.Grouped) {position : Nat} {starts : Bool}
    (h : place label position g = .ok starts g') :
    g.SameBlocks g' ∨ ∃ leader, g.Joins label leader g' := by
  obtain ⟨d, hd, hnone, ⟨-, -, hdata⟩ | ⟨-, -, leader, hback, hhere, hdata⟩⟩ := place_ok h
  · exact Or.inl (hg.sameBlocks_of_place h hd hnone hdata)
  · exact Or.inr ⟨leader, hg.joins_of_place h hd hnone hback hhere hdata⟩

/-- A call that fails leaves the graph as it is. -/
theorem Call.apply_of_fails {call : Call} (h : call.fails g = true) : call.apply g = g := by
  cases call with
  | addLabel => cases h
  | place label position =>
    cases hp : LabelGraph.place label position g with
    | ok starts g' => simp [Call.fails, hp, isError] at h
    | error e g' =>
      rw [Call.apply, hp]
      exact place_error hp
  | addEdge source kind successor =>
    cases he : LabelGraph.addEdge source kind successor g with
    | ok u g' => simp [Call.fails, he, isError] at h
    | error e g' =>
      rw [Call.apply, he]
      exact addEdge_error he
  | setFlags label flags => cases h
  | resolve => cases h

/-- What one call does to the accounts: it enters the edge that it adds and the flags that it sets. -/
theorem Accounts.call (ha : g.Accounts added set) (hg : g.Grouped) (call : Call) :
    (call.apply g).Accounts (added ++ (call.edge? g).toList) (set ++ (call.flags? g).toList) := by
  -- All but two calls enter nothing.
  have hquiet : ∀ {graph : LabelGraph}, graph.Accounts added set →
      graph.Accounts (added ++ []) (set ++ []) := by
    intro graph h
    rwa [List.append_nil, List.append_nil]
  cases call with
  | addLabel =>
    exact hquiet (ha.sameBlocks ⟨blockOf_addLabel g, edges_addLabel g, flags_addLabel g⟩)
  | resolve =>
    exact hquiet (ha.sameBlocks
      ⟨(sameLayout_resolve g).blockOf, edges_resolve g, flags_resolve g⟩)
  | place label position =>
    refine hquiet ?_
    rw [Call.apply]
    cases h : LabelGraph.place label position g with
    | ok starts g' =>
      rcases hg.place_cases h with hsame | ⟨leader, hjoins⟩
      · exact ha.sameBlocks hsame
      · exact ha.joins hjoins
    | error e g' =>
      obtain rfl := place_error h
      exact ha
  | addEdge source kind successor =>
    rw [show Call.flags? g (.addEdge source kind successor) = none from rfl, Call.edge?, Call.fails,
      Call.apply, Option.toList_none, List.append_nil]
    cases h : LabelGraph.addEdge source kind successor g with
    | ok u g' => exact ha.addEdge h
    | error e g' =>
      obtain rfl := addEdge_error h
      rw [isError, if_pos rfl, Option.toList_none, List.append_nil]
      exact ha
  | setFlags label flags =>
    rw [show Call.edge? g (.setFlags label flags) = none from rfl, Call.flags?, Call.requested?,
      Call.apply, Option.filter_some, Option.toList_none, List.append_nil]
    cases hd : g.data? label with
    | none =>
      rw [setFlags_unmade hd]
      simpa using ha
    | some d => exact ha.setFlags hg (Array.getElem?_eq_some_iff.1 hd).1 flags

/-- What a number of calls does to the accounts. -/
theorem Accounts.run (ha : g.Accounts added set) (hg : g.Grouped) (calls : List Call) :
    (calls.foldl Call.apply g).Accounts (added ++ recorded (fun g call => call.edge? g) g calls)
      (set ++ recorded (fun g call => call.flags? g) g calls) := by
  induction calls generalizing g added set with
  | nil => simpa [recorded] using ha
  | cons call rest ih =>
    have hrest := ih (ha.call hg call) (hg.call call)
    rw [List.append_assoc, List.append_assoc] at hrest
    exact hrest

/-- No edge is lost or duplicated by aliasing, and no flag that has been set is lost. After any
calls, of which some may fail, the block of a label is a block of its own, which starts at the
position of the label if that is placed. The edges of a block are those that calls added through the
labels that belong to it now, each as often as it was added. Its flags are those that calls set
through these labels once the graph had made them. A call that fails changes nothing. -/
theorem edges_flags_of_calls (calls : List Call) :
    (∀ l, (ofCalls calls).blockOf ((ofCalls calls).blockOf l) = (ofCalls calls).blockOf l) ∧
    (∀ l p, (ofCalls calls).position? l = some p →
      (ofCalls calls).blockOf l ∈ (ofCalls calls).blocks ∧
        (ofCalls calls).position? ((ofCalls calls).blockOf l) = some p) ∧
    (∀ l, ((ofCalls calls).edges l).Perm
      ((ofCalls calls).through (recorded (fun g call => call.edge? g) empty calls)
        ((ofCalls calls).blockOf l))) ∧
    (∀ l, (ofCalls calls).flags l = BlockFlags.unionAll
      ((ofCalls calls).through (recorded (fun g call => call.flags? g) empty calls)
        ((ofCalls calls).blockOf l))) ∧
    ∀ call : Call, call.fails (ofCalls calls) = true →
      call.apply (ofCalls calls) = ofCalls calls := by
  have hg := grouped_ofCalls calls
  have ha := accounts_empty.run .empty calls
  refine ⟨hg.blockOf_blockOf, fun l p hp => ?_, ha.edges, ha.flags, fun call => Call.apply_of_fails⟩
  obtain ⟨⟨i, hi⟩, hposition⟩ := hg.placed l p hp
  exact ⟨(mem_blocks _ _).2 ⟨i, hi⟩, hposition⟩

/-- Calls that record an edge and flags through a label that becomes an alias, and the edge again
through the block. Two of them fail. -/
def aliasCalls : List Call :=
  [.addLabel, .addLabel, .addLabel, .addEdge ⟨1⟩ .normal ⟨2⟩, .setFlags ⟨1⟩ ⟨true, false⟩,
    .place ⟨0⟩ 0, .place ⟨1⟩ 0, .place ⟨1⟩ 4, .addEdge ⟨3⟩ .normal ⟨0⟩, .addEdge ⟨0⟩ .normal ⟨2⟩,
    .setFlags ⟨0⟩ ⟨false, true⟩]

theorem edges_flags_of_calls_alias :
    (ofCalls aliasCalls).position? ⟨1⟩ = some 0 ∧
    (ofCalls aliasCalls).blockOf ⟨1⟩ ∈ (ofCalls aliasCalls).blocks ∧
    ((ofCalls aliasCalls).edges ⟨0⟩).Perm [⟨.normal, ⟨2⟩⟩, ⟨.normal, ⟨2⟩⟩] ∧
    (ofCalls aliasCalls).flags ⟨0⟩ = ⟨true, true⟩ ∧
    (Call.place ⟨1⟩ 4).fails (ofCalls aliasCalls) = true ∧
    (Call.place ⟨1⟩ 4).apply (ofCalls aliasCalls) = ofCalls aliasCalls := by
  obtain ⟨-, hplaced, hedges, hflags, hfails⟩ := edges_flags_of_calls aliasCalls
  have hposition : (ofCalls aliasCalls).position? ⟨1⟩ = some 0 := by decide
  have hfailing : (Call.place ⟨1⟩ 4).fails (ofCalls aliasCalls) = true := by decide
  exact ⟨hposition, (hplaced ⟨1⟩ 0 hposition).1, hedges ⟨0⟩, hflags ⟨0⟩, hfailing,
    hfails _ hfailing⟩

/-- Calls that set a flag through a label that is made afterwards. -/
def flagsAhead : List Call := [.setFlags ⟨0⟩ ⟨true, false⟩, .addLabel]

/-- The block of the label does not have the flag that was to be set. -/
theorem flagsAhead_ignored :
    (ofCalls flagsAhead).flags ⟨0⟩ ≠ BlockFlags.unionAll
      ((ofCalls flagsAhead).through (flagsAhead.filterMap Call.requested?)
        ((ofCalls flagsAhead).blockOf ⟨0⟩)) := by
  decide

end LabelGraph

end JvmClass
