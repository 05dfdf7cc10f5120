import JvmClass.Proofs.Flow.Rounds

/-!
# Inputs are fixed points

When no block waits any more, every frame that an edge carries has been received by the final input
of the successor: its locals cover those of the frame, and so do the entries of its stack, unless
joins of two kinds contest the block (`FlowSetting.Contested`). Then an entry may be moved by one
more merge, but only among the types above `ClassName.throwable`.

The invariant of the computation is that a block which does not wait has sent what its input gives
along each edge, and that the successor holds it (`Inputs.Settled`).
-/

namespace JvmClass

/-- Exceptions of a class, as opposed to jumps and to handlers of arrays. -/
def EdgeKind.catchesClass : EdgeKind → Bool
  | .exception => true
  | .caught (.object (.object _)) => true
  | _ => false

namespace FlowSetting

variable {setting : FlowSetting} {sources : Label → Prop} {block : Label} {edge : Edge}

/-- An edge from one of the sources to a block. -/
def Entering (setting : FlowSetting) (sources : Label → Prop) (block : Label) (edge : Edge) :
    Prop :=
  ∃ source, sources source ∧ edge ∈ setting.graph.edges source ∧
    setting.graph.blockOf edge.successor = block

/-- Exceptions enter a block, and jumps or exceptions that are no classes do so as well, or the
joins of classes do not stop at `ClassName.throwable` alone. -/
def Contested (setting : FlowSetting) (sources : Label → Prop) (block : Label) : Prop :=
  (∃ edge, setting.Entering sources block edge ∧ edge.kind ≠ .normal) ∧
    (setting.hierarchy.ThrowableBelowRoot →
      ∃ edge, setting.Entering sources block edge ∧ edge.kind.catchesClass = false)

/-- A block that is not contested is entered by jumps alone or by exceptions of classes alone. -/
theorem entering_of_not_contested (hn : ¬ setting.Contested sources block) :
    (∀ edge, setting.Entering sources block edge → edge.kind = .normal) ∨
      setting.hierarchy.ThrowableBelowRoot ∧
        ∀ edge, setting.Entering sources block edge → edge.kind.catchesClass = true := by
  by_cases hex : ∃ edge, setting.Entering sources block edge ∧ edge.kind ≠ .normal
  · right
    rw [Contested, not_and] at hn
    have hrest := hn hex
    simp only [Classical.not_imp, not_exists, not_and, Bool.not_eq_false] at hrest
    exact hrest
  · left
    intro edge he
    by_contra hk
    exact hex ⟨edge, he, hk⟩

theorem stackHierarchy_catchesClass (h : Hierarchy) {kind : EdgeKind}
    (hk : kind.catchesClass = true) : stackHierarchy h kind = h.caught := by
  cases kind with
  | normal => cases hk
  | exception => rfl
  | caught type => rfl

/-- An exception of a class carries an instance of it. -/
theorem carried_stack {kind : EdgeKind} (hk : kind.catchesClass = true) (input output : Frame) :
    ∃ c, (carried input output kind).stack.toList = [VType.instanceOf c] := by
  cases kind with
  | normal => cases hk
  | exception => exact ⟨ClassName.throwable, rfl⟩
  | caught type =>
    unfold EdgeKind.catchesClass at hk
    split at hk
    · rename_i he
      cases he
    · rename_i c he
      cases he
      exact ⟨c, rfl⟩
    · cases hk

/-- The input of a block covers a frame that an edge of a kind carries. -/
structure Covers (setting : FlowSetting) (contested : Prop) (kind : EdgeKind) (input f : Frame) :
    Prop where
  locals : ∀ slot, (input.local? slot).meet setting.hierarchy (f.local? slot) = input.local? slot
  stack : List.Forall₂
    (VType.Holds setting.hierarchy (stackHierarchy setting.hierarchy kind) contested)
    input.stack.toList f.stack.toList

/-- Every entry of a stack may be merged with every entry of another. -/
def Admitted (setting : FlowSetting) (contested : Prop) (kind : EdgeKind) (input f : Frame) :
    Prop :=
  ∀ x ∈ input.stack.toList, ∀ t ∈ f.stack.toList,
    VType.Admits setting.hierarchy (stackHierarchy setting.hierarchy kind) contested x t

end FlowSetting

namespace Frame

variable {h g g' : Hierarchy} {contested : Prop} {xs ts ys us : List VType}

/-- Stack entries hold what was just joined into them. -/
theorem Joins.holds (hl : h.Lawful) (hg : h.JoinsStacks g)
    (hok : ∀ x ∈ xs, ∀ t ∈ ts, VType.Admits h g contested x t) (hj : Joins g xs ts ys) :
    List.Forall₂ (VType.Holds h g contested) ys ts := by
  induction hj with
  | nil => exact .nil
  | cons head tail ih =>
    refine .cons (VType.holds_joined hl hg (hok _ ?_ _ ?_) head) (ih fun x hx t ht => ?_)
    · exact List.mem_cons_self
    · exact List.mem_cons_self
    · exact hok x (List.mem_cons_of_mem _ hx) t (List.mem_cons_of_mem _ ht)

/-- Stack entries go on holding what they held when others are joined in. -/
theorem Joins.holds_step (hl : h.Lawful) (hg : h.JoinsStacks g) (hg' : h.JoinsStacks g')
    (hsame : contested ∨ g = g') (hj : Joins g' xs us ys)
    (hh : List.Forall₂ (VType.Holds h g contested) xs ts)
    (hok : ∀ x ∈ xs, ∀ t ∈ ts, VType.Admits h g contested x t)
    (hok' : ∀ x ∈ xs, ∀ u ∈ us, VType.Admits h g' contested x u) :
    List.Forall₂ (VType.Holds h g contested) ys ts := by
  induction hj generalizing ts with
  | nil => exact hh
  | @cons a b c as bs cs head tail ih =>
    cases hh with
    | @cons _ t _ rest held holds =>
      refine .cons (held.step hl hg hg' (hok a ?_ t ?_) (hok' a ?_ b ?_) hsame head)
        (ih holds (fun x hx t ht => ?_) fun x hx u hu => ?_)
      · exact List.mem_cons_self
      · exact List.mem_cons_self
      · exact List.mem_cons_self
      · exact List.mem_cons_self
      · exact hok x (List.mem_cons_of_mem _ hx) t (List.mem_cons_of_mem _ ht)
      · exact hok' x (List.mem_cons_of_mem _ hx) u (List.mem_cons_of_mem _ hu)

/-- What is held joins, and the join differs only among types above `ClassName.throwable`. -/
theorem joins_of_holds (hh : List.Forall₂ (VType.Holds h g contested) xs ts) :
    ∃ ys, Joins g xs ts ys ∧ List.Forall₂
      (fun x y => y = x ∨ contested ∧ x.AboveThrowable h ∧ y.AboveThrowable h) xs ys := by
  induction hh with
  | nil => exact ⟨[], .nil, .nil⟩
  | cons held _ ih =>
    obtain ⟨y, hy, hm⟩ := held
    obtain ⟨ys, hys, hms⟩ := ih
    exact ⟨y :: ys, .cons hy hys, .cons hm hms⟩

end Frame

/-- Moving among types above `ClassName.throwable` keeps the height of the stack. -/
theorem total_width_eq_of_moved {h : Hierarchy} {contested : Prop} {xs ys : List VType}
    (hm : List.Forall₂
      (fun x y => y = x ∨ contested ∧ x.AboveThrowable h ∧ y.AboveThrowable h) xs ys) :
    total VerificationType.width ys = total VerificationType.width xs := by
  induction hm with
  | nil => rfl
  | cons head _ ih =>
    rw [total_cons, total_cons, ih]
    rcases head with rfl | ⟨-, hx, hy⟩
    · rfl
    · rw [hx.width_eq, hy.width_eq]

namespace Inputs

open FlowSetting

variable {setting : FlowSetting} {sources : Label → Prop} {s s' : Inputs} {block : Label}
  {edge edge' : Edge} {input output f : Frame}

/-- The stack of a block that only exceptions of classes enter holds instances of classes. -/
def HoldsInstances (setting : FlowSetting) (sources : Label → Prop) (s : Inputs) : Prop :=
  ∀ (block : Label) (f : Frame), s.frames[block]? = some f → ¬ setting.Contested sources block →
    (∃ edge, setting.Entering sources block edge ∧ edge.kind ≠ .normal) →
      ∀ t ∈ f.stack.toList, ∃ c, t = VType.instanceOf c

/-- What edges carry may be merged into the inputs that they lead to. -/
theorem HoldsInstances.admitted (hs : HoldsInstances setting sources s)
    (hf : s.frames[block]? = some f) (he : setting.Entering sources block edge) :
    setting.Admitted (setting.Contested sources block) edge.kind f
      (carried input output edge.kind) := by
  intro x hx t ht
  by_cases hc : setting.Contested sources block
  · exact Or.inl hc
  · right
    rcases entering_of_not_contested hc with hnormal | ⟨hbelow, hclass⟩
    · left
      rw [hnormal edge he]
      rfl
    · right
      have hk := hclass edge he
      have hne : edge.kind ≠ .normal := by
        intro h
        rw [h] at hk
        cases hk
      obtain ⟨c, hstack⟩ := carried_stack hk input output
      rw [hstack, List.mem_singleton] at ht
      exact ⟨hbelow, stackHierarchy_catchesClass _ hk, hs block f hf hc ⟨edge, he, hne⟩ x hx, c, ht⟩

/-- All edges into a block that is not contested join stacks alike. -/
theorem same_stackHierarchy (he : setting.Entering sources block edge)
    (he' : setting.Entering sources block edge') :
    setting.Contested sources block ∨
      stackHierarchy setting.hierarchy edge.kind = stackHierarchy setting.hierarchy edge'.kind := by
  by_cases hc : setting.Contested sources block
  · exact Or.inl hc
  · right
    rcases entering_of_not_contested hc with hnormal | ⟨-, hclass⟩
    · rw [hnormal edge he, hnormal edge' he']
    · rw [stackHierarchy_catchesClass _ (hclass edge he),
        stackHierarchy_catchesClass _ (hclass edge' he')]

theorem Received.holdsInstances
    (hr : Received setting s edge.kind (setting.graph.blockOf edge.successor)
      (carried input output edge.kind) s')
    (ht : s.Tidy) (he : setting.Entering sources (setting.graph.blockOf edge.successor) edge)
    (hs : HoldsInstances setting sources s) : HoldsInstances setting sources s' := by
  intro b g hg hc hex t hmem
  by_cases hb : b = setting.graph.blockOf edge.successor
  · subst hb
    obtain ⟨edge', he', hne⟩ := hex
    rcases entering_of_not_contested hc with hnormal | ⟨-, hclass⟩
    · exact absurd (hnormal edge' he') hne
    · obtain ⟨c, hstack⟩ := carried_stack (hclass edge he) input output
      cases ho : s.frames[setting.graph.blockOf edge.successor]? with
      | none =>
        cases hr with
        | found hn =>
          simp only [frames_await, Std.HashMap.getElem?_insert_self, Option.some.injEq] at hg
          rw [← hg, hstack, List.mem_singleton] at hmem
          exact ⟨c, hmem⟩
        | changed ho' hm hc =>
          rw [ho] at ho'
          cases ho'
        | kept ho' hm hc =>
          rw [ho] at ho'
          cases ho'
      | some old =>
        obtain ⟨new, hnew, hm⟩ := hr.merged ht ho
        rw [hnew] at hg
        cases hg
        have hold := hs _ old ho hc ⟨edge', he', hne⟩
        have hj := hm.joins
        rw [hstack, stackHierarchy_catchesClass _ (hclass edge he)] at hj
        generalize old.stack.toList = xs at hold hj
        generalize g.stack.toList = ys at hmem hj
        cases hj with
        | cons head tail =>
          cases tail
          obtain ⟨a, rfl⟩ := hold _ List.mem_cons_self
          rw [VType.join_caught_instances] at head
          rw [List.mem_singleton] at hmem
          rw [hmem]
          exact ⟨_, (Option.some.inj head).symm⟩
  · rw [hr.other hb] at hg
    exact hs b g hg hc hex t hmem

/-- The input of the successor covers the frame that an edge carries. -/
def Held (setting : FlowSetting) (sources : Label → Prop) (s : Inputs) (edge : Edge) (f : Frame) :
    Prop :=
  ∃ x, s.frames[setting.graph.blockOf edge.successor]? = some x ∧
    setting.Covers (setting.Contested sources (setting.graph.blockOf edge.successor)) edge.kind x f

/-- A frame is held once it has been received. -/
theorem Received.held (hl : setting.hierarchy.Lawful)
    (hr : Received setting s edge.kind (setting.graph.blockOf edge.successor)
      (carried input output edge.kind) s')
    (ht : s.Tidy) (he : setting.Entering sources (setting.graph.blockOf edge.successor) edge)
    (hs : HoldsInstances setting sources s) :
    Held setting sources s' edge (carried input output edge.kind) := by
  cases ho : s.frames[setting.graph.blockOf edge.successor]? with
  | none =>
    cases hr with
    | found hn =>
      refine ⟨carried input output edge.kind, by simp, ?_, ?_⟩
      · intro slot
        rw [VType.meet, VType.join_self]
        rfl
      · exact List.forall₂_same.2 fun t _ => VType.holds_self _ _ _ t
    | changed ho' hm hc =>
      rw [ho] at ho'
      cases ho'
    | kept ho' hm hc =>
      rw [ho] at ho'
      cases ho'
  | some old =>
    obtain ⟨new, hnew, hm⟩ := hr.merged ht ho
    refine ⟨new, hnew, ?_, ?_⟩
    · intro slot
      rw [hm.local?, VType.meet_absorbs hl]
    · exact hm.joins.holds hl (joinsStacks _ _) (hs.admitted ho he)

/-- What is held stays held when other frames are received. -/
theorem Received.held_step (hl : setting.hierarchy.Lawful)
    (hr : Received setting s edge.kind (setting.graph.blockOf edge.successor)
      (carried input output edge.kind) s')
    (ht : s.Tidy) (he : setting.Entering sources (setting.graph.blockOf edge.successor) edge)
    (hs : HoldsInstances setting sources s) {input' output' : Frame}
    (he' : setting.Entering sources (setting.graph.blockOf edge'.successor) edge')
    (hh : Held setting sources s edge' (carried input' output' edge'.kind)) :
    Held setting sources s' edge' (carried input' output' edge'.kind) := by
  obtain ⟨x, hx, hcov⟩ := hh
  by_cases hb : setting.graph.blockOf edge'.successor = setting.graph.blockOf edge.successor
  · have ho := hx
    rw [hb] at ho
    obtain ⟨new, hnew, hm⟩ := hr.merged ht ho
    refine ⟨new, by rw [hb]; exact hnew, ?_, ?_⟩
    · intro slot
      rw [hm.local?, VType.meet_climbs hl (hcov.locals slot)]
    · rw [← hb] at he
      exact hm.joins.holds_step hl (joinsStacks _ _) (joinsStacks _ _) (same_stackHierarchy he' he)
        hcov.stack (hs.admitted hx he') (hs.admitted hx he)
  · exact ⟨x, (hr.other hb).trans hx, hcov⟩

/-- What holds of the inputs while the edges out of a block are gone through. -/
theorem Sent.held (hl : setting.hierarchy.Lawful) {edges : List Edge}
    (hsent : Sent setting input output s edges s') (hi : input.Regular) (ho : output.Regular)
    (ht : s.Tidy)
    (hedges : ∀ edge ∈ edges,
      setting.Entering sources (setting.graph.blockOf edge.successor) edge)
    (hs : HoldsInstances setting sources s) :
    HoldsInstances setting sources s' ∧
      (∀ edge ∈ edges, Held setting sources s' edge (carried input output edge.kind)) ∧
      ∀ edge' input' output',
        setting.Entering sources (setting.graph.blockOf edge'.successor) edge' →
        Held setting sources s edge' (carried input' output' edge'.kind) →
        Held setting sources s' edge' (carried input' output' edge'.kind) := by
  induction hsent with
  | nil s => exact ⟨hs, by simp, fun _ _ _ _ h => h⟩
  | @cons s mid s' edge rest head tail ih =>
    have he := hedges edge List.mem_cons_self
    have htm := head.tidy (regular_carried hi ho edge.kind) ht
    obtain ⟨h1, h2, h3⟩ := ih htm (fun e h => hedges e (List.mem_cons_of_mem _ h))
      (head.holdsInstances ht he hs)
    refine ⟨h1, ?_, ?_⟩
    · intro e hmem
      rcases List.mem_cons.1 hmem with rfl | hmem
      · exact h3 e input output he (head.held hl ht he hs)
      · exact h2 e hmem
    · intro edge' input' output' he' hh
      exact h3 edge' input' output' he' (head.held_step hl ht he hs he' hh)

/-- A block has sent what its input gives along every edge, and the successors hold it. -/
def Settled (setting : FlowSetting) (sources : Label → Prop) (s : Inputs) (block : Label) : Prop :=
  ∀ input, s.frames[block]? = some input → ∃ output height,
    simulate setting.thisClass 0 input (setting.instructions block) = .ok (output, height) ∧
    ∀ edge ∈ setting.graph.edges block, Held setting sources s edge (carried input output edge.kind)

/-- The invariant of the computation of inputs. -/
structure Consistent (setting : FlowSetting) (sources : Label → Prop) (s : Inputs) : Prop where
  tidy : s.Tidy
  instances : HoldsInstances setting sources s
  settled : ∀ block, block ∉ s.waiting → Settled setting sources s block

theorem consistent_start (entry : Label) (hf : f.Regular) (hs : f.stack.toList = []) :
    Consistent setting sources (start entry f) where
  tidy := tidy_start entry hf
  instances := by
    intro block g hg _ _ t ht
    simp only [start, Std.HashMap.getElem?_insert, Std.HashMap.getElem?_empty] at hg
    split at hg
    · cases hg
      rw [hs] at ht
      cases ht
    · cases hg
  settled := by
    intro block hb input hi
    simp only [start, List.mem_singleton] at hb
    simp [start, Ne.symm hb] at hi

/-- A round keeps the inputs consistent if the blocks that have one are sources. -/
theorem Round.consistent (hl : setting.hierarchy.Lawful) (hr : Round setting s s')
    (hsources : ∀ block f, s.frames[block]? = some f → sources block)
    (hc : Consistent setting sources s) : Consistent setting sources s' := by
  have htidy := hr.tidy hc.tidy
  obtain @⟨cur, rest, output, maxStack, head, simulated, sent⟩ := hr
  have hcur := hc.tidy.head head
  generalize s.frames.getD cur Frame.empty = input at hcur simulated sent
  have hi := hc.tidy.regular hcur
  have ho := regular_simulate hi simulated
  have ht := hc.tidy.dequeue head maxStack
  have hedges : ∀ edge ∈ setting.graph.edges cur,
      setting.Entering sources (setting.graph.blockOf edge.successor) edge :=
    fun edge he => ⟨cur, hsources cur input hcur, he, rfl⟩
  obtain ⟨h1, h2, h3⟩ := sent.held hl hi ho ht hedges hc.instances
  refine ⟨htidy, h1, ?_⟩
  intro b hb g hg
  rw [sent.settled hi ho ht hb] at hg
  by_cases he : b = cur
  · subst he
    have hgi : g = input := Option.some.inj (hg.symm.trans hcur)
    subst hgi
    obtain ⟨height, hsim⟩ := simulate_peak 0 simulated
    exact ⟨output, height, hsim, h2⟩
  · have hnot : b ∉ s.waiting := by
      rw [head, List.mem_cons]
      rintro (h | h)
      · exact he h
      · exact hb (sent.waiting_subset h)
    obtain ⟨output', height, hsim, hheld⟩ := hc.settled b hnot g hg
    refine ⟨output', height, hsim, fun edge hedge => ?_⟩
    exact h3 edge g output' ⟨b, hsources b g hg, hedge, rfl⟩ (hheld edge hedge)

theorem rounds_consistent (hl : setting.hierarchy.Lawful)
    (hr : Relation.ReflTransGen (Round setting) s s')
    (hsources : ∀ block f, s'.frames[block]? = some f → sources block)
    (hc : Consistent setting sources s) : Consistent setting sources s' := by
  induction hr with
  | refl => exact hc
  | @tail mid s' hrun hlast ih =>
    have hmid : ∀ block f, mid.frames[block]? = some f → sources block := by
      intro block f hf
      obtain ⟨g, hg⟩ := hlast.frame hf
      exact hsources block g hg
    exact hlast.consistent hl hmid (ih hmid)

/-- Inputs that are final are consistent. -/
theorem consistent_of_inputs (hl : setting.hierarchy.Lawful) {entry : Label} {r : Inputs}
    (hf : f.Regular) (hs : f.stack.toList = []) (hr : setting.inputs entry f = .ok r) :
    Consistent setting (· ∈ r.frames) r ∧ r.waiting = [] := by
  obtain ⟨hrun, hw⟩ := rounds_of_settle hr
  refine ⟨rounds_consistent hl hrun ?_ (consistent_start entry hf hs), hw⟩
  intro block g hg
  rw [Std.HashMap.mem_iff_isSome_getElem?, hg]
  rfl

end Inputs

namespace FlowSetting

variable {setting : FlowSetting}

/-- A covered frame merges without a change of the locals, and of the stack unless the block is
contested. -/
theorem Covers.merges {contested : Prop} {kind : EdgeKind} {input f : Frame}
    (hc : setting.Covers contested kind input f) (hi : input.Regular) :
    ∃ merged, mergeFor setting.hierarchy kind input f = some merged ∧
      (∀ slot, merged.local? slot = input.local? slot) ∧
      List.Forall₂ (fun old new => new = old ∨ contested ∧
          old.AboveThrowable setting.hierarchy ∧ new.AboveThrowable setting.hierarchy)
        input.stack.toList merged.stack.toList := by
  obtain ⟨types, hj, hm⟩ := Frame.joins_of_holds hc.stack
  obtain ⟨merged, hmerge, hstack⟩ :=
    Frame.mergeBy?_of_joins (h := setting.hierarchy) hi hj (total_width_eq_of_moved hm)
  rw [mergeFor_eq]
  refine ⟨merged, hmerge, fun slot => ?_, ?_⟩
  · rw [(Frame.merged_of_mergeBy? hi hmerge).local?, hc.locals slot]
  · rw [hstack]
    exact hm

/-- The inputs that are computed are a fixed point up to contested blocks: a block with an input can
be simulated from it, and what it carries along each edge merges into the input of the successor.
The merge changes no local, and it changes a stack entry only if the successor is contested, where
the entry moves among the types above `ClassName.throwable`. -/
theorem inputs_fixed_unless_contested {table : Superclasses}
    (hh : setting.hierarchy = table.hierarchy) {entry : Label} {thisClass : ClassName}
    {isStatic isConstructor : Bool} {d : MethodDescriptor} {r : Inputs}
    (hr : setting.inputs entry (Frame.entry thisClass isStatic isConstructor d) = .ok r)
    {block : Label} {input : Frame} (hb : r.frames[block]? = some input) :
    ∃ output height,
      simulate setting.thisClass 0 input (setting.instructions block) = .ok (output, height) ∧
      ∀ edge ∈ setting.graph.edges block, ∃ old new,
        r.frames[setting.graph.blockOf edge.successor]? = some old ∧
        mergeFor setting.hierarchy edge.kind old (carried input output edge.kind) = some new ∧
        (∀ slot, new.local? slot = old.local? slot) ∧
        List.Forall₂ (fun a b => b = a ∨
            setting.Contested (· ∈ r.frames) (setting.graph.blockOf edge.successor) ∧
            a.AboveThrowable setting.hierarchy ∧ b.AboveThrowable setting.hierarchy)
          old.stack.toList new.stack.toList := by
  have hl : setting.hierarchy.Lawful := hh ▸ table.lawful
  have hstack : (Frame.entry thisClass isStatic isConstructor d).stack.toList = [] := by
    rw [Frame.entry_stack]
    rfl
  obtain ⟨hc, hw⟩ := Inputs.consistent_of_inputs hl (Frame.regular_entry _ _ _ _) hstack hr
  have hnot : block ∉ r.waiting := by
    rw [hw]
    exact List.not_mem_nil
  obtain ⟨output, height, hsim, hheld⟩ := hc.settled block hnot input hb
  refine ⟨output, height, hsim, fun edge he => ?_⟩
  obtain ⟨old, hold, hcov⟩ := hheld edge he
  obtain ⟨new, hnew, hlocals, hmoved⟩ := hcov.merges (hc.tidy.regular hold)
  exact ⟨old, new, hold, hnew, hlocals, hmoved⟩

/-- A method of class `C` that loads `this` and falls into a block that throws what is on the stack
and is also the handler of the first block. -/
def fallsIntoHandler : FlowSetting where
  graph := ⟨#[{}, { edges := #[⟨.normal, ⟨0⟩⟩,
    ⟨.caught (VType.instanceOf ClassName.throwable), ⟨0⟩⟩] }], #[⟨1⟩, ⟨0⟩]⟩
  blocks := Std.HashMap.insert (Std.HashMap.insert ∅ ⟨0⟩
    { instructions := #[(1, .plain Opcode.athrow)] }) ⟨1⟩
    { instructions := #[(0, .access Opcode.aload 0)] }
  hierarchy := Hierarchy.flat
  thisClass := ⟨"C"⟩

/-- A frame whose only local holds an instance of `C`. -/
def frameInC (stack : List ClassName) : Frame :=
  ⟨#[VType.instanceOf ⟨"C"⟩], SlotVec.ofList (stack.map VType.instanceOf)⟩

theorem entry_eq_frameInC : Frame.entry ⟨"C"⟩ false false ⟨[], none⟩ = frameInC [] := by
  decide

/-- The handler ends up with the class caught, and has lost the class that falls into it. -/
theorem fallsIntoHandler_inputs : ∃ r, fallsIntoHandler.inputs ⟨1⟩ (frameInC []) = .ok r ∧
    r.frames[(⟨1⟩ : Label)]? = some (frameInC []) ∧
    r.frames[(⟨0⟩ : Label)]? = some (frameInC [ClassName.throwable]) := by
  have hentry : fallsIntoHandler.instructions ⟨1⟩ = [(0, .access Opcode.aload 0)] := by
    simp [instructions, fallsIntoHandler]
  have hhandler : fallsIntoHandler.instructions ⟨0⟩ = [(1, .plain Opcode.athrow)] := by
    simp [instructions, fallsIntoHandler, Std.HashMap.getElem_insert]
  have hblock : fallsIntoHandler.graph.blockOf ⟨0⟩ = ⟨0⟩ := rfl
  have hmerge : mergeFor Hierarchy.flat (.caught (VType.instanceOf ClassName.throwable))
      (frameInC [⟨"C"⟩]) (frameInC [ClassName.throwable]) =
        some (frameInC [ClassName.throwable]) := by
    decide +kernel
  obtain ⟨s, hfirst, hw, h1, h0⟩ :
      ∃ s, Inputs.Round fallsIntoHandler (Inputs.start ⟨1⟩ (frameInC [])) s ∧
        s.waiting = [⟨0⟩] ∧ s.frames[(⟨1⟩ : Label)]? = some (frameInC []) ∧
        s.frames[(⟨0⟩ : Label)]? = some (frameInC [ClassName.throwable]) := by
    refine ⟨_, .of_frame (frameInC []) (frameInC [⟨"C"⟩]) 1 rfl ?_ ?_
      (.cons (.found ?_) (.cons (.changed ?_ hmerge ?_) (.nil _))), ?_, ?_, ?_⟩
    · simp [Inputs.start]
    · rw [hentry]
      rfl
    · simp [Inputs.start, hblock]
    · simp [hblock, carried]
    · decide
    · simp [Inputs.start, Inputs.await, hblock]
    · simp [Inputs.start, hblock, Std.HashMap.getElem_insert]
    · simp [hblock]
  obtain ⟨r, hsecond, hdone, hr1, hr0⟩ :
      ∃ r, Inputs.Round fallsIntoHandler s r ∧ r.waiting = [] ∧
        r.frames[(⟨1⟩ : Label)]? = some (frameInC []) ∧
        r.frames[(⟨0⟩ : Label)]? = some (frameInC [ClassName.throwable]) := by
    refine ⟨_, .of_frame (frameInC [ClassName.throwable]) (frameInC []) (max (max s.maxStack 1) 0)
      hw h0 ?_ (.nil _), rfl, h1, h0⟩
    rw [hhandler]
    rfl
  refine ⟨r, ?_, hr1, hr0⟩
  exact (hfirst.settle _).trans ((hsecond.settle _).trans (Inputs.settle_of_waiting hdone _))

/-- What falls into the handler changes the input of the handler when it is merged once more. -/
theorem fallsIntoHandler_not_fixed : ∃ r input output height old new edge,
    fallsIntoHandler.inputs ⟨1⟩ (Frame.entry ⟨"C"⟩ false false ⟨[], none⟩) = .ok r ∧
    r.frames[(⟨1⟩ : Label)]? = some input ∧
    simulate fallsIntoHandler.thisClass 0 input (fallsIntoHandler.instructions ⟨1⟩) =
      .ok (output, height) ∧
    edge ∈ fallsIntoHandler.graph.edges ⟨1⟩ ∧
    r.frames[fallsIntoHandler.graph.blockOf edge.successor]? = some old ∧
    mergeFor fallsIntoHandler.hierarchy edge.kind old (carried input output edge.kind) = some new ∧
    new.stack.toList ≠ old.stack.toList := by
  obtain ⟨r, hr, h1, h0⟩ := fallsIntoHandler_inputs
  refine ⟨r, frameInC [], frameInC [⟨"C"⟩], 1, frameInC [ClassName.throwable],
    frameInC [ClassName.object], ⟨.normal, ⟨0⟩⟩, ?_, h1, ?_, ?_, h0, ?_, ?_⟩
  · rw [entry_eq_frameInC]
    exact hr
  · simp only [instructions, fallsIntoHandler, Std.HashMap.getElem?_insert_self]
    rfl
  · decide
  · decide +kernel
  · decide

theorem fallsIntoHandler_fixed_unless_contested : ∃ r input output height,
    fallsIntoHandler.inputs ⟨1⟩ (Frame.entry ⟨"C"⟩ false false ⟨[], none⟩) = .ok r ∧
    r.frames[(⟨1⟩ : Label)]? = some input ∧
    simulate fallsIntoHandler.thisClass 0 input (fallsIntoHandler.instructions ⟨1⟩) =
      .ok (output, height) ∧
    ∀ edge ∈ fallsIntoHandler.graph.edges ⟨1⟩, ∃ old new,
      r.frames[fallsIntoHandler.graph.blockOf edge.successor]? = some old ∧
      mergeFor fallsIntoHandler.hierarchy edge.kind old (carried input output edge.kind) =
        some new ∧
      (∀ slot, new.local? slot = old.local? slot) ∧
      List.Forall₂ (fun a b => b = a ∨
          fallsIntoHandler.Contested (· ∈ r.frames)
            (fallsIntoHandler.graph.blockOf edge.successor) ∧
          a.AboveThrowable fallsIntoHandler.hierarchy ∧
          b.AboveThrowable fallsIntoHandler.hierarchy)
        old.stack.toList new.stack.toList := by
  obtain ⟨r, hr, h1, -⟩ := fallsIntoHandler_inputs
  rw [← entry_eq_frameInC] at hr
  obtain ⟨output, height, hsim, hedges⟩ :=
    inputs_fixed_unless_contested Superclasses.hierarchy_empty.symm hr h1
  exact ⟨r, _, output, height, hr, h1, hsim, hedges⟩

end FlowSetting

end JvmClass
