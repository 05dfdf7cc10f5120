import JvmClass.Proofs.Flow.FixedPoint
import JvmClass.Proofs.Typing.Heights
import Mathlib.Order.Filter.AtTopBot.Basic
import Mathlib.Order.Filter.Finite

/-!
# The frame computation ends

Merges of one kind only lower an input, so a block that is not contested is simulated finitely often
as long as nothing else is merged into it. If the computation went on forever, there would be a set
of blocks that are simulated again and again, and from some round on only their edges would count:
all blocks of the set would be contested from within it. A body without such a set ends
(`FlowSetting.settles_unless_contested`).
-/

namespace JvmClass

open Filter

namespace FlowSetting

variable {setting : FlowSetting} {sources : Label → Prop} {block : Label}

theorem simulate_error {thisClass : ClassName} {peak : Nat} {f : Frame}
    {instructions : List (Nat × Effect)} {e : ClassError}
    (h : simulate thisClass peak f instructions = .error e) : e ≠ .unsettledFrames := by
  induction instructions generalizing peak f with
  | nil => cases h
  | cons instruction rest ih =>
    obtain ⟨offset, effect⟩ := instruction
    unfold simulate at h
    split at h
    · cases h
      simp
    · exact ih h

/-- Merges along the edges of one kind that enter a block lower its input. -/
def Descends (setting : FlowSetting) (sources : Label → Prop) (block : Label)
    (size : Frame → Nat) : Prop :=
  ∀ edge, setting.Entering sources block edge → ∀ input output old new,
    Frame.Merged (stackHierarchy setting.hierarchy edge.kind) setting.hierarchy old
      (carried input output edge.kind) new →
    size new ≤ size old ∧ (old.changedBy new = true → size new < size old)

/-- The input of a block that is not contested descends in one of two orders. -/
theorem exists_descends {table : Superclasses} (hh : setting.hierarchy = table.hierarchy)
    (hn : ¬ setting.Contested sources block) : ∃ size, setting.Descends sources block size := by
  rcases entering_of_not_contested hn with hnormal | ⟨hbelow, hclass⟩
  · refine ⟨Frame.height table (VType.height table), ?_⟩
    intro edge he input output old new hm
    rw [hnormal edge he, hh] at hm
    exact hm.descends fun t _ x y hj hne => VType.height_join_lt hj hne
  · refine ⟨Frame.height table (VType.caughtHeight table), ?_⟩
    intro edge he input output old new hm
    obtain ⟨c, hstack⟩ := carried_stack (hclass edge he) input output
    rw [stackHierarchy_catchesClass _ (hclass edge he), hh] at hm
    rw [hh] at hbelow
    refine hm.descends fun t ht x y hj hne => ?_
    rw [hstack, List.mem_singleton] at ht
    subst ht
    exact VType.caughtHeight_join_lt hbelow hj hne

end FlowSetting

namespace Inputs

open FlowSetting

variable {setting : FlowSetting} {sources : Label → Prop} {s s' : Inputs} {block : Label}
  {edge : Edge} {input output f : Frame} {size : Frame → Nat}

theorem receive_error {kind : EdgeKind} {e : ClassError}
    (h : s.receive setting kind block f = .error e) : e ≠ .unsettledFrames := by
  unfold receive at h
  split at h
  · cases h
  · simp only at h
    split at h
    · rename_i he
      cases h
      unfold Frame.merged at he
      split at he
      · cases he
        simp
      · cases he
    · cases h

theorem sendAll_error {edges : List Edge} {e : ClassError}
    (h : s.sendAll setting input output edges = .error e) : e ≠ .unsettledFrames := by
  induction edges generalizing s with
  | nil => cases h
  | cons edge rest ih =>
    unfold sendAll at h
    split at h
    · rename_i he
      cases h
      exact receive_error he
    · exact ih h

theorem step?_error {e : ClassError} (h : s.step? setting = .error e) : e ≠ .unsettledFrames := by
  unfold step? at h
  split at h
  · cases h
  · simp only at h
    split at h
    · rename_i he
      cases h
      exact simulate_error he
    · split at h
      · rename_i he
        cases h
        exact sendAll_error he
      · cases h

/-- Inputs that are never settled, however many rounds there are. -/
def Unsettled (setting : FlowSetting) (s : Inputs) : Prop :=
  ∀ rounds, s.settle setting rounds = .error .unsettledFrames

/-- There is a next round, after which the inputs are not settled either. -/
theorem Unsettled.next (hs : Unsettled setting s) :
    ∃ s', Round setting s s' ∧ Unsettled setting s' := by
  cases hstep : s.step? setting with
  | error e =>
    have h := hs 1
    rw [settle, hstep] at h
    cases h
    exact absurd rfl (step?_error hstep)
  | ok next =>
    cases next with
    | none =>
      have h := hs 1
      rw [settle, hstep] at h
      cases h
    | some s' =>
      refine ⟨s', round hstep, fun rounds => ?_⟩
      have h := hs (rounds + 1)
      rw [settle, hstep] at h
      exact h

/-- Unsettled inputs have an endless run of rounds. -/
theorem Unsettled.run (hs : Unsettled setting s) :
    ∃ run : Nat → Inputs, run 0 = s ∧ ∀ n, Round setting (run n) (run (n + 1)) := by
  choose next hround hnext using fun t : { t // Unsettled setting t } => t.2.next
  let run : Nat → { t // Unsettled setting t } :=
    fun n => n.rec ⟨s, hs⟩ fun _ t => ⟨next t, hnext t⟩
  exact ⟨fun n => (run n).1, rfl, fun n => hround (run n)⟩

/-- Twice the size of a block's input, plus one if the block waits. -/
def slack (size : Frame → Nat) (block : Label) (s : Inputs) : Nat :=
  2 * size (s.frames.getD block Frame.empty) + if block ∈ s.waiting then 1 else 0

/-- A receipt lowers the slack of a block or leaves it as it is. -/
theorem Received.slack_le
    (hr : Received setting s edge.kind (setting.graph.blockOf edge.successor)
      (carried input output edge.kind) s')
    (ht : s.Tidy) (he : setting.Entering sources (setting.graph.blockOf edge.successor) edge)
    (hd : setting.Descends sources block size) (hb : ∃ f, s.frames[block]? = some f) :
    slack size block s' ≤ slack size block s := by
  obtain ⟨old, ho⟩ := hb
  by_cases hblock : block = setting.graph.blockOf edge.successor
  · subst hblock
    cases hr with
    | found hn =>
      rw [hn] at ho
      cases ho
    | @changed old' merged ho' hm hc =>
      rw [mergeFor_eq] at hm
      obtain ⟨-, hlt⟩ :=
        hd edge he input output old' merged (Frame.merged_of_mergeBy? (ht.regular ho') hm)
      have := hlt hc
      simp only [slack, Std.HashMap.getD_eq_getD_getElem?, frames_await,
        Std.HashMap.getElem?_insert_self, ho', Option.getD_some]
      split <;> split <;> omega
    | @kept old' merged ho' hm hc =>
      rw [mergeFor_eq] at hm
      obtain ⟨hle, -⟩ :=
        hd edge he input output old' merged (Frame.merged_of_mergeBy? (ht.regular ho') hm)
      simp only [slack, Std.HashMap.getD_eq_getD_getElem?,
        Std.HashMap.getElem?_insert_self, ho', Option.getD_some]
      omega
  · have hsame := hr.other hblock
    have hwait : block ∈ s'.waiting ↔ block ∈ s.waiting := by
      cases hr with
      | found hn => simp [hblock]
      | changed ho hm hc => simp [hblock]
      | kept ho hm hc => rfl
    simp only [slack, Std.HashMap.getD_eq_getD_getElem?, hsame, hwait]
    exact Nat.le_refl _

theorem Sent.slack_le {edges : List Edge} (hsent : Sent setting input output s edges s')
    (hi : input.Regular) (ho : output.Regular) (ht : s.Tidy)
    (hedges : ∀ edge ∈ edges,
      setting.Entering sources (setting.graph.blockOf edge.successor) edge)
    (hd : setting.Descends sources block size) (hb : ∃ f, s.frames[block]? = some f) :
    slack size block s' ≤ slack size block s := by
  induction hsent with
  | nil s => exact Nat.le_refl _
  | @cons s mid s' edge rest head tail ih =>
    have hmid : ∃ f, mid.frames[block]? = some f := by
      obtain ⟨f, hf⟩ := hb
      exact (Sent.cons head (.nil mid)).frame hf
    exact Nat.le_trans
      (ih (head.tidy (regular_carried hi ho edge.kind) ht)
        (fun e h => hedges e (List.mem_cons_of_mem _ h)) hmid)
      (head.slack_le ht (hedges edge List.mem_cons_self) hd hb)

/-- A round of a source lowers the slack of a block or leaves it as it is, and it lowers that of the
block that is simulated. -/
theorem Round.slack_le (hr : Round setting s s') (ht : s.Tidy)
    (hsources : ∀ head rest, s.waiting = head :: rest → sources head)
    (hd : setting.Descends sources block size) (hb : ∃ f, s.frames[block]? = some f) :
    slack size block s' ≤ slack size block s ∧
      (s.waiting.head? = some block → slack size block s' < slack size block s) := by
  obtain @⟨cur, rest, output, maxStack, head, simulated, sent⟩ := hr
  have hi := ht.regular (ht.head head)
  have hle := sent.slack_le hi (regular_simulate hi simulated) (ht.dequeue head maxStack)
    (fun edge he => ⟨cur, hsources cur rest head, he, rfl⟩) hd hb
  have hnodup := ht.nodup
  rw [head, List.nodup_cons] at hnodup
  have hstart : slack size block { s with waiting := rest, maxStack } ≤ slack size block s ∧
      (s.waiting.head? = some block →
        slack size block { s with waiting := rest, maxStack } < slack size block s) := by
    simp only [slack, head, List.mem_cons, List.head?_cons, Option.some.injEq]
    constructor
    · split
      · rename_i hmem
        simp [hmem]
      · omega
    · rintro rfl
      simp [hnodup.1]
  exact ⟨Nat.le_trans hle hstart.1, fun h => Nat.lt_of_le_of_lt hle (hstart.2 h)⟩

/-- The blocks that have an input are the entry and those that edges lead to. -/
def Within (setting : FlowSetting) (entry : Label) (s : Inputs) : Prop :=
  ∀ (block : Label) (f : Frame), s.frames[block]? = some f →
    block ∈ entry :: setting.graph.allSuccessors

theorem within_start (entry : Label) (f : Frame) : Within setting entry (start entry f) := by
  intro block g hg
  simp only [start, Std.HashMap.getElem?_insert, Std.HashMap.getElem?_empty] at hg
  split at hg
  · rename_i he
    rw [beq_iff_eq.1 he]
    exact List.mem_cons_self
  · cases hg

theorem Sent.within {entry cur : Label} {edges : List Edge}
    (hsent : Sent setting input output s edges s') (hedges : edges ⊆ setting.graph.edges cur)
    (hw : Within setting entry s) : Within setting entry s' := by
  induction hsent with
  | nil s => exact hw
  | @cons s mid s' edge rest head tail ih =>
    refine ih (fun e he => hedges (List.mem_cons_of_mem _ he)) ?_
    intro b g hg
    by_cases hb : b = setting.graph.blockOf edge.successor
    · rw [hb]
      exact List.mem_cons_of_mem _
        (LabelGraph.mem_allSuccessors (hedges List.mem_cons_self))
    · rw [head.other hb] at hg
      exact hw b g hg

theorem Round.within {entry : Label} (hr : Round setting s s') (hw : Within setting entry s) :
    Within setting entry s' := by
  obtain ⟨-, -, sent⟩ := hr
  exact sent.within (List.Subset.refl _) hw

section Run

variable {run : Nat → Inputs} (hrun : ∀ n, Round setting (run n) (run (n + 1)))
include hrun

theorem run_tidy (ht : (run 0).Tidy) (n : Nat) : (run n).Tidy := by
  induction n with
  | zero => exact ht
  | succ n ih => exact (hrun n).tidy ih

theorem run_within {entry : Label} (hw : Within setting entry (run 0)) (n : Nat) :
    Within setting entry (run n) := by
  induction n with
  | zero => exact hw
  | succ n ih => exact (hrun n).within ih

theorem run_frame {n : Nat} (hb : ∃ f, (run n).frames[block]? = some f) (k : Nat) :
    ∃ f, (run (n + k)).frames[block]? = some f := by
  induction k with
  | zero => exact hb
  | succ k ih =>
    obtain ⟨f, hf⟩ := ih
    exact (hrun (n + k)).frame hf

theorem run_head (n : Nat) : ∃ head rest, (run n).waiting = head :: rest := by
  obtain ⟨head, -, -⟩ := hrun n
  exact ⟨_, _, head⟩

omit hrun in
/-- A block whose slack never grows from some round on is not simulated again and again. -/
theorem not_frequently_simulated {start : Nat}
    (hle : ∀ n ≥ start, slack size block (run (n + 1)) ≤ slack size block (run n) ∧
      ((run n).waiting.head? = some block →
        slack size block (run (n + 1)) < slack size block (run n))) :
    ¬ ∃ᶠ n in atTop, (run n).waiting.head? = some block := by
  intro hfreq
  rw [frequently_atTop] at hfreq
  -- The slack of the block would descend forever.
  have hdescend : ∀ bound n, start ≤ n → slack size block (run n) < bound → False := by
    intro bound
    induction bound with
    | zero => exact fun n _ h => absurd h (Nat.not_lt_zero _)
    | succ bound ih =>
      intro n hn hlt
      obtain ⟨m, hm, hhead⟩ := hfreq n
      have hmono : slack size block (run m) ≤ slack size block (run n) := by
        obtain ⟨k, rfl⟩ := Nat.exists_eq_add_of_le hm
        clear hhead hm
        induction k with
        | zero => exact Nat.le_refl _
        | succ k ihk => exact Nat.le_trans (hle (n + k) (by omega)).1 ihk
      have hstrict := (hle m (by omega)).2 hhead
      exact ih (m + 1) (by omega) (by omega)
  exact hdescend _ start (Nat.le_refl _) (Nat.lt_succ_self _)

/-- The blocks that are simulated again and again. -/
theorem recurring (ht : (run 0).Tidy) {entry : Label} (hw : Within setting entry (run 0)) :
    ∃ recurring : Set Label, recurring.Nonempty ∧
      (∀ b ∈ recurring, ∃ᶠ n in atTop, (run n).waiting.head? = some b) ∧
      ∀ᶠ n in atTop, ∀ head rest, (run n).waiting = head :: rest → head ∈ recurring := by
  let recurring : Set Label := { b | ∃ᶠ n in atTop, (run n).waiting.head? = some b }
  have hmem : ∀ n head rest, (run n).waiting = head :: rest →
      head ∈ entry :: setting.graph.allSuccessors := by
    intro n head rest hwait
    obtain ⟨f, hf⟩ := (run_tidy hrun ht n).waiting (hwait ▸ List.mem_cons_self)
    exact run_within hrun hw n head f hf
  -- There are finitely many blocks, so that the others are left behind from some round on.
  have hevent : ∀ᶠ n in atTop, ∀ b ∈ { b | b ∈ entry :: setting.graph.allSuccessors },
      (run n).waiting.head? = some b → b ∈ recurring := by
    rw [eventually_all_finite (List.finite_toSet _)]
    intro b _
    by_cases hb : b ∈ recurring
    · exact Eventually.of_forall fun n _ => hb
    · have hnot : ¬ ∃ᶠ n in atTop, (run n).waiting.head? = some b := hb
      rw [not_frequently] at hnot
      exact hnot.mono fun n h1 h2 => absurd h2 h1
  have hheads : ∀ᶠ n in atTop, ∀ head rest, (run n).waiting = head :: rest →
      head ∈ recurring := by
    refine hevent.mono fun n h head rest hwait => ?_
    exact h head (hmem n head rest hwait) (by rw [hwait]; rfl)
  obtain ⟨n, hn⟩ := hheads.exists
  obtain ⟨head, rest, hwait⟩ := run_head hrun n
  exact ⟨recurring, ⟨head, hn head rest hwait⟩, fun b hb => hb, hheads⟩

end Run

end Inputs

namespace FlowSetting

variable {setting : FlowSetting}

/-- The computation of inputs ends, with inputs or with an error, after finitely many rounds, unless
there are blocks all of which are contested from among themselves. -/
theorem settles_unless_contested {table : Superclasses} (hh : setting.hierarchy = table.hierarchy)
    (hno : ¬ ∃ blocks : Set Label, blocks.Nonempty ∧
      ∀ block ∈ blocks, setting.Contested (· ∈ blocks) block)
    (entry : Label) (thisClass : ClassName) (isStatic isConstructor : Bool)
    (d : MethodDescriptor) :
    ∃ rounds, (Inputs.start entry (Frame.entry thisClass isStatic isConstructor d)).settle setting
      rounds ≠ .error .unsettledFrames := by
  by_contra hnever
  have hs : Inputs.Unsettled setting
      (Inputs.start entry (Frame.entry thisClass isStatic isConstructor d)) := by
    intro rounds
    by_contra hne
    exact hnever ⟨rounds, hne⟩
  obtain ⟨run, hstart, hrun⟩ := hs.run
  have ht : (run 0).Tidy := hstart ▸ Inputs.tidy_start entry (Frame.regular_entry _ _ _ _)
  have hw : Inputs.Within setting entry (run 0) := hstart ▸ Inputs.within_start entry _
  obtain ⟨blocks, hnonempty, hfreq, hevent⟩ := Inputs.recurring hrun ht hw
  apply hno
  refine ⟨blocks, hnonempty, fun block hb => ?_⟩
  by_contra hc
  obtain ⟨size, hd⟩ := exists_descends hh hc
  obtain ⟨first, hfirst⟩ := eventually_atTop.1 hevent
  obtain ⟨seen, hseen, hhead⟩ := frequently_atTop.1 (hfreq block hb) first
  have hframe : ∃ f, (run seen).frames[block]? = some f := by
    apply (Inputs.run_tidy hrun ht seen).waiting
    exact List.mem_of_mem_head? hhead
  have hslack : ∀ n ≥ seen,
      Inputs.slack size block (run (n + 1)) ≤ Inputs.slack size block (run n) ∧
        ((run n).waiting.head? = some block →
          Inputs.slack size block (run (n + 1)) < Inputs.slack size block (run n)) := by
    intro n hn
    obtain ⟨k, rfl⟩ := Nat.exists_eq_add_of_le hn
    exact (hrun (seen + k)).slack_le (Inputs.run_tidy hrun ht _)
      (fun head rest hwait => hfirst _ (by omega) head rest hwait) hd
      (Inputs.run_frame hrun hframe k)
  exact Inputs.not_frequently_simulated hslack (hfreq block hb)

/-- A method of class `C` that returns, with a handler that casts what it catches to `C`, jumps to
itself and protects both blocks. -/
def retriesInHandler : FlowSetting where
  graph := ⟨#[{ edges := #[⟨.normal, ⟨0⟩⟩, ⟨.caught (VType.instanceOf ClassName.throwable), ⟨0⟩⟩] },
    { edges := #[⟨.caught (VType.instanceOf ClassName.throwable), ⟨0⟩⟩] }], #[⟨1⟩, ⟨0⟩]⟩
  blocks := Std.HashMap.insert (Std.HashMap.insert ∅ ⟨0⟩
    { instructions := #[(1, .checkCast (.object ⟨"C"⟩))] }) ⟨1⟩
    { instructions := #[(0, .plain Opcode.return_void)] }
  hierarchy := Hierarchy.flat
  thisClass := ⟨"C"⟩

/-- The handler waits and holds the class caught. -/
structure Retrying (s : Inputs) : Prop where
  waiting : s.waiting = [⟨0⟩]
  handler : s.frames[(⟨0⟩ : Label)]? = some (frameInC [ClassName.throwable])

/-- The jump raises what the handler holds to the root, and the exception lowers it again. -/
theorem Retrying.round {s : Inputs} (h : Retrying s) :
    ∃ s', Inputs.Round retriesInHandler s s' ∧ Retrying s' := by
  have hblock : retriesInHandler.graph.blockOf ⟨0⟩ = ⟨0⟩ := rfl
  have hhandler : retriesInHandler.instructions ⟨0⟩ = [(1, .checkCast (.object ⟨"C"⟩))] := by
    simp [instructions, retriesInHandler, Std.HashMap.getElem_insert]
  have hjump : mergeFor Hierarchy.flat .normal (frameInC [ClassName.throwable])
      (frameInC [⟨"C"⟩]) = some (frameInC [ClassName.object]) := by
    decide +kernel
  have hcaught : mergeFor Hierarchy.flat (.caught (VType.instanceOf ClassName.throwable))
      (frameInC [ClassName.object]) (frameInC [ClassName.throwable]) =
        some (frameInC [ClassName.throwable]) := by
    decide +kernel
  refine ⟨_, .of_frame _ (frameInC [⟨"C"⟩]) (max (max s.maxStack 1) 1) h.waiting h.handler ?_
    (.cons (.changed h.handler hjump ?_) (.cons (.changed ?_ hcaught ?_) (.nil _))), ?_, ?_⟩
  · rw [hhandler]
    rfl
  · decide +kernel
  · simp [hblock]
  · decide +kernel
  · simp [Inputs.await, hblock]
  · simp [hblock]

theorem Retrying.settle {s : Inputs} (h : Retrying s) (rounds : Nat) :
    s.settle retriesInHandler rounds = .error .unsettledFrames := by
  induction rounds generalizing s with
  | zero =>
    unfold Inputs.settle
    rw [h.waiting]
    rfl
  | succ rounds ih =>
    obtain ⟨s', hround, hs'⟩ := h.round
    rw [hround.settle, ih hs']

/-- However many rounds are carried out, a block waits. -/
theorem retriesInHandler_never_settles :
    ¬ ∃ rounds, (Inputs.start ⟨1⟩ (Frame.entry ⟨"C"⟩ false false ⟨[], none⟩)).settle
      retriesInHandler rounds ≠ .error .unsettledFrames := by
  rintro ⟨rounds, hne⟩
  apply hne
  obtain ⟨s, hfirst, hs⟩ :
      ∃ s, Inputs.Round retriesInHandler (Inputs.start ⟨1⟩ (frameInC [])) s ∧ Retrying s := by
    have hblock : retriesInHandler.graph.blockOf ⟨0⟩ = ⟨0⟩ := rfl
    have hentry : retriesInHandler.instructions ⟨1⟩ = [(0, .plain Opcode.return_void)] := by
      simp [instructions, retriesInHandler]
    refine ⟨_, .of_frame (frameInC []) (frameInC []) 0 rfl ?_ ?_ (.cons (.found ?_) (.nil _)),
      ?_, ?_⟩
    · simp [Inputs.start]
    · rw [hentry]
      rfl
    · simp [Inputs.start, hblock]
    · simp [Inputs.await, hblock]
    · simp only [Inputs.frames_await, hblock, Std.HashMap.getElem?_insert_self]
      rfl
  rw [entry_eq_frameInC]
  cases rounds with
  | zero => rfl
  | succ rounds => rw [hfirst.settle, hs.settle]

/-- A method of class `C` that returns, with a handler that throws what it catches and protects both
blocks. -/
def rethrowsInHandler : FlowSetting where
  graph := ⟨#[{ edges := #[⟨.caught (VType.instanceOf ClassName.throwable), ⟨0⟩⟩] },
    { edges := #[⟨.caught (VType.instanceOf ClassName.throwable), ⟨0⟩⟩] }], #[⟨1⟩, ⟨0⟩]⟩
  blocks := Std.HashMap.insert (Std.HashMap.insert ∅ ⟨0⟩
    { instructions := #[(1, .plain Opcode.athrow)] }) ⟨1⟩
    { instructions := #[(0, .plain Opcode.return_void)] }
  hierarchy := Hierarchy.flat
  thisClass := ⟨"C"⟩

theorem rethrowsInHandler_settles :
    (¬ ∃ blocks : Set Label, blocks.Nonempty ∧
      ∀ block ∈ blocks, rethrowsInHandler.Contested (· ∈ blocks) block) ∧
    ∃ rounds, (Inputs.start ⟨1⟩ (Frame.entry ⟨"C"⟩ false false ⟨[], none⟩)).settle
      rethrowsInHandler rounds ≠ .error .unsettledFrames := by
  have hno : ¬ ∃ blocks : Set Label, blocks.Nonempty ∧
      ∀ block ∈ blocks, rethrowsInHandler.Contested (· ∈ blocks) block := by
    rintro ⟨blocks, ⟨block, hb⟩, hc⟩
    have hbelow : rethrowsInHandler.hierarchy.ThrowableBelowRoot := by
      intro c hcommon
      change (if c = ClassName.throwable then c else ClassName.object) = c at hcommon
      split at hcommon
      · exact Or.inl ‹_›
      · exact Or.inr hcommon.symm
    obtain ⟨edge, ⟨source, -, hedge, -⟩, hclass⟩ := (hc block hb).2 hbelow
    obtain ⟨data, hdata, hmem⟩ := LabelGraph.exists_of_mem_edges hedge
    have hall : ∀ data ∈ rethrowsInHandler.graph.labels, ∀ edge ∈ data.edges,
        edge.kind.catchesClass = true := by
      decide
    rw [hall data hdata edge hmem] at hclass
    cases hclass
  exact ⟨hno, settles_unless_contested Superclasses.hierarchy_empty.symm hno ⟨1⟩ ⟨"C"⟩ false false
    ⟨[], none⟩⟩

end FlowSetting

end JvmClass
