import JvmClass.Proofs.Assembly.Blocks
import JvmClass.Proofs.Flow.Calls
import JvmClass.Proofs.Upholding
import Mathlib.Logic.Relation

/-!
# What events change in a body

An event changes a body by a chain of small changes (`MethodBuilder.Change`): code is appended,
labels are made and placed at its end, edges and flags come to the control flow, room is left for
distances, and frames are taken up. An event that fails leaves off somewhere in its chain
(`MethodBuilder.changes_of_event`).
-/

namespace JvmClass

open Step (EndsIn Upholds left upholds_get upholds_modify upholds_of upholds_on upholds_pure
  upholds_throw)

namespace LabelGraph

variable {E : ClassError → Prop}

/-- A label gets its place, or the graph stays as it is: the label has one, or it is not known. -/
theorem endsIn_place {P : LabelGraph → Prop} {g : LabelGraph} {label : Label} {p : Nat} (hg : P g)
    (hplace : ∀ starts g', Placing g label p starts g' → P g')
    (unresolved : E (.unresolvedLabel label)) (duplicate : E (.duplicateLabel label)) :
    EndsIn P E (place label p g) := by
  cases h : place label p g with
  | ok starts g' => exact hplace starts g' (placing h)
  | error e g' =>
    obtain rfl := place_error h
    refine ⟨hg, ?_⟩
    unfold place at h
    split at h
    · cases h
      exact unresolved
    · split at h
      · cases h
        exact duplicate
      · split at h <;> cases h

/-- No label moves, whether or not an edge can be added. -/
theorem upholds_addEdge (hE : ∀ label, E (.unresolvedLabel label)) (g₀ : LabelGraph)
    (source : Label) (kind : EdgeKind) (successor : Label) :
    Upholds (g₀.SameLayout ·) E (addEdge source kind successor) := by
  intro g hg
  cases h : addEdge source kind successor g with
  | ok u g' => exact hg.trans (sameLayout_addEdge h)
  | error e g' =>
    obtain rfl := addEdge_error h
    unfold addEdge at h
    simp only at h
    split at h
    · cases h
    · cases h
      exact ⟨hg, hE _⟩

end LabelGraph

/-- The room for distances that an event may leave: for its own targets, and unless it is a jump, of
thirty-two bits. -/
def MethodEvent.Leaves : MethodEvent → Fixup → Prop
  | .jump _ target, fixup => fixup.target = target
  | event, fixup => fixup.target ∈ event.targets ∧ fixup.wide = true

namespace MethodBuilder

/-- What the layout of a body consists of. -/
def skeleton (b : MethodBuilder) := (b.code, b.graph, b.givenFrames, b.fixups)

/-- A small change to a body, with room left only for distances that are allowed. -/
inductive Change (A : Fixup → Prop) (b : MethodBuilder) : MethodBuilder → Prop
  /-- The layout stays, and a body that has begun has still begun. -/
  | aside {b' : MethodBuilder} (same : b'.skeleton = b.skeleton)
    (begun : b.entry.isSome = true → b'.entry.isSome = true) : Change A b b'
  | write (code : Bytes) (grows : b.code.size ≤ code.size) : Change A b { b with code }
  | relayout (graph : LabelGraph) (same : b.graph.SameLayout graph) : Change A b { b with graph }
  | addLabels (count : Nat) : Change A b { b with graph := b.graph.addLabels count }
  /-- A label is placed at the end of the code. -/
  | place {label : Label} {starts : Bool} (graph : LabelGraph)
    (placed : LabelGraph.Placing b.graph label b.code.size starts graph) :
    Change A b { b with graph }
  | fixup (fixup : Fixup) (allowed : A fixup) :
    Change A b { b with fixups := b.fixups.push fixup }
  /-- A frame comes at the end of the code, past the frame before it. -/
  | frame (layout : Layout LabelledType)
    (later : ∀ last, b.givenFrames.back? = some last → last.1 < b.code.size) :
    Change A b { b with givenFrames := b.givenFrames.push (b.code.size, layout) }

/-- Small changes one after another. -/
abbrev Changes (A : Fixup → Prop) : MethodBuilder → MethodBuilder → Prop :=
  Relation.ReflTransGen (Change A)

theorem Change.mono {A A' : Fixup → Prop} {b b' : MethodBuilder} (h : Change A b b')
    (hA : ∀ fixup, A fixup → A' fixup) : Change A' b b' := by
  cases h with
  | aside same begun => exact .aside same begun
  | write code grows => exact .write code grows
  | relayout graph same => exact .relayout graph same
  | addLabels count => exact .addLabels count
  | place graph placed => exact .place graph placed
  | fixup f allowed => exact .fixup f (hA f allowed)
  | frame layout later => exact .frame layout later

theorem Changes.mono {A A' : Fixup → Prop} {b b' : MethodBuilder} (h : Changes A b b')
    (hA : ∀ fixup, A fixup → A' fixup) : Changes A' b b' :=
  Relation.ReflTransGen.mono (fun _ _ hc => Change.mono hc hA) b b' h

section Persistence

variable {A : Fixup → Prop} {b b' : MethodBuilder}

theorem Change.size_le (h : Change A b b') : b.code.size ≤ b'.code.size := by
  cases h with
  | aside same => exact Nat.le_of_eq (congrArg (·.1.size) same).symm
  | write code grows => exact grows
  | _ => exact Nat.le_refl _

/-- No label that is placed moves. -/
theorem Change.position? (h : Change A b b') {label : Label} {p : Nat}
    (hp : b.graph.position? label = some p) : b'.graph.position? label = some p := by
  cases h with
  | aside same =>
    have hgraph : b'.graph = b.graph := congrArg (·.2.1) same
    rwa [hgraph]
  | relayout graph same => rwa [same.position?]
  | addLabels count =>
    exact (LabelGraph.position?_addLabels b.graph count label).trans hp
  | place graph placed =>
    cases placed with
    | joins leader index unplaced _ _ _ _ others =>
      rwa [(LabelGraph.others_eq others (LabelGraph.ne_of_unplaced hp unplaced)).1]
    | starts leader index _ unplaced _ _ others =>
      have hne := LabelGraph.ne_of_unplaced hp (by rw [LabelGraph.position?_eq, unplaced]; rfl)
      rwa [(LabelGraph.others_eq others hne).1]
  | write | fixup | frame => exact hp

theorem Change.begun (h : Change A b b') (hb : b.entry.isSome = true) :
    b'.entry.isSome = true := by
  cases h with
  | aside _ begun => exact begun hb
  | _ => exact hb

/-- Room that has been left stays, and more of it may come. -/
theorem Change.fixups (h : Change A b b') :
    ∃ added, b'.fixups.toList = b.fixups.toList ++ added ∧ ∀ fixup ∈ added, A fixup := by
  cases h with
  | aside same =>
    have hfixups : b'.fixups = b.fixups := congrArg (·.2.2.2) same
    exact ⟨[], by rw [hfixups, List.append_nil], by simp⟩
  | fixup f allowed => exact ⟨[f], Array.toList_push, by simpa using allowed⟩
  | _ => exact ⟨[], (List.append_nil _).symm, by simp⟩

namespace Changes

theorem size_le (h : Changes A b b') : b.code.size ≤ b'.code.size := by
  induction h with
  | refl => exact Nat.le_refl _
  | tail _ hc ih => exact Nat.le_trans ih hc.size_le

theorem position? (h : Changes A b b') {label : Label} {p : Nat}
    (hp : b.graph.position? label = some p) : b'.graph.position? label = some p := by
  induction h with
  | refl => exact hp
  | tail _ hc ih => exact hc.position? ih

theorem begun (h : Changes A b b') (hb : b.entry.isSome = true) : b'.entry.isSome = true := by
  induction h with
  | refl => exact hb
  | tail _ hc ih => exact hc.begun ih

theorem fixups (h : Changes A b b') :
    ∃ added, b'.fixups.toList = b.fixups.toList ++ added ∧ ∀ fixup ∈ added, A fixup := by
  induction h with
  | refl => exact ⟨[], (List.append_nil _).symm, by simp⟩
  | tail _ hc ih =>
    obtain ⟨front, hfront, hall⟩ := ih
    obtain ⟨back, hback, hall'⟩ := hc.fixups
    refine ⟨front ++ back, by rw [hback, hfront, List.append_assoc], fun fixup hf => ?_⟩
    exact (List.mem_append.1 hf).elim (hall fixup) (hall' fixup)

end Changes

end Persistence

/-- Whatever comes of the step, the changes up to it and its own are small ones. -/
abbrev Changing (A : Fixup → Prop) (b₀ : MethodBuilder) {α : Type} (step : Assemble α) : Prop :=
  Upholds (Changes A b₀) (fun _ => True) step

variable {A : Fixup → Prop} {b b' b₀ : MethodBuilder}

section Steps

variable {α : Type}

theorem changing_of (x : Except ClassError α) : Changing A b₀ (Step.of x) :=
  upholds_of fun _ _ => trivial

theorem changing_throw (e : ClassError) : Changing A b₀ (throw e : Assemble α) :=
  upholds_throw trivial

/-- A change beside the layout. -/
theorem changing_modify {f : MethodBuilder → MethodBuilder}
    (same : ∀ b, ((f b).skeleton, (f b).entry) = (b.skeleton, b.entry)) :
    Changing A b₀ (modify f) := by
  refine upholds_modify fun b hb => ?_
  obtain ⟨hskeleton, hentry⟩ := Prod.mk.inj (same b)
  exact hb.tail (.aside hskeleton (hentry ▸ id))

theorem changing_ask (request : ConstantPool.Request α) : Changing A b₀ (ask request) :=
  upholds_on (fun pool _ => by cases request pool <;> simp [EndsIn]) fun _ _ hb =>
    hb.tail (.aside rfl id)

theorem changing_write {f : Bytes → Bytes} (h : ∀ code, code.size ≤ (f code).size) :
    Changing A b₀ (write f) :=
  upholds_modify fun b hb => hb.tail (.write _ (h b.code))

theorem changing_relayout {f : LabelGraph → LabelGraph}
    (h : ∀ g : LabelGraph, g.SameLayout (f g)) :
    Changing A b₀ (modify fun b => { b with graph := f b.graph }) :=
  upholds_modify fun b hb => hb.tail (.relayout _ (h b.graph))

theorem changing_newLabel : Changing A b₀ newLabel :=
  upholds_get.bind fun _ => (upholds_modify fun _ hb => hb.tail (.addLabels 1)).bind fun _ =>
    upholds_pure _

theorem changing_addEdge (source : Label) (kind : EdgeKind) (successor : Label) :
    Changing A b₀ (onGraph (LabelGraph.addEdge source kind successor)) := fun b hb =>
  (LabelGraph.upholds_addEdge (fun _ => trivial) b.graph source kind successor b.graph
    (.refl _)).on fun _ hg => hb.tail (.relayout _ hg)

/-- A label is placed at the size of the code as it is now, or not at all. -/
theorem endsIn_place (h : Changes A b₀ b) (label : Label) :
    EndsIn (Changes A b₀) (fun _ => True) (onGraph (LabelGraph.place label b.code.size) b) := by
  have hgraph : EndsIn (fun g => Changes A b₀ { b with graph := g }) (fun _ => True)
      (LabelGraph.place label b.code.size b.graph) :=
    LabelGraph.endsIn_place h (fun _ g hg => h.tail (.place g hg)) trivial trivial
  exact hgraph.on fun g hg => hg

theorem changing_placeLabel (label : Label) : Changing A b₀ (placeLabel label) := by
  intro b hb
  have hcurrent : Changing A b₀ (modify fun b : MethodBuilder =>
      { b with current := some (b.graph.blockOf label) }) :=
    changing_modify fun _ => by rfl
  refine (endsIn_place hb label).bind fun starts t _ ht => ?_
  refine Upholds.ite (upholds_get.bind fun b => ?_) hcurrent t ht
  split
  · exact (changing_addEdge _ _ _).bind fun _ =>
      (changing_modify fun _ => by rfl).bind fun _ => hcurrent
  · exact (changing_relayout (LabelGraph.sameLayout_setFlags · label _)).bind fun _ =>
      (changing_modify fun _ => by rfl).bind fun _ => hcurrent

theorem changing_splitBlock : Changing A b₀ splitBlock :=
  changing_newLabel.bind fun label => changing_placeLabel label

theorem changing_endBlock : Changing A b₀ endBlock := changing_modify fun _ => by rfl

theorem changing_startInstruction : Changing A b₀ startInstruction :=
  upholds_get.bind fun _ => .guard trivial <| upholds_get.bind fun _ =>
    .when changing_splitBlock <| upholds_get.bind fun _ => upholds_pure _

theorem changing_record (offset : Nat) (effect : Except ClassError Effect) :
    Changing A b₀ (record offset effect) := by
  refine upholds_get.bind fun b => .ite ?_ (upholds_pure _)
  refine (changing_of _).bind fun effect => upholds_get.bind fun b => ?_
  split
  · exact upholds_pure _
  · exact changing_modify fun _ => by rfl

theorem changing_jumpTo (target : Label) : Changing A b₀ (jumpTo target) := by
  have hmark : Changing A b₀ (modify fun b => { b with graph := b.graph.markTarget target }) :=
    changing_relayout (LabelGraph.sameLayout_setFlags · target _)
  refine upholds_get.bind fun b => ?_
  split
  · exact hmark
  · exact (changing_addEdge _ _ _).bind fun _ => hmark

theorem changing_jumpToAll (targets : List Label) : Changing A b₀ (jumpToAll targets) := by
  induction targets with
  | nil => exact upholds_pure _
  | cons target rest ih => exact (changing_jumpTo target).bind fun _ => ih

/-- Room for a distance that is allowed. -/
theorem changing_putFixup {source : Nat} {target : Label} {wide : Bool}
    (hA : ∀ place, A ⟨source, place, target, wide⟩) :
    Changing A b₀ (putFixup source target wide) := by
  refine (upholds_modify fun b hb => hb.tail (.fixup _ (hA _))).bind fun _ =>
    changing_write fun code => ?_
  split <;> simp

theorem changing_touchLocal (slot : UInt16) (width : Nat) : Changing A b₀ (touchLocal slot width) :=
  changing_modify fun _ => by rfl

theorem changing_splitAfterStore : Changing A b₀ splitAfterStore :=
  upholds_get.bind fun _ => .ite changing_splitBlock (upholds_pure _)

/-- Distances of thirty-two bits to targets are allowed. -/
abbrev AllowsWide (A : Fixup → Prop) (targets : List Label) : Prop :=
  ∀ target ∈ targets, ∀ source place, A ⟨source, place, target, true⟩

theorem changing_putTargets (source : Nat) {targets : List Label} (hA : AllowsWide A targets) :
    Changing A b₀ (putTargets source targets) := by
  induction targets with
  | nil => exact upholds_pure _
  | cons target rest ih =>
    obtain ⟨hfirst, hrest⟩ := List.forall_mem_cons.1 hA
    exact (changing_putFixup (hfirst source)).bind fun _ => ih hrest

theorem changing_putCases (source : Nat) {cases : List (Int32 × Label)}
    (hA : AllowsWide A (cases.map Prod.snd)) : Changing A b₀ (putCases source cases) := by
  induction cases with
  | nil => exact upholds_pure _
  | cons case rest ih =>
    obtain ⟨hfirst, hrest⟩ := List.forall_mem_cons.1 hA
    exact (changing_write fun _ => by simp).bind fun _ =>
      (changing_putFixup (hfirst source)).bind fun _ => ih hrest

end Steps

section Instructions

theorem changing_plain (op : UInt8) : Changing A b₀ (plain op) :=
  changing_startInstruction.bind fun offset => (changing_write fun _ => by simp).bind fun _ =>
    (changing_record offset _).bind fun _ => .ite changing_endBlock (upholds_pure _)

theorem changing_intOperand (op : UInt8) (operand : Int32) :
    Changing A b₀ (intOperand op operand) := by
  refine changing_startInstruction.bind fun offset =>
    (changing_write fun _ => by simp).bind fun _ => ?_
  refine .ite ?_ (.ite ?_ (.ite ?_ (changing_throw _)))
  · exact .ite ((changing_write fun _ => by simp).bind fun _ => changing_record _ _)
      ((changing_throw _).bind fun _ => changing_record _ _)
  · exact .ite ((changing_write fun _ => by simp).bind fun _ => changing_record _ _)
      ((changing_throw _).bind fun _ => changing_record _ _)
  · simp only
    split
    · exact changing_throw _
    · exact (changing_write fun _ => by simp).bind fun _ => changing_record _ _

theorem changing_access (op : UInt8) (slot : UInt16) : Changing A b₀ (access op slot) :=
  changing_startInstruction.bind fun _ => upholds_get.bind fun _ => .guard trivial <|
    .guard trivial <| (changing_write fun _ => by simp).bind fun _ =>
      (changing_touchLocal _ _).bind fun _ => (changing_record _ _).bind fun _ =>
        .ite changing_endBlock (.ite changing_splitAfterStore (upholds_pure _))

/-- An instruction that names something of the pool. -/
theorem changing_naming {request : ConstantPool.Request PoolIndex} {f : PoolIndex → Bytes → Bytes}
    {effect : Nat → Except ClassError Effect} (h : ∀ index code, code.size ≤ (f index code).size) :
    Changing A b₀ (do
      let offset ← startInstruction
      let index ← ask request
      write (f index)
      record offset (effect offset)) :=
  changing_startInstruction.bind fun _ => (changing_ask _).bind fun index =>
    (changing_write (h index)).bind fun _ => changing_record _ _

theorem changing_method (op : UInt8) (owner name descriptor : String) (ownerIsInterface : Bool) :
    Changing A b₀ (method op owner name descriptor ownerIsInterface) :=
  changing_startInstruction.bind fun _ => (changing_ask _).bind fun _ =>
    (changing_of _).bind fun _ => (changing_write fun _ => by simp; omega).bind fun _ =>
      .when (changing_write fun _ => by simp; omega) (changing_record _ _)

theorem changing_jump (op : UInt8) {target : Label}
    (hA : ∀ source place wide, A ⟨source, place, target, wide⟩) :
    Changing A b₀ (jump op target) :=
  changing_startInstruction.bind fun source => upholds_get.bind fun _ => .guard trivial <|
    .guard trivial <| upholds_get.bind fun _ => (changing_write fun _ => by simp).bind fun _ =>
      (changing_putFixup fun place => hA source place _).bind fun _ =>
        (changing_record _ _).bind fun _ =>
          (changing_jumpTo _).bind fun _ => .ite changing_endBlock changing_splitBlock

/-- A frame is only taken up past the last one, at the end of the code. -/
theorem changing_frame (layout : Layout LabelledType) : Changing A b₀ (frame layout) := by
  intro b hb
  refine (upholds_get b hb).bind fun a t hget _ => ?_
  obtain ⟨rfl, rfl⟩ := Step.get_ok.1 hget
  split
  · exact ⟨hb, trivial⟩
  · split
    · dsimp only
      split
      · exact ⟨hb, trivial⟩
      · rename_i hlast
        refine hb.tail (.frame layout fun last hl => ?_)
        rw [hl] at hlast
        simpa using hlast
    · exact hb

theorem changing_increment (slot : UInt16) (amount : Int16) :
    Changing A b₀ (increment slot amount) :=
  changing_startInstruction.bind fun _ => (changing_write fun _ => by simp).bind fun _ =>
    (changing_touchLocal _ _).bind fun _ => (changing_record _ _).bind fun _ =>
      changing_splitAfterStore

theorem changing_tableSwitch (low high : Int32) {fallback : Label} {targets : List Label}
    (hA : AllowsWide A (fallback :: targets)) :
    Changing A b₀ (tableSwitch low high fallback targets) := by
  obtain ⟨hfallback, htargets⟩ := List.forall_mem_cons.1 hA
  unfold tableSwitch
  exact .guard trivial <| changing_startInstruction.bind fun source =>
    (changing_write fun _ => by simp [pad]; omega).bind fun _ =>
      (changing_putFixup (hfallback source)).bind fun _ =>
        (changing_write fun _ => by simp; omega).bind fun _ =>
          (changing_putTargets source htargets).bind fun _ => (changing_record _ _).bind fun _ =>
            (changing_jumpToAll _).bind fun _ => changing_endBlock

theorem changing_lookupSwitch {fallback : Label} (keys : List Int32) {targets : List Label}
    (hA : AllowsWide A (fallback :: targets)) :
    Changing A b₀ (lookupSwitch fallback keys targets) := by
  obtain ⟨hfallback, htargets⟩ := List.forall_mem_cons.1 hA
  have hcases : AllowsWide A ((keys.zip targets).map Prod.snd) := by
    intro target ht
    obtain ⟨⟨key, _⟩, hcase, rfl⟩ := List.mem_map.1 ht
    exact htargets _ (List.of_mem_zip hcase).2
  unfold lookupSwitch
  exact .guard trivial <| changing_startInstruction.bind fun source =>
    (changing_write fun _ => by simp [pad]; omega).bind fun _ =>
      (changing_putFixup (hfallback source)).bind fun _ =>
        (changing_write fun _ => by simp).bind fun _ => (changing_putCases source hcases).bind fun _ =>
          (changing_record _ _).bind fun _ => (changing_jumpToAll _).bind fun _ =>
            changing_endBlock

/-- Every event but `code` changes a body by small changes until the code ends. -/
theorem changing_feed {event : MethodEvent} (hcode : event ≠ .code)
    (hlast : ∀ n, event.stage = some n → n ≤ 3) : Changing event.Leaves b₀ (feed event) := by
  cases event with
  | annotated | handler | lineNumber => exact changing_modify fun _ => by rfl
  | «attribute» | codeAttribute =>
    exact upholds_get.bind fun _ => (changing_of _).bind fun _ =>
      changing_modify fun _ => by rfl
  | newLabels count => exact upholds_modify fun b hb => hb.tail (.addLabels count)
  | code => exact absurd rfl hcode
  | plain op => exact changing_plain op
  | intOperand op operand => exact changing_intOperand op operand
  | access op slot => exact changing_access op slot
  | typeOperand | field | invokeDynamic | load | newMultiArray =>
    exact changing_naming fun _ _ => by simp <;> omega
  | method op owner name descriptor ownerIsInterface => exact changing_method _ _ _ _ _
  | jump op target => exact changing_jump op fun _ _ _ => rfl
  | label label => exact changing_placeLabel label
  | frame locals stack => exact changing_frame _
  | increment slot amount => exact changing_increment slot amount
  | tableSwitch low high fallback targets =>
    exact changing_tableSwitch low high fun _ ht _ _ => ⟨ht, rfl⟩
  | lookupSwitch fallback keys targets =>
    exact changing_lookupSwitch keys fun _ ht _ _ => ⟨ht, rfl⟩
  | localVariable =>
    exact (changing_touchLocal _ _).bind fun _ => changing_modify fun _ => by rfl
  | maxs stack locals => exact absurd (hlast 4 rfl) (by decide)
  | finish => exact absurd (hlast 5 rfl) (by decide)

end Instructions

/-- The body begins where the code is still empty. -/
theorem changes_beginCode (hsize : b.code.size = 0) :
    EndsIn (Changes A b) (fun _ => True) (beginCode b) := by
  have hlabel : Changes A b { b with graph := b.graph.addLabels 1 } := .single (.addLabels 1)
  have hplace := endsIn_place hlabel b.graph.nextLabel
  rw [show b.code.size = 0 from hsize] at hplace
  have hcurrent : Changing A b (modify fun c : MethodBuilder =>
      { c with entry := some b.graph.nextLabel, current := some b.graph.nextLabel }) :=
    upholds_modify fun c hc => hc.tail (.aside rfl fun _ => rfl)
  exact hplace.bind fun _ t _ ht => hcurrent t ht

/-- Events of no stage write no code. -/
theorem code_of_stage_none {event : MethodEvent} (hs : event.stage = none) (b : MethodBuilder) :
    (left (feed event b)).code = b.code := by
  have hcode : Upholds (fun t : MethodBuilder => t.code = b.code) (fun _ => True) (feed event) := by
    cases event with
    | annotated | newLabels => exact upholds_modify fun _ h => h
    | «attribute» a =>
      exact upholds_get.bind fun _ => (upholds_of fun _ _ => trivial).bind fun _ =>
        upholds_modify fun _ h => h
    | _ => cases hs
  exact (hcode b rfl).left

/-- An event of a run in order, in a body whose code is empty at first, changes the body by small
changes, with an answer or with an error. -/
theorem changes_of_event {stage : Nat} {event : MethodEvent} (hempty : stage = 0 → b.code.size = 0)
    (hstage : ∀ n, event.stage = some n → stage ≤ n ∧ n ≤ 3) :
    Changes event.Leaves b (left (feed event b)) ∧
      (stageAfterEvent stage event = 0 → (left (feed event b)).code.size = 0) := by
  refine ⟨?_, fun hzero => ?_⟩
  · by_cases hcode : event = .code
    · subst hcode
      exact (changes_beginCode (hempty (Nat.le_zero.1 (hstage 0 rfl).1))).left
    · exact (changing_feed hcode (fun n hn => (hstage n hn).2) b .refl).left
  · obtain ⟨hnone, hstage⟩ := stageAfterEvent_eq_zero hzero
    rw [code_of_stage_none hnone, hempty hstage]

/-- The body that events leave behind, those that fail included. -/
def leftAfter : List MethodEvent → MethodBuilder → MethodBuilder
  | [], b => b
  | event :: rest, b => leftAfter rest (left (feed event b))

/-- A run without a failure leaves the body that it builds. -/
theorem leftAfter_of_ok {events : List MethodEvent} {u : Unit}
    (h : ClassBuilder.feedMethod events b = .ok u b') : leftAfter events b = b' := by
  induction events generalizing b with
  | nil =>
    obtain ⟨-, rfl⟩ := Step.pure_ok.1 h
    rfl
  | cons event rest ih =>
    obtain ⟨_, mid, hfeed, hrest⟩ := Step.bind_ok.1 h
    rw [leftAfter, hfeed]
    exact ih hrest

/-- A run in order changes a body by small changes, whichever events fail. -/
theorem changes_of_run {stage : Nat} {events : List MethodEvent}
    (hempty : stage = 0 → b.code.size = 0) (horder : inOrder stage events = true)
    (hlast : ∀ event ∈ events, ∀ n, event.stage = some n → n ≤ 3) :
    Changes (fun fixup => ∃ event ∈ events, event.Leaves fixup) b (leftAfter events b) := by
  induction events generalizing b stage with
  | nil => exact .refl
  | cons event rest ih =>
    obtain ⟨hstage, horder⟩ := inOrder_cons.1 horder
    obtain ⟨hfirst, hempty⟩ := changes_of_event hempty fun n hn =>
      ⟨hstage n hn, hlast event List.mem_cons_self n hn⟩
    have hrest := ih hempty horder fun e he => hlast e (List.mem_cons_of_mem _ he)
    exact (hfirst.mono fun f hf => ⟨event, List.mem_cons_self, hf⟩).trans
      (hrest.mono fun f ⟨e, he, hf⟩ => ⟨e, List.mem_cons_of_mem _ he, hf⟩)

end MethodBuilder

end JvmClass
