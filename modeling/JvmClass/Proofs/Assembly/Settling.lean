import JvmClass.Proofs.Assembly.Handover
import JvmClass.Proofs.Assembly.Sequencing
import JvmClass.Proofs.Flow.DeadBlocks

/-!
# Settling a body moves nothing

Once all of a body is written, its maximums and frames are settled. That may place one more label at
the end of the code and replace code by other code, but blocks and frames stay where they are
(`MethodBuilder.Settling`). What fails then has nothing to do with branches.
-/

namespace JvmClass

open Step (EndsIn Upholds upholds_get upholds_modify upholds_of upholds_on upholds_pure
  upholds_throw)

/-- The error tells of a branch that does not fit. -/
def ClassError.isBranchOverflow : ClassError → Bool
  | branchOffsetOverflow .. => true
  | _ => false

/-- Computations that fail with other errors than that a branch does not fit. -/
abbrev FailsElse {α : Type} (x : Except ClassError α) : Prop :=
  FailsOnly (·.isBranchOverflow = false) x

section Graphs

variable {g : LabelGraph}

theorem LabelGraph.failsElse_offset (g : LabelGraph) (label : Label) :
    FailsElse (g.offset label) := by
  unfold offset
  split
  · exact .ok _
  · exact .error rfl

theorem LabelGraph.failsElse_blocksBefore (stop : Nat) (done : List Label) (budget : Nat)
    (block : Label) : FailsElse (g.blocksBefore stop done budget block) := by
  induction budget generalizing done block with
  | zero => exact .ok _
  | succ budget ih =>
    unfold blocksBefore
    split
    · rename_i e he
      exact .error (g.failsElse_offset block e he)
    · refine .ite (.ok _) ?_
      split
      · exact .ok _
      · exact ih _ _

theorem LabelGraph.failsElse_coveredBlocks (g : LabelGraph) (start stop : Label) :
    FailsElse (g.coveredBlocks start stop) :=
  (g.failsElse_offset stop).bind fun _ => failsElse_blocksBefore _ _ _ _

theorem failsElse_parseDescriptor {α : Type} [ParseDescriptor α] (text : String) :
    FailsElse (parseDescriptor α text) := by
  unfold parseDescriptor
  split
  · exact .error rfl
  · exact .ite (.ok _) (.error rfl)

theorem failsElse_parseClassName (name : String) : FailsElse (ClassName.parse name) := by
  unfold ClassName.parse
  exact .ite (.error rfl) (.ok _)

namespace ExceptionHandler

theorem failsElse_caughtType (h : ExceptionHandler) : FailsElse h.caughtType := by
  unfold caughtType
  split
  · exact .ok _
  · exact FailsOnly.map (.ite (failsElse_parseDescriptor _) ((failsElse_parseClassName _).map _)) _

theorem failsElse_without (cut resume : Label) (h : ExceptionHandler) :
    FailsElse (without g cut resume h) :=
  (g.failsElse_offset cut).bind fun _ => (g.failsElse_offset resume).bind fun _ =>
    (g.failsElse_offset h.start).bind fun _ => (g.failsElse_offset h.stop).bind fun _ =>
      .ite (.ok _) (.ok _)

end ExceptionHandler

namespace Handlers

/-- No label moves, and nothing fails because of a branch. -/
abbrev Relinking (g : LabelGraph) {α : Type} (step : Step LabelGraph α) : Prop :=
  Upholds (g.SameLayout ·) (·.isBranchOverflow = false) step

theorem relinking_addEdges (kind : EdgeKind) (successor : Label) (blocks : List Label) :
    Relinking g (addEdges kind successor blocks) := by
  induction blocks with
  | nil => exact upholds_pure _
  | cons block rest ih =>
    exact (LabelGraph.upholds_addEdge (fun _ => rfl) g block kind successor).bind fun _ => ih

theorem relinking_complete (handlers : Handlers) : Relinking g (complete handlers) := by
  induction handlers with
  | nil => exact upholds_pure _
  | cons h rest ih =>
    exact upholds_get.bind fun _ => (upholds_of (LabelGraph.failsElse_coveredBlocks _ _ _)).bind
      fun _ => (relinking_addEdges _ _ _).bind fun _ => ih

theorem relinking_completeTyped (handlers : Handlers) : Relinking g (completeTyped handlers) := by
  induction handlers with
  | nil => exact upholds_pure _
  | cons h rest ih =>
    exact (upholds_of h.failsElse_caughtType).bind fun _ => upholds_get.bind fun _ =>
      (upholds_of (LabelGraph.failsElse_coveredBlocks _ _ _)).bind fun _ =>
        (relinking_addEdges _ _ _).bind fun _ =>
          (upholds_modify fun g' hg => hg.trans (LabelGraph.sameLayout_setFlags g' _ _)).bind
            fun _ => ih

/-- Removing a range fails only where a place is unknown. -/
theorem upholds_removeRange (cut resume : Label) :
    Upholds (fun _ => True) (·.isBranchOverflow = false) (removeRange g cut resume) := by
  intro handlers _
  unfold removeRange
  split
  · rename_i e he
    exact ⟨trivial, g.failsElse_offset cut e he⟩
  · rename_i e _ he
    exact ⟨trivial, g.failsElse_offset resume e he⟩
  · split
    · trivial
    · rename_i e he
      have hfails : FailsElse (without g cut resume handlers) :=
        (FailsOnly.mapM (ExceptionHandler.failsElse_without cut resume) handlers).bind
          fun _ => .ok _
      exact ⟨trivial, hfails e he⟩

end Handlers

end Graphs

section Flow

variable {setting : FlowSetting}

theorem FlowSetting.failsElse_simulate (thisClass : ClassName) (peak : Nat) (f : Frame)
    (instructions : List (Nat × Effect)) : FailsElse (simulate thisClass peak f instructions) := by
  induction instructions generalizing peak f with
  | nil => exact .ok _
  | cons x rest ih =>
    obtain ⟨offset, effect⟩ := x
    unfold simulate
    split
    · exact .error rfl
    · exact ih _ _

namespace Inputs

theorem failsElse_receive (s : Inputs) (kind : EdgeKind) (block : Label) (f : Frame) :
    FailsElse (s.receive setting kind block f) := by
  unfold receive
  split
  · exact .ok _
  · dsimp only
    split
    · rename_i e he
      unfold Frame.merged at he
      split at he
      · cases he
        exact .error rfl
      · cases he
    · exact .ok _

theorem failsElse_sendAll (input output : Frame) (s : Inputs) (edges : List Edge) :
    FailsElse (s.sendAll setting input output edges) := by
  induction edges generalizing s with
  | nil => exact .ok _
  | cons edge rest ih =>
    unfold sendAll
    split
    · rename_i e he
      exact .error (failsElse_receive _ _ _ _ e he)
    · exact ih _

theorem failsElse_step? (s : Inputs) : FailsElse (s.step? setting) := by
  unfold step?
  split
  · exact .ok _
  · dsimp only
    split
    · rename_i e he
      exact .error (FlowSetting.failsElse_simulate _ _ _ _ e he)
    · split
      · rename_i e he
        exact .error (failsElse_sendAll _ _ _ _ e he)
      · exact .ok _

theorem failsElse_settle (rounds : Nat) (s : Inputs) : FailsElse (settle setting rounds s) := by
  induction rounds generalizing s with
  | zero => exact .ite (.ok _) (.error rfl)
  | succ rounds ih =>
    unfold settle
    split
    · rename_i e he
      exact .error (failsElse_step? _ e he)
    · exact .ok _
    · exact ih _

end Inputs

end Flow

namespace MethodBuilder

variable {b b' : MethodBuilder} {size : Nat}

/-- Blocks and frames of a body are in sequence, and its code has its final size. -/
structure Sized (size : Nat) (b : MethodBuilder) : Prop where
  sequenced : b.Sequenced
  size_eq : b.code.size = size

theorem Sized.relayout (h : Sized size b) {g : LabelGraph} (hg : b.graph.SameLayout g) :
    Sized size { b with graph := g } := ⟨h.sequenced.relayout hg, h.size_eq⟩

/-- The step moves nothing in the code, and does not fail because of a branch. -/
abbrev Settling (size : Nat) {α : Type} (step : Assemble α) : Prop :=
  Upholds (Sized size) (·.isBranchOverflow = false) step

theorem settling_overwrite (place : Nat) (bytes : List UInt8) :
    Settling size (write (·.overwrite place bytes)) :=
  upholds_modify fun b hb =>
    ⟨hb.sequenced.grow (Nat.le_of_eq (Bytes.size_overwrite ..).symm)
      (by rw [Bytes.size_overwrite]; exact hb.sequenced.tiled) rfl,
      (Bytes.size_overwrite ..).trans hb.size_eq⟩

theorem settling_relayout {f : MethodBuilder → LabelGraph}
    (h : ∀ b : MethodBuilder, b.graph.SameLayout (f b)) :
    Settling size (modify fun b => { b with graph := f b }) :=
  upholds_modify fun b hb => hb.relayout (h b)

/-- A step on the control flow that moves no label. -/
theorem settling_onGraph {α : Type} {step : Step LabelGraph α}
    (h : ∀ g, Handlers.Relinking g step) : Settling size (onGraph step) := fun b hb =>
  (h b.graph b.graph (.refl _)).on fun _ hg => hb.relayout hg

theorem settling_newLabel : Settling size newLabel :=
  upholds_get.bind fun _ => (upholds_modify fun _ hb =>
    ⟨hb.sequenced.addLabels 1, hb.size_eq⟩).bind fun _ => upholds_pure _

/-- A label that is placed at the end of the code moves nothing. -/
theorem Sized.endsIn_place (h : Sized size b) (label : Label) :
    EndsIn (Sized size) (·.isBranchOverflow = false)
      (onGraph (LabelGraph.place label b.code.size) b) := by
  have hgraph : EndsIn (fun g => Sized size { b with graph := g }) (·.isBranchOverflow = false)
      (LabelGraph.place label b.code.size b.graph) :=
    LabelGraph.endsIn_place h (fun _ g hg => ⟨h.sequenced.place hg, h.size_eq⟩) rfl rfl
  exact hgraph.on fun g hg => hg

theorem settling_blockEnd (next : Option Label) : Settling size (blockEnd next) := by
  cases next with
  | some next => exact upholds_pure _
  | none =>
    refine settling_newLabel.bind fun label b hb => (hb.endsIn_place label).bind fun _ t _ ht => ?_
    exact ((settling_relayout fun _ => LabelGraph.sameLayout_resolve _).bind
      fun _ => upholds_pure label) t ht

theorem settling_replaceDead (block : Label) (next : Option Label) (start stop : Nat) :
    Settling size (replaceDead block next start stop) :=
  (settling_overwrite _ _).bind fun _ => (settling_blockEnd next).bind fun _ =>
    upholds_get.bind fun _ => upholds_on (Handlers.upholds_removeRange _ _) fun _ _ hb =>
      ⟨hb.sequenced.of_eq rfl, hb.size_eq⟩

theorem settling_placeFrames (inputs : Std.HashMap Label Frame) (plan : FramePlan)
    (blocks : List Label) : Settling size (placeFrames inputs plan blocks) := by
  induction blocks generalizing plan with
  | nil => exact upholds_pure _
  | cons block rest ih =>
    refine upholds_get.bind fun b => (upholds_of (b.graph.failsElse_offset block)).bind
      fun start => ?_
    cases rest.head? with
    | some next =>
      refine (upholds_of (b.graph.failsElse_offset next)).bind fun stop => ?_
      split
      · exact ih _
      · exact .ite ((settling_replaceDead _ _ _ _).bind fun _ => ih _) (ih _)
    | none =>
      refine (upholds_pure _).bind fun stop => ?_
      split
      · exact ih _
      · exact .ite ((settling_replaceDead _ _ _ _).bind fun _ => ih _) (ih _)

theorem failsElse_givenLayout (g : LabelGraph) (frame : Nat × Layout LabelledType) :
    FailsElse (givenLayout g frame) := by
  have hname : ∀ t : LabelledType, FailsElse (t.mapM pure g.offset : Except ClassError NamedType) := by
    intro t
    cases t with
    | uninitialized label => exact (g.failsElse_offset label).bind fun _ => .ok _
    | _ => exact .ok _
  exact (FailsOnly.mapM hname _).bind fun _ => (FailsOnly.mapM hname _).bind fun _ => .ok _

theorem settling_handOverGiven (maxStack : UInt16) (maxLocals : Option UInt16) :
    Settling size (handOverGiven maxStack maxLocals) :=
  upholds_get.bind fun _ => (upholds_of (FailsOnly.mapM (failsElse_givenLayout _) _)).bind
    fun _ => upholds_pure _

theorem settling_handOverComputed (entry : Label) : Settling size (handOverComputed entry) := by
  refine upholds_get.bind fun _ => (upholds_of (Inputs.failsElse_settle _ _)).bind fun inputs =>
    (settling_relayout fun b => ?_).bind fun _ => upholds_get.bind fun _ =>
      (settling_placeFrames _ _ _).bind fun _ => .guard rfl (upholds_pure _)
  rw [LabelGraph.fold_markReachable]
  exact (LabelGraph.foldl_markReachable _).1.layout

theorem settling_handOver (entry : Label) (stack locals : UInt16) :
    Settling size (handOver entry stack locals) :=
  upholds_get.bind fun _ => .ite
    ((settling_onGraph fun _ => Handlers.relinking_completeTyped _).bind fun _ =>
      settling_handOverComputed entry)
    (.ite ((settling_onGraph fun _ => Handlers.relinking_complete _).bind fun _ =>
      upholds_get.bind fun _ => .guard rfl (settling_handOverGiven _ _))
      (settling_handOverGiven _ _))

/-- Branch distances are filled in where there is room for them, and only a branch that does not
fit cannot be. -/
theorem upholds_patch (fixups : List Fixup) :
    Upholds (Sized size) (fun _ => True) (patch fixups) := by
  induction fixups with
  | nil => exact upholds_pure _
  | cons fixup rest ih =>
    exact upholds_get.bind fun _ => (upholds_of fun _ _ => trivial).bind fun _ =>
      (upholds_of fun _ _ => trivial).bind fun _ =>
        ((settling_overwrite _ _).mono fun _ _ => trivial).bind fun _ => ih

/-- Settling a body moves no block, no frame and no end of the code, even if it fails. -/
theorem upholds_settleBody (stack locals : UInt16) :
    Upholds (Sized size) (fun _ => True) (settleBody stack locals) := by
  refine upholds_get.bind fun b => ?_
  split
  · exact upholds_throw trivial
  · exact upholds_get.bind fun _ => .guard trivial <|
      ((settling_relayout fun _ => LabelGraph.sameLayout_resolve _).mono fun _ _ => trivial).bind
        fun _ => upholds_get.bind fun _ => (upholds_patch _).bind fun _ =>
          (settling_handOver _ _ _).mono fun _ _ => trivial

end MethodBuilder

end JvmClass
