import JvmClass.Proofs.Reencoding.Following

/-!
# Instructions told again

An instruction that is read back is the one that was written, but for the names of labels, the form
of a jump and constants that read back in another shape (`MethodBuilder.Retells`). A body that takes
it up does what the body did that wrote it (`MethodBuilder.Retells.follows`).
-/

namespace JvmClass.MethodBuilder

variable {b b' c : MethodBuilder} {u : Unit}

section Instructions

open Opcode

variable {g : LabelGraph} {places : Places} {final : ConstantPool}

theorem follows_plain (op : UInt8) : Follows g places final (plain op) (plain op) :=
  follows_startInstruction.bind fun offset => (follows_write _).bind fun _ =>
    (follows_record offset _ _).bind fun _ => follows_ite follows_endBlock (follows_pure _)

theorem follows_intOperand (op : UInt8) (operand : Int32) :
    Follows g places final (intOperand op operand) (intOperand op operand) := by
  refine follows_startInstruction.bind fun offset => (follows_write _).bind fun _ => ?_
  have hend (effect : Except ClassError Effect) :
      Follows g places final (record offset effect) (record offset effect) :=
    follows_record offset _ _
  refine follows_ite ?_ (follows_ite ?_ (follows_ite ?_ (follows_throw _)))
  · exact follows_ite ((follows_write _).bind fun _ => hend _)
      ((follows_throw _).bind fun _ => hend _)
  · exact follows_ite ((follows_write _).bind fun _ => hend _)
      ((follows_throw _).bind fun _ => hend _)
  · simp only
    split
    · exact follows_throw _
    · exact (follows_write _).bind fun _ => hend _

theorem follows_access (op : UInt8) (slot : UInt16) :
    Follows g places final (access op slot) (access op slot) := by
  refine follows_startInstruction.bind fun offset => follows_get fun b c hsetting => ?_
  rw [hsetting]
  refine follows_guard Iff.rfl <| follows_guard Iff.rfl <| (follows_write _).bind fun _ =>
    (follows_touchLocal _ _).bind fun _ => (follows_record _ _ _).bind fun _ => ?_
  exact follows_ite follows_endBlock (follows_ite follows_splitAfterStore (follows_pure _))

/-- An instruction that names one constant. -/
theorem follows_naming {request : ConstantPool.Request PoolIndex} (hr : ConstantPool.Stable request)
    (f : PoolIndex → Bytes → Bytes) (effect effect' : Nat → Except ClassError Effect) :
    Follows g places final
      (do
        let offset ← startInstruction
        let index ← ask request
        write (f index)
        record offset (effect offset))
      (do
        let offset ← startInstruction
        let index ← ask request
        write (f index)
        record offset (effect' offset)) :=
  follows_startInstruction.bind fun _ => (follows_ask hr).bind fun _ =>
    (follows_write _).bind fun _ => follows_record _ _ _

theorem follows_method (op : UInt8) (owner name descriptor : String) (ownerIsInterface : Bool) :
    Follows g places final (method op owner name descriptor ownerIsInterface)
      (method op owner name descriptor ownerIsInterface) :=
  follows_startInstruction.bind fun _ =>
    (follows_ask (ConstantPool.stable_methodRef owner name descriptor ownerIsInterface)).bind
      fun _ => (follows_of _).bind fun _ => (follows_write _).bind fun _ =>
        follows_when (follows_write _) (follows_record _ _ _)

theorem follows_invokeDynamic (name descriptor : String) (bootstrap : Handle)
    (arguments : List Loadable) :
    Follows g places final (invokeDynamic name descriptor bootstrap arguments)
      (invokeDynamic name descriptor bootstrap.stored (storedAll arguments)) := by
  have hrequest : ConstantPool.invokeDynamic name descriptor bootstrap.stored
      (storedAll arguments) = ConstantPool.invokeDynamic name descriptor bootstrap arguments := by
    unfold ConstantPool.invokeDynamic
    rw [request_bootstrap_stored]
  unfold invokeDynamic
  rw [hrequest]
  exact follows_naming (ConstantPool.stable_invokeDynamic name descriptor bootstrap arguments)
    (fun site code => ((code.putU8 invokedynamic).putU16 site).putU16 0) _ _

theorem follows_load (value : Loadable) :
    Follows g places final (load value) (load value.stored) := by
  unfold load
  rw [value.request_stored, value.isWide_stored]
  exact follows_naming (ConstantPool.stable_loadable value)
    (fun index code => code.putAll (loadBytes value.isWide index)) _ _

theorem follows_increment (slot : UInt16) (amount : Int16) :
    Follows g places final (increment slot amount) (increment slot amount) :=
  follows_startInstruction.bind fun _ => (follows_write _).bind fun _ =>
    (follows_touchLocal _ _).bind fun _ => (follows_record _ _ _).bind fun _ =>
      follows_splitAfterStore

theorem follows_tableSwitch (low high : Int32) {fallback fallback' : Label}
    {targets targets' : List Label} (hfallback : Same g places fallback fallback')
    (htargets : List.Forall₂ (Same g places) targets targets') :
    Follows g places final (tableSwitch low high fallback targets)
      (tableSwitch low high fallback' targets') := by
  have hlength := htargets.length_eq
  unfold tableSwitch
  exact follows_guard (by rw [hlength]) <| follows_startInstruction.bind fun _ =>
    (follows_write _).bind fun _ => (follows_putFixup _ true hfallback).bind fun _ =>
      (follows_write _).bind fun _ => (follows_putTargets _ htargets).bind fun _ =>
        (follows_record _ _ _).bind fun _ =>
          (follows_jumpToAll (by simp [hlength])).bind fun _ => follows_endBlock

theorem follows_lookupSwitch (keys : List Int32) {fallback fallback' : Label}
    {targets targets' : List Label} (hfallback : Same g places fallback fallback')
    (htargets : List.Forall₂ (Same g places) targets targets') :
    Follows g places final (lookupSwitch fallback keys targets)
      (lookupSwitch fallback' keys targets') := by
  have hlength := htargets.length_eq
  unfold lookupSwitch
  exact follows_guard (by rw [hlength]) <| follows_startInstruction.bind fun _ =>
    (follows_write _).bind fun _ => (follows_putFixup _ true hfallback).bind fun _ =>
      (follows_write _).bind fun _ => (follows_putCases _ keys htargets).bind fun _ =>
        (follows_record _ _ _).bind fun _ =>
          (follows_jumpToAll (by simp [hlength])).bind fun _ => follows_endBlock

/-- What is left of a jump when its form is chosen. -/
def jumpAs (form : UInt8) (offset : Nat) (target : Label) : Assemble Unit := do
  write (·.putU8 form)
  putFixup offset target (form == goto_w || form == jsr_w)
  record offset (.ok (.plain form))
  jumpTo target
  if isGoto form then endBlock else splitBlock

theorem follows_jumpAs (form : UInt8) (offset : Nat) {target target' : Label}
    (h : Same g places target target') :
    Follows g places final (jumpAs form offset target) (jumpAs form offset target') :=
  (follows_write _).bind fun _ => (follows_putFixup _ _ h).bind fun _ =>
    (follows_record _ _ _).bind fun _ => (follows_jumpTo _ _).bind fun _ =>
      follows_ite follows_endBlock follows_splitBlock

/-- Whether an opcode is that of a jump. -/
def isJump (op : UInt8) : Bool := isSubroutineCall op || isGoto op || isConditionalJump op

theorem jump_iff {op : UInt8} {target : Label} :
    jump op target b = .ok u b' ↔ ∃ offset started, startInstruction b = .ok offset started ∧
      ¬ (isSubroutineCall op && started.setting.compute.frames) = true ∧ isJump op = true ∧
      jumpAs (started.jumpForm op offset target) offset target started = .ok u b' := by
  simp only [jump, Step.bind_ok, Step.get_ok]
  constructor
  · rintro ⟨offset, started, hstart, _, _, ⟨rfl, rfl⟩, h⟩
    rw [Step.guard_ok, Step.guard_ok] at h
    obtain ⟨hframes, hjump, h⟩ := h
    obtain ⟨_, _, hget, h⟩ := Step.bind_ok.1 h
    obtain ⟨rfl, rfl⟩ := Step.get_ok.1 hget
    refine ⟨offset, _, hstart, hframes, ?_, h⟩
    rwa [Bool.not_eq_true', Bool.not_eq_false] at hjump
  · rintro ⟨offset, started, hstart, hframes, hjump, h⟩
    refine ⟨offset, started, hstart, started, started, ⟨rfl, rfl⟩, ?_⟩
    rw [Step.guard_ok, Step.guard_ok]
    refine ⟨hframes, ?_, Step.bind_ok.2 ⟨started, started, rfl, h⟩⟩
    rw [Bool.not_eq_true', Bool.not_eq_false]
    exact hjump

/-- A block that is started does not matter to the form of a jump. -/
theorem jumpForm_startInstruction {offset : Nat} (h : startInstruction b = .ok offset b') (op :
    UInt8) (target : Label) : b'.jumpForm op offset target = b.jumpForm op offset target := by
  obtain ⟨hoffset, -⟩ := stays_startInstruction h
  obtain ⟨-, ⟨block, -, rfl⟩ | ⟨-, hsplit⟩⟩ := startInstruction_ok h
  · rfl
  simp only [splitBlock, newLabel, Step.bind_ok, Step.get_ok, Step.modify_ok,
    Step.pure_ok] at hsplit
  obtain ⟨_, _, ⟨_, _, ⟨rfl, rfl⟩, _, _, rfl, rfl, rfl⟩, hplace⟩ := hsplit
  have hposition := position?_placeLabel hplace target
  unfold jumpForm
  rw [hposition]
  by_cases hnew : target = b.graph.nextLabel
  · have hnone : b.graph.position? target = none := by
      rw [hnew, LabelGraph.position?_eq, LabelGraph.place?_nextLabel]
      rfl
    rw [if_pos hnew, hnone, hoffset]
    simp
  · rw [if_neg hnew, LabelGraph.position?_addLabel]

theorem isJump_jumpForm {op : UInt8} (hjump : isJump op = true) (offset : Nat) (target : Label) :
    isJump (b.jumpForm op offset target) = true := by
  rcases jumpForm_cases b op offset target with he | ⟨-, he⟩ | ⟨-, he⟩
  · rw [he]
    exact hjump
  · rw [he]
    decide
  · rw [he]
    decide

/-- A jump in its final form keeps it, unless a short one went back too far. -/
theorem jumpForm_again (h : b.Following g places final c) {form : UInt8} {offset : Nat}
    {target target' : Label} (hsame : Same g places target target')
    (hnear : form = goto ∨ form = jsr → ∀ o, g.offset target = .ok o → offset ≤ o + 0x8000) :
    c.jumpForm form offset target' = form := by
  obtain ⟨o, ho, hlabel⟩ := hsame
  obtain ⟨place, hplace, hposition⟩ := h.named o target' hlabel
  unfold jumpForm
  rw [LabelGraph.position?_eq, hplace]
  rcases hposition with hnone | hat
  · simp [hnone]
  · simp only [hat, Option.bind_some]
    split
    · rename_i hfar
      split
      · rename_i hform
        exact absurd (hnear (.inl hform) o ho) (Nat.not_le.2 hfar)
      · split
        · rename_i hform
          exact absurd (hnear (.inr hform) o ho) (Nat.not_le.2 hfar)
        · rfl
    · rfl

/-- An event and the one that tells again what a body has made of it: a jump is told in the form in
which it was written, and constants as they read back. -/
inductive Retells (g : LabelGraph) (places : Places) (b : MethodBuilder) :
    MethodEvent → MethodEvent → Prop
  | plain (op : UInt8) : Retells g places b (.plain op) (.plain op)
  | intOperand (op : UInt8) (operand : Int32) :
    Retells g places b (.intOperand op operand) (.intOperand op operand)
  | access (op : UInt8) (slot : UInt16) : Retells g places b (.access op slot) (.access op slot)
  | typeOperand (op : UInt8) (name : String) :
    Retells g places b (.typeOperand op name) (.typeOperand op name)
  | field (op : UInt8) (owner name descriptor : String) :
    Retells g places b (.field op owner name descriptor) (.field op owner name descriptor)
  | method (op : UInt8) (owner name descriptor : String) (ownerIsInterface : Bool) :
    Retells g places b (.method op owner name descriptor ownerIsInterface)
      (.method op owner name descriptor ownerIsInterface)
  | invokeDynamic (name descriptor : String) (bootstrap : Handle) (arguments : List Loadable) :
    Retells g places b (.invokeDynamic name descriptor bootstrap arguments)
      (.invokeDynamic name descriptor bootstrap.stored (storedAll arguments))
  | jump (op : UInt8) {target target' : Label} (same : Same g places target target')
    (near : b.jumpForm op b.code.size target = goto ∨ b.jumpForm op b.code.size target = jsr →
      ∀ o, g.offset target = .ok o → b.code.size ≤ o + 0x8000) :
    Retells g places b (.jump op target) (.jump (b.jumpForm op b.code.size target) target')
  | load (value : Loadable) : Retells g places b (.load value) (.load value.stored)
  | increment (slot : UInt16) (amount : Int16) :
    Retells g places b (.increment slot amount) (.increment slot amount)
  | tableSwitch (low high : Int32) {fallback fallback' : Label} {targets targets' : List Label}
    (fallback_same : Same g places fallback fallback')
    (targets_same : List.Forall₂ (Same g places) targets targets') :
    Retells g places b (.tableSwitch low high fallback targets)
      (.tableSwitch low high fallback' targets')
  | lookupSwitch (keys : List Int32) {fallback fallback' : Label} {targets targets' : List Label}
    (fallback_same : Same g places fallback fallback')
    (targets_same : List.Forall₂ (Same g places) targets targets') :
    Retells g places b (.lookupSwitch fallback keys targets)
      (.lookupSwitch fallback' keys targets')
  | newMultiArray (descriptor : String) (dimensions : UInt8) :
    Retells g places b (.newMultiArray descriptor dimensions) (.newMultiArray descriptor dimensions)

/-- What the first body makes of an instruction, the second one makes of the instruction that is
told again. -/
theorem Retells.follows (final : ConstantPool) {event event' : MethodEvent}
    (h : Retells g places b event event') (hrun : feed event b = .ok u b') : b.Proceeds b' ∧
      ∀ ⦃c⦄, b'.pool.Grows final → b.Following g places final c →
        ∃ c', feed event' c = .ok u c' ∧ b'.Following g places final c' ∧
          ∀ label place, c.graph.place? label = some place →
            c'.graph.place? label = some place := by
  cases h with
  | plain op => exact follows_plain op hrun
  | intOperand op operand => exact follows_intOperand op operand hrun
  | access op slot => exact follows_access op slot hrun
  | typeOperand op name =>
    exact follows_naming (ConstantPool.stable_cls name) (fun i code => (code.putU8 op).putU16 i)
      (typeEffect op name) (typeEffect op name) hrun
  | field op owner name descriptor =>
    exact follows_naming (ConstantPool.stable_fieldRef owner name descriptor)
      (fun i code => (code.putU8 op).putU16 i) (fun _ => _) (fun _ => _) hrun
  | method op owner name descriptor ownerIsInterface =>
    exact follows_method op owner name descriptor ownerIsInterface hrun
  | invokeDynamic name descriptor bootstrap arguments =>
    exact follows_invokeDynamic name descriptor bootstrap arguments hrun
  | @jump op target target' same near =>
    obtain ⟨offset, started, hstart, -, hjump, hrest⟩ := jump_iff.1 hrun
    have hstarts : Follows g places final startInstruction startInstruction :=
      follows_startInstruction
    obtain ⟨hproceeds, hfollow⟩ := hstarts hstart
    rw [jumpForm_startInstruction hstart] at hrest
    obtain ⟨rfl, -⟩ := stays_startInstruction hstart
    have hjumps : Follows g places final
      (jumpAs (b.jumpForm op b.code.size target) b.code.size target)
        (jumpAs _ _ target') := follows_jumpAs _ _ same
    obtain ⟨hproceeds', hfollow'⟩ := hjumps hrest
    refine ⟨hproceeds.trans hproceeds', fun c hfinal hc => ?_⟩
    obtain ⟨c₁, hc₁, hstarted, hplaces⟩ := hfollow (hproceeds'.grows.trans hfinal) hc
    obtain ⟨c', hc', hdone, hplaces'⟩ := hfollow' hfinal hstarted
    refine ⟨c', jump_iff.2 ⟨_, c₁, hc₁, ?_, isJump_jumpForm hjump _ _, ?_⟩, hdone,
      fun label place hl => hplaces' label place (hplaces label place hl)⟩
    · rw [hstarted.alike.setting, hstarted.plainly]
      simp
    · rw [jumpForm_again hstarted same near]
      exact hc'
  | load value => exact follows_load value hrun
  | increment slot amount => exact follows_increment slot amount hrun
  | tableSwitch low high fallback_same targets_same =>
    exact follows_tableSwitch low high fallback_same targets_same hrun
  | lookupSwitch keys fallback_same targets_same =>
    exact follows_lookupSwitch keys fallback_same targets_same hrun
  | newMultiArray descriptor dimensions =>
    exact follows_naming (ConstantPool.stable_cls descriptor)
      (fun i code => ((code.putU8 multianewarray).putU16 i).putU8 dimensions) (fun _ => _)
      (fun _ => _) hrun

end Instructions

end JvmClass.MethodBuilder
