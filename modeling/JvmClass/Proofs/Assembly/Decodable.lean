import JvmClass.Proofs.Assembly.FrameDemands

/-!
# Which codes an event checks

An event that carries the code of its instruction may be given one that it is not for. Most events
refuse it; those of plain instructions, fields and methods write it as it is, and those that name a
type refuse it only while something is computed (`MethodEvent.isUnchecked`). If these are given codes
that they are for, the finished code can be decoded, whatever is computed
(`MethodBuilder.decodes_if_proper`); if not, it may be one that no reader takes.
-/

namespace JvmClass

open Instruction (Coded Served)

/-- Whether the code of an instruction is written without a look at whether the event is for it. -/
def MethodEvent.isUnchecked (compute : Compute) : MethodEvent → Bool
  | .plain .. | .field .. | .method .. => true
  | .typeOperand .. => !compute.computesMaxs
  | _ => false

namespace MethodBuilder

variable {b b' : MethodBuilder} {u : Unit} {op : UInt8}

/-- An effect is looked at only if something is computed. -/
theorem effect_of_record {offset : Nat} {effect : Except ClassError Effect}
    (hc : b.setting.compute.computesMaxs = true) (h : record offset effect b = .ok u b') :
    ∃ e, effect = .ok e := by
  simp only [record, Step.bind_ok, Step.get_ok] at h
  obtain ⟨_, _, ⟨rfl, rfl⟩, h⟩ := h
  rw [if_pos hc] at h
  obtain ⟨e, _, heffect, -⟩ := Step.bind_ok.1 h
  exact ⟨e, (Step.of_ok.1 heffect).1⟩

theorem isTypeOperand_of_typeEffect {name : String} {offset : Nat} {e : Effect}
    (h : typeEffect op name offset = .ok e) : Instruction.isTypeOperand op = true := by
  unfold Instruction.isTypeOperand
  rcases typeEffect_cases h with ⟨rfl, -⟩ | ⟨rfl, -⟩ | ⟨rfl, -⟩ | ⟨rfl, -⟩ <;> rfl

theorem isProper_of_intOperand {operand : Int32} (h : intOperand op operand b = .ok u b') :
    (MethodEvent.intOperand op operand).isProper = true := by
  simp only [intOperand, Step.bind_ok] at h
  obtain ⟨_, _, -, _, _, -, h⟩ := h
  by_cases hpush : op = Opcode.bipush
  · simp [MethodEvent.isProper, hpush]
  · by_cases hshort : op = Opcode.sipush
    · simp [MethodEvent.isProper, hshort]
    · rw [if_neg hpush, if_neg hshort] at h
      split at h
      · rename_i harray
        simp [MethodEvent.isProper, harray]
      · exact absurd h (by simp [Step.throw_ok])

theorem isProper_of_access {slot : UInt16} (h : access op slot b = .ok u b') :
    (MethodEvent.access op slot).isProper = true := by
  simp only [access, Step.bind_ok, Step.get_ok] at h
  obtain ⟨_, _, -, _, _, ⟨rfl, rfl⟩, h⟩ := h
  rw [Step.guard_ok] at h
  obtain ⟨-, h⟩ := h
  rw [Step.guard_ok] at h
  have hgroup := h.1
  rwa [Bool.not_eq_true, Bool.not_eq_false'] at hgroup

theorem isProper_of_typeOperand {name : String} (hc : b.setting.compute.computesMaxs = true)
    (h : typeOperand op name b = .ok u b') : (MethodEvent.typeOperand op name).isProper = true := by
  simp only [typeOperand, Step.bind_ok] at h
  obtain ⟨offset, started, hstart, cls, asked, hask, _, _, hwrite, hrecord⟩ := h
  obtain rfl := write_ok hwrite
  have hsetting : asked.setting = b.setting :=
    (appends_ask (ConstantPool.stable_cls name) hask).1.setting.trans
      (appends_startInstruction hstart).2.setting
  obtain ⟨e, he⟩ := effect_of_record (by rw [← hc, ← hsetting]) hrecord
  exact isTypeOperand_of_typeEffect he

theorem isProper_of_jump {target : Label} (h : jump op target b = .ok u b') :
    (MethodEvent.jump op target).isProper = true := by
  have hgroups : ∀ op, (Opcode.isSubroutineCall op || Opcode.isGoto op ||
      Opcode.isConditionalJump op) = true →
      (Instruction.isShortJump op || op == Opcode.goto_w || op == Opcode.jsr_w) = true :=
    Opcode.forall_of_fin (by decide +kernel)
  simp only [jump, Step.bind_ok, Step.get_ok] at h
  obtain ⟨_, _, -, _, _, ⟨rfl, rfl⟩, h⟩ := h
  rw [Step.guard_ok] at h
  obtain ⟨-, h⟩ := h
  rw [Step.guard_ok] at h
  exact hgroups op (by simpa only [Bool.not_eq_true, Bool.not_eq_false'] using h.1)

/-- An event that checks the code of its instruction refuses one that it is not for. -/
theorem isProper_of_feed {event : MethodEvent} (hok : feed event b = .ok u b')
    (hchecks : event.isUnchecked b.setting.compute = false) : event.isProper = true := by
  cases event with
  | plain | field | method => cases hchecks
  | intOperand op operand => exact isProper_of_intOperand hok
  | access op slot => exact isProper_of_access hok
  | typeOperand op name =>
    exact isProper_of_typeOperand (by simpa [MethodEvent.isUnchecked] using hchecks) hok
  | jump op target => exact isProper_of_jump hok
  | _ => rfl

theorem setting_feed {event : MethodEvent} (hlast : ∀ n, event.stage = some n → n ≤ 3)
    (hok : feed event b = .ok u b') : b'.setting = b.setting := by
  by_cases hi : isInstruction event = true
  · obtain ⟨_, happends, -⟩ := writes_feed hi hok
    exact happends.setting
  · exact (appends_feed (Bool.eq_false_iff.2 hi) hlast hok).setting

/-- In a run that succeeds, an event that is given a code which it is not for does not check it. -/
theorem isProper_of_run {events : List MethodEvent}
    (hlast : ∀ event ∈ events, ∀ n, event.stage = some n → n ≤ 3)
    (hok : ClassBuilder.feedMethod events b = .ok u b') :
    ∀ event ∈ events, event.isUnchecked b.setting.compute = false → event.isProper = true := by
  induction events generalizing b with
  | nil => exact fun _ hmem => nomatch hmem
  | cons event rest ih =>
    obtain ⟨_, mid, hfeed, hrest⟩ := Step.bind_ok.1 hok
    obtain ⟨hhead, htail⟩ := List.forall_mem_cons.1 hlast
    rw [List.forall_mem_cons]
    refine ⟨isProper_of_feed hfeed, ?_⟩
    rw [← setting_feed hhead hfeed]
    exact ih htail hrest

/-- Where dead code is replaced, what is left is a sequence of instructions again. -/
theorem Framing.decodes {body patched limited final : MethodBuilder} {entry : Label}
    {flow : FlowSetting} {table : Bytes} {frames : List (Nat × Layout NamedType)}
    {told : List (Nat × MethodEvent)} {R : Nat × MethodEvent → JvmClass.Instruction Nat → Prop}
    {is : List (Nat × JvmClass.Instruction Nat)}
    (h : Framing body patched limited final entry flow table frames)
    (hz : Analyzed body entry flow.graph)
    (hplaced : ∀ label p, body.graph.position? label = some p →
      (∃ event, (p, event) ∈ told) ∨ p = body.code.size)
    (hcoded : Coded 0 patched.code.toList is)
    (hall : List.Forall₂ (fun told i => i.1 = told.1 ∧ R told i.2) told is) :
    ∃ decoded, Instruction.decode limited.code = .ok decoded := by
  have hsize := h.size_eq
  -- No frame is asked for here, so that one may be said to stand everywhere.
  have hserved : Served (fun _ => True) body.code.size is :=
    ⟨fun _ _ _ _ _ => trivial, List.Pairwise.isChain (List.pairwise_of_forall fun _ _ _ => trivial)⟩
  obtain ⟨bytes, decoded, hdecoded, hlength, hspells, -⟩ := served_replaced
    (hz.tiled.ordered hz.resolved) h.framed.size
    (fun block start stop hspan hd hlt =>
      ⟨(h.framed.replaced block start stop (hsize ▸ hspan) hd hlt).1, trivial, fun _ => trivial⟩)
    (fun i _ hl => h.framed.kept i (by unfold DeadAt; rwa [hsize]))
    (fun block start stop hspan => ⟨Nat.zero_le _, hz.starts hplaced hall hspan⟩) hcoded
    (.of_toList rfl) (by rw [Array.length_toList, Nat.zero_add, hsize]) hserved
  have hcode : limited.code.size = bytes.length := by
    rw [h.framed.size, hsize, ← hlength, Nat.zero_add]
  exact ⟨_, hdecoded.decode (hspells.toList_eq hcode.symm)⟩

/-- Code that is written can be read. Whatever is computed, if events in order, whose codes are ones
that they are for where they are not checked, end the body without an error, then the finished code
decodes. -/
theorem decodes_if_proper {setting : MethodSetting} {pool : ConstantPool}
    {events : List MethodEvent} {stack locals : UInt16} {final : MethodBuilder}
    (horder : inOrder 0 (events ++ [.maxs stack locals]) = true)
    (hproper : ∀ event ∈ events, event.isUnchecked setting.compute = true → event.isProper = true)
    (hok : ClassBuilder.feedMethod (events ++ [.maxs stack locals]) (ofSetting setting pool) =
      .ok u final) :
    ∃ name maxStack maxLocals code table attributes decoded,
      final.body = some (name, .code maxStack maxLocals code table attributes) ∧
      Instruction.decode code = .ok decoded := by
  obtain ⟨-, -, hearly⟩ := inOrder_append_maxs horder
  obtain ⟨run, hrun, hlast⟩ := ClassBuilder.feedMethod_append.1 hok
  have hall : ∀ event ∈ events, event.isProper = true := fun event hmem =>
    (Bool.eq_false_or_eq_true (event.isUnchecked setting.compute)).elim (hproper event hmem)
      (isProper_of_run hearly hrun event hmem)
  cases hframes : setting.compute.frames with
  | true =>
    obtain ⟨body, patched, limited, entry, flow, table, frames, hbody, -, hm, hz, h⟩ :=
      framing_of_run hframes horder hok
    obtain ⟨is, hcoded, htold⟩ := coded_of_run (g := body.graph.resolve) hall hearly hbody h.filled
      h.fits (fun _ => rfl) (.refl body.pool)
    obtain ⟨decoded, hdecoded⟩ := h.decodes hz
      (fun label p hp => (hm.placed label p hp).resolve_left nofun) hcoded htold
    obtain ⟨name, maxStack, maxLocals, others, stackMap, hends, -⟩ := h.ends
    exact ⟨name, maxStack, maxLocals, _, table, _, decoded, hends, hdecoded⟩
  | false =>
    obtain ⟨_, done, hmaxs, hdone⟩ := Step.bind_ok.1 hlast
    obtain ⟨-, rfl⟩ := Step.pure_ok.1 hdone
    obtain ⟨patched, limited, entry, lim, table, hfinish⟩ := finishBody_ok hmaxs
    obtain ⟨_, happends, -⟩ := pieces_of_feedMethod hearly hrun
    obtain ⟨code, hpatched⟩ := hfinish.patched_eq
    have hsetting : patched.setting.compute.frames = false := by
      rw [hpatched, ← hframes]
      exact congrArg (·.compute.frames) happends.setting
    obtain ⟨graph, pool', hlimited, -, -⟩ := limits_ok hsetting hfinish.limits
    obtain ⟨is, hcoded, -⟩ := coded_of_run (g := run.graph.resolve) hall hearly hrun hfinish.patch
      hfinish.size (fun _ => rfl) (.refl run.pool)
    obtain ⟨name, others, hbody⟩ := hfinish.body
    exact ⟨name, _, _, _, table, _, _, hbody, hcoded.decode (by rw [hlimited])⟩

theorem decodes_if_proper_jumpsOver :
    inOrder 0 (jumpsOver ++ [.maxs 0 0]) = true ∧
    (∀ event ∈ jumpsOver, event.isUnchecked constructorOfC.compute = true →
      event.isProper = true) ∧
    ∃ final, ClassBuilder.feedMethod (jumpsOver ++ [.maxs 0 0])
      (ofSetting constructorOfC .empty) = .ok () final ∧
    ∃ name maxStack maxLocals code table attributes decoded,
      final.body = some (name, .code maxStack maxLocals code table attributes) ∧
      Instruction.decode code = .ok decoded := by
  have horder : inOrder 0 (jumpsOver ++ [.maxs 0 0]) = true := by decide
  have hproper : ∀ event ∈ jumpsOver, event.isUnchecked constructorOfC.compute = true →
      event.isProper = true := by decide
  obtain ⟨final, hok⟩ := jumpsOver_ends
  exact ⟨horder, hproper, final, hok, decodes_if_proper horder hproper hok⟩

/-- A type named with a code that no instruction has. -/
def namesTypeWrongly : List MethodEvent := [.code, .typeOperand 203 "C"]

/-- If nothing is computed, a code that no instruction has is written, and cannot be read. -/
theorem namesTypeWrongly_undecodable :
    inOrder 0 (namesTypeWrongly ++ [.maxs 0 0]) = true ∧
    ∃ final name maxStack maxLocals code table attributes,
      ClassBuilder.feedMethod (namesTypeWrongly ++ [.maxs 0 0]) (ofSetting uncomputed .empty) =
        .ok () final ∧
      final.body = some (name, .code maxStack maxLocals code table attributes) ∧
      Instruction.decode code = .error (.invalidOpcode 203 0) := by
  have hempty : ConstantPool.empty.nextIndex.toNat ≤ 1 := by decide
  obtain ⟨i1, p1, h1, r1⟩ := ConstantPool.intern_of_room (.utf8 "C") hempty (by omega)
  obtain ⟨i2, p2, h2, r2⟩ := ConstantPool.intern_of_room (.cls i1) r1 (by omega)
  obtain ⟨i3, p3, h3, r3⟩ := ConstantPool.intern_of_room (.utf8 "Code") r2 (by omega)
  have hclass : Text.ModifiedUtf8.encodedSize "C" < 65536 := by decide
  have hname : Text.ModifiedUtf8.encodedSize "Code" < 65536 := by decide
  have hr : (default : AccessFlags .ofMethod).hasReceiver = true := by decide
  have hwritten : ∃ final, ClassBuilder.feedMethod (namesTypeWrongly ++ [.maxs 0 0])
      (ofSetting uncomputed .empty) = .ok () final ∧
      ∃ table, final.body = some (i3, .code 0 0 (Bytes.putAll #[] (203 :: bytes16 i2)) table []) := by
    simp [namesTypeWrongly, ClassBuilder.feedMethod, feed, bind, EStateM.bind, Step.modify_run,
      beginCode, newLabel, onGraph, Step.on, LabelGraph.place, Step.get_run, pure, EStateM.pure,
      ofSetting, uncomputed, LabelGraph.addLabel, LabelGraph.data?, LabelGraph.lastBlockAt?,
      LabelGraph.update, LabelGraph.nextLabel, LabelGraph.empty, startInstruction, record, write,
      Compute.computesMaxs, typeOperand, ask, ConstantPool.cls, ConstantPool.utf8, h1, h2, h3,
      hclass, hname, hr, finishBody, LabelGraph.resolve, patch, limits, givenStackMap,
      stackMapTable, exceptionTable, Handlers.byteSize, Handlers.nonempty, Handlers.put,
      Handlers.putEntries, LabelGraph.lineNumberTable, LabelGraph.localVariableTable,
      Attribute.makeRaw, Attribute.make, AttributeBody.name, count16, Step.set_run, Except.bind,
      Except.pure, List.filterM, List.filterAuxM, Step.of, Bytes.putU8, Bytes.putU16, bytes16,
      Bytes.putAll, MethodDescriptor.parameterSlots]
  obtain ⟨final, hok, table, hbody⟩ := hwritten
  exact ⟨by decide, final, _, _, _, _, _, _, hok, hbody, rfl⟩

end MethodBuilder

end JvmClass
