import JvmClass.Proofs.Assembly.Decoding
import JvmClass.Proofs.Descriptor
import JvmClass.Proofs.Upholding

/-!
# Counts of calls through interfaces

A call through an interface states in one byte how many slots its receiver and its arguments take.
Nothing keeps this number below 256: neither is a descriptor refused for its parameters, nor is the
call. The byte holds the number modulo 256 (`MethodBuilder.interface_call_counts`).
-/

namespace JvmClass

/-- Types of values that take two slots. -/
def FieldType.isWide : FieldType → Bool
  | .base .long | .base .double => true
  | _ => false

/-- The slots that a call through an interface takes: one for the receiver, one for each argument,
and one more for each `long` and `double`. -/
def MethodDescriptor.callSlots (d : MethodDescriptor) : Nat :=
  1 + d.parameters.length + d.parameters.countP FieldType.isWide

theorem MethodDescriptor.parameterSlots_true (d : MethodDescriptor) :
    d.parameterSlots true = d.callSlots := by
  have hwidth (t : FieldType) : t.width = 1 + if t.isWide then 1 else 0 := by
    cases t with
    | base type => cases type <;> rfl
    | ref type => rfl
  have htotal : total FieldType.width d.parameters =
      d.parameters.length + d.parameters.countP FieldType.isWide := by
    induction d.parameters with
    | nil => rfl
    | cons t rest ih =>
      rw [total_cons, ih, List.length_cons, List.countP_cons, hwidth]
      omega
  rw [parameterSlots, callSlots, htotal, if_pos rfl]
  omega

namespace MethodBuilder

open Opcode (invokeinterface)

variable {b : MethodBuilder}

section Starting

/-- Where no block is open, one is opened. -/
theorem splitBlock_opens (h : b.current = none) :
    ∃ opened, splitBlock b = .ok () opened ∧ opened.pool = b.pool ∧ opened.code = b.code := by
  have hplaced : ∃ starts g, LabelGraph.place b.graph.nextLabel b.code.size b.graph.addLabel =
      .ok starts g := by
    have hdata : b.graph.addLabel.data? b.graph.nextLabel = some {} := by
      simp [LabelGraph.data?, LabelGraph.addLabel, LabelGraph.nextLabel]
    simp only [LabelGraph.place, hdata, Option.isSome_none, Bool.false_eq_true, if_false]
    split
    · exact ⟨_, _, rfl⟩
    · exact ⟨_, _, rfl⟩
  obtain ⟨starts, g, hplaced⟩ := hplaced
  cases starts with
  | true | false =>
    simp [splitBlock, newLabel, placeLabel, onGraph, Step.on, bind, EStateM.bind, Step.get_run,
      Step.modify_run, pure, EStateM.pure, hplaced, h]

/-- An instruction can be started once the body has begun. -/
theorem startInstruction_begun (h : b.entry.isSome) :
    ∃ started, startInstruction b = .ok b.code.size started ∧ started.pool = b.pool ∧
      started.code = b.code := by
  have hbegun : b.entry.isNone = false := by simpa using h
  cases hcurrent : b.current with
  | some block =>
    refine ⟨b, ?_, rfl, rfl⟩
    simp [startInstruction, bind, EStateM.bind, Step.get_run, pure, EStateM.pure, hbegun, hcurrent]
  | none =>
    obtain ⟨opened, hsplit, hpool, hcode⟩ := splitBlock_opens hcurrent
    refine ⟨opened, ?_, hpool, hcode⟩
    simp [startInstruction, bind, EStateM.bind, Step.get_run, pure, EStateM.pure, hbegun, hcurrent,
      hsplit, hcode]

/-- An effect that is known is recorded. -/
theorem record_known (b : MethodBuilder) (offset : Nat) (e : Effect) :
    ∃ blocks, record offset (.ok e) b = .ok () { b with blocks } := by
  cases hcompute : b.setting.compute.computesMaxs with
  | false =>
    refine ⟨b.blocks, Step.bind_ok.2 ⟨b, b, rfl, ?_⟩⟩
    rw [hcompute]
    rfl
  | true =>
    rcases b.current.eq_none_or_eq_some with hcurrent | ⟨block, hcurrent⟩
    · suffices hsame : record offset (.ok e) b = .ok () b from ⟨b.blocks, hsame⟩
      refine Step.bind_ok.2 ⟨b, b, rfl, ?_⟩
      rw [if_pos hcompute]
      refine Step.bind_ok.2 ⟨e, b, rfl, Step.bind_ok.2 ⟨b, b, rfl, ?_⟩⟩
      rw [hcurrent]
      rfl
    · let added : MethodBuilder → MethodBuilder := fun b' => { b' with
        blocks := b'.blocks.alter block fun summary =>
          some ((summary.getD {}).add b.setting.compute.frames offset e) }
      suffices hadded : record offset (.ok e) b = .ok () (added b) from ⟨_, hadded⟩
      refine Step.bind_ok.2 ⟨b, b, rfl, ?_⟩
      rw [if_pos hcompute]
      refine Step.bind_ok.2 ⟨e, b, rfl, Step.bind_ok.2 ⟨b, b, rfl, ?_⟩⟩
      rw [hcurrent]
      exact Step.modify_run added b

end Starting

/-- **The count of a call through an interface.** Such a call is refused only where no body has
begun, the pool refuses the method or its descriptor does not parse. Otherwise it is written with a
count that is the number of slots modulo 256: the number itself exactly if that is below 256. -/
theorem interface_call_counts (b : MethodBuilder) (owner name descriptor : String)
    (ownerIsInterface : Bool) :
    (∃ e b', method invokeinterface owner name descriptor ownerIsInterface b = .error e b' ∧
      (b.entry = none ∨
        (∃ pool, ConstantPool.methodRef owner name descriptor ownerIsInterface b.pool =
          .error e pool) ∨
        parseDescriptor MethodDescriptor descriptor = .error e)) ∨
    ∃ d member count b',
      method invokeinterface owner name descriptor ownerIsInterface b = .ok () b' ∧
      parseDescriptor MethodDescriptor descriptor = .ok d ∧
      ConstantPool.methodRef owner name descriptor ownerIsInterface b.pool = .ok member b'.pool ∧
      b'.code = b.code.putAll (invokeinterface :: (bytes16 member ++ [count, 0])) ∧
      count.toNat = d.callSlots % 256 ∧ (count.toNat = d.callSlots ↔ d.callSlots < 256) := by
  rcases b.entry.eq_none_or_eq_some with hentry | ⟨entry, hentry⟩
  · refine Or.inl ⟨.codeNotStarted, b, Step.bind_error.2 (Or.inl ?_), Or.inl hentry⟩
    refine Step.bind_error.2 (Or.inr ⟨b, b, rfl, ?_⟩)
    rw [hentry]
    rfl
  obtain ⟨started, hstart, hpool, hcode⟩ := startInstruction_begun (b := b) (by simp [hentry])
  cases hmember : ConstantPool.methodRef owner name descriptor ownerIsInterface b.pool with
  | error e pool =>
    refine Or.inl ⟨e, { started with pool }, ?_, Or.inr (Or.inl ⟨pool, rfl⟩)⟩
    refine Step.bind_error.2 (Or.inr ⟨_, _, hstart, Step.bind_error.2 (Or.inl ?_)⟩)
    simp only [ask, Step.on, hpool, hmember]
  | ok member pool =>
    have hask : ask (ConstantPool.methodRef owner name descriptor ownerIsInterface) started =
        .ok member { started with pool } := by
      simp only [ask, Step.on, hpool, hmember]
    cases hparse : parseDescriptor MethodDescriptor descriptor with
    | error e =>
      refine Or.inl ⟨e, { started with pool }, ?_, Or.inr (Or.inr rfl)⟩
      refine Step.bind_error.2 (Or.inr ⟨_, _, hstart, Step.bind_error.2 (Or.inr ⟨_, _, hask, ?_⟩)⟩)
      exact Step.bind_error.2 (Or.inl (by rw [hparse]; rfl))
    | ok d =>
      let count := UInt8.ofNat (d.parameterSlots true)
      let code := (b.code.putAll (invokeinterface :: bytes16 member)).putAll [count, 0]
      obtain ⟨blocks, hrecord⟩ := record_known { started with pool, code } b.code.size
        (.invoke invokeinterface (isConstructorName name) d)
      refine Or.inr ⟨d, member, count, { started with pool, code, blocks }, ?_, rfl, rfl, ?_, ?_⟩
      · refine Step.bind_ok.2 ⟨_, _, hstart, Step.bind_ok.2 ⟨_, _, hask, ?_⟩⟩
        refine Step.bind_ok.2 ⟨d, _, by rw [hparse]; rfl, Step.bind_ok.2 ⟨_, _, rfl, ?_⟩⟩
        rw [if_pos rfl]
        refine Step.bind_ok.2 ⟨_, _, rfl, ?_⟩
        simp only [hcode]
        exact hrecord
      · exact (Bytes.putAll_append _ _ _).symm
      · have hcount : count.toNat = d.callSlots % 256 := by
          rw [← d.parameterSlots_true]
          exact UInt8.toNat_ofNat'
        refine ⟨hcount, ?_⟩
        rw [hcount]
        omega

section Crowded

/-- A body of one call through an interface. -/
def callOnly (descriptor : String) : List MethodEvent :=
  [.code, .method invokeinterface "I" "m" descriptor true]

/-- The call is written with the low byte of the number of its slots. -/
theorem callOnly_written {descriptor : String} {d : MethodDescriptor}
    (hparse : parseDescriptor MethodDescriptor descriptor = .ok d)
    (hsize : Text.ModifiedUtf8.encodedSize descriptor < 65536) :
    ∃ final member,
      ClassBuilder.feedMethod (callOnly descriptor) (ofSetting uncomputed .empty) = .ok () final ∧
      final.code = Bytes.putAll #[]
        (invokeinterface :: (bytes16 member ++ [UInt8.ofNat (d.parameterSlots true), 0])) := by
  have hempty : ConstantPool.empty.nextIndex.toNat ≤ 1 := by decide
  obtain ⟨i1, p1, h1, r1⟩ := ConstantPool.intern_of_room (.utf8 "I") hempty (by omega)
  obtain ⟨i2, p2, h2, r2⟩ := ConstantPool.intern_of_room (.cls i1) r1 (by omega)
  obtain ⟨i3, p3, h3, r3⟩ := ConstantPool.intern_of_room (.utf8 "m") r2 (by omega)
  obtain ⟨i4, p4, h4, r4⟩ := ConstantPool.intern_of_room (.utf8 descriptor) r3 (by omega)
  obtain ⟨i5, p5, h5, r5⟩ := ConstantPool.intern_of_room (.nameAndType i3 i4) r4 (by omega)
  obtain ⟨i6, p6, h6, -⟩ := ConstantPool.intern_of_room (.methodRef i2 i5 true) r5 (by omega)
  have howner : Text.ModifiedUtf8.encodedSize "I" < 65536 := by decide
  have hname : Text.ModifiedUtf8.encodedSize "m" < 65536 := by decide
  have hwritten : ∃ final,
      ClassBuilder.feedMethod (callOnly descriptor) (ofSetting uncomputed .empty) = .ok () final ∧
      final.code = Bytes.putAll #[]
        (invokeinterface :: (bytes16 i6 ++ [UInt8.ofNat (d.parameterSlots true), 0])) := by
    simp [callOnly, ClassBuilder.feedMethod, feed, bind, EStateM.bind, Step.modify_run,
      beginCode, newLabel, onGraph, Step.on, LabelGraph.place, Step.get_run, pure, EStateM.pure,
      ofSetting, uncomputed, LabelGraph.addLabel, LabelGraph.data?, LabelGraph.lastBlockAt?,
      LabelGraph.update, LabelGraph.nextLabel, LabelGraph.empty, startInstruction, record, write,
      Compute.computesMaxs, method, ask, ConstantPool.methodRef, ConstantPool.cls,
      ConstantPool.nameAndType, ConstantPool.utf8, h1, h2, h3, h4, h5, h6, howner, hname,
      hsize, hparse, Step.of, Bytes.putU8, Bytes.putU16, bytes16, Bytes.putAll]
  obtain ⟨final, hwritten⟩ := hwritten
  exact ⟨final, i6, hwritten⟩

/-- A descriptor of 255 `int` parameters. -/
def crowded : MethodDescriptor := ⟨List.replicate 255 (.base .int), none⟩

/-- A call with these arguments takes 256 slots, and is written with a count of zero. -/
theorem crowded_miscounted : crowded.callSlots = 256 ∧
    ∃ final member,
      ClassBuilder.feedMethod (callOnly (render crowded)) (ofSetting uncomputed .empty) =
        .ok () final ∧
      final.code = Bytes.putAll #[] (invokeinterface :: (bytes16 member ++ [0, 0])) := by
  have hslots : crowded.callSlots = 256 := by decide +kernel
  have hparse : parseDescriptor MethodDescriptor (render crowded) = .ok crowded := by
    refine (MethodDescriptor.takes.parseDescriptor _ _).2 ⟨rfl, fun type htype => ?_, nofun⟩
    rw [List.eq_of_mem_replicate htype]
    exact trivial
  have hsize : Text.ModifiedUtf8.encodedSize (render crowded) < 65536 := by
    rw [Text.ModifiedUtf8.encodedSize, render, String.toList_ofList]
    decide +kernel
  obtain ⟨final, member, hwritten, hcode⟩ := callOnly_written hparse hsize
  rw [crowded.parameterSlots_true, hslots] at hcode
  exact ⟨hslots, final, member, hwritten, hcode⟩

end Crowded

end MethodBuilder

end JvmClass
