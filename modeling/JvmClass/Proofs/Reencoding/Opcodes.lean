import JvmClass.Proofs.Assembly.Decodable
import JvmClass.Proofs.Code.Tiling
import JvmClass.Proofs.Image.Visits

/-!
# Codes of instructions that were read

An instruction that was read has a code that its kind is for, so that the events of a class file are
proper (`MethodEvent.isProper`): the code that is written for them reads back.
-/

namespace JvmClass

open Opcode

namespace Scan

variable {α β : Type} {read : Scan α} {k : α → Scan β} {good : β → Prop}

/-- What a read gives is good. -/
def Yields (read : Scan β) (good : β → Prop) : Prop :=
  ∀ ⦃c b c'⦄, read c = .ok b c' → good b

theorem yields_pure {b : β} (h : good b) : Yields (pure b) good := by
  intro c b' c' hrun
  obtain ⟨rfl, -⟩ := Step.pure_ok.1 hrun
  exact h

theorem yields_throw (e : ClassError) : Yields (throw e) good :=
  fun _ _ _ h => (Step.throw_ok.1 h).elim

theorem yields_bind (h : ∀ a, Yields (k a) good) : Yields (read >>= k) good := by
  intro c b c' hrun
  obtain ⟨a, mid, -, hk⟩ := Step.bind_ok.1 hrun
  exact h a hk

theorem yields_map {f : α → β} (h : ∀ a, good (f a)) : Yields (do return f (← read)) good :=
  yields_bind fun a => yields_pure (h a)

theorem yields_ite {d : Prop} [Decidable d] {read other : Scan β} (h : d → Yields read good)
    (h' : ¬ d → Yields other good) : Yields (if d then read else other) good := by
  split
  · exact h ‹_›
  · exact h' ‹_›

theorem yields_guard {d : Prop} [Decidable d] {e : ClassError} {k : PUnit → Scan β}
    (h : Yields (k ()) good) :
    Yields (if d then (throw e : Scan PUnit) >>= k else k PUnit.unit) good :=
  fun _ _ _ hrun => h (Step.guard_ok.1 hrun).2

end Scan

namespace Instruction

open Scan

/-- An instruction with a code that its kind is for. -/
def IsProper {P : Type} : Instruction P → Prop
  | plain op => isPlain op = true
  | typeOperand op _ => isTypeOperand op = true
  | field op _ => within getstatic op putfield = true
  | method op _ => within invokevirtual op invokeinterface = true
  | _ => True

theorem yields_readWide (o : Nat) : Yields (readWide o) IsProper :=
  yields_bind fun _ => yields_ite (fun _ => yields_bind fun _ => yields_map fun _ => trivial)
    fun _ => yields_ite (fun _ => yields_map fun _ => trivial) fun _ => yields_throw _

theorem yields_readTableSwitch (o : Nat) : Yields (readTableSwitch o) IsProper :=
  yields_bind fun _ => yields_bind fun _ => yields_bind fun _ => yields_bind fun _ =>
    yields_guard <| yields_bind fun _ => yields_map fun _ => trivial

theorem yields_readLookupSwitch (o : Nat) : Yields (readLookupSwitch o) IsProper :=
  yields_bind fun _ => yields_bind fun _ => yields_bind fun _ => yields_bind fun _ =>
    yields_map fun _ => trivial

theorem yields_readOperands (o : Nat) (op : UInt8) : Yields (readOperands o op) IsProper := by
  unfold readOperands
  refine yields_ite (fun h => yields_pure h) fun _ => ?_
  refine yields_ite (fun _ => yields_map fun _ => trivial) fun _ => ?_
  refine yields_ite (fun _ => yields_map fun _ => trivial) fun _ => ?_
  refine yields_ite (fun _ => yields_map fun _ => trivial) fun _ => ?_
  refine yields_ite (fun _ => yields_map fun _ => trivial) fun _ => ?_
  refine yields_ite (fun _ => yields_map fun _ => trivial) fun _ => ?_
  refine yields_ite (fun _ => yields_map fun _ => trivial) fun _ => ?_
  refine yields_ite (fun _ => yields_pure trivial) fun _ => ?_
  refine yields_ite (fun _ => yields_pure trivial) fun _ => ?_
  refine yields_ite (fun _ => yields_bind fun _ => yields_map fun _ => trivial) fun _ => ?_
  refine yields_ite (fun _ => yields_map fun _ => trivial) fun _ => ?_
  refine yields_ite (fun _ => yields_map fun _ => trivial) fun _ => ?_
  refine yields_ite (fun _ => yields_readTableSwitch o) fun _ => ?_
  refine yields_ite (fun _ => yields_readLookupSwitch o) fun _ => ?_
  refine yields_ite (fun h => yields_map fun _ => h) fun _ => ?_
  refine yields_ite (fun h => yields_map fun _ => ?_) fun _ => ?_
  · exact (forall_of_fin (p := fun op => within invokevirtual op invokestatic = true →
      within invokevirtual op invokeinterface = true) (by decide +kernel)) op h
  refine yields_ite (fun h => yields_bind fun _ => yields_map fun _ => ?_) fun _ => ?_
  · subst h
    show within invokevirtual invokeinterface invokeinterface = true
    decide
  refine yields_ite (fun _ => yields_bind fun _ => yields_map fun _ => trivial) fun _ => ?_
  refine yields_ite (fun h => yields_map fun _ => ?_) fun _ => ?_
  · simpa [IsProper, isTypeOperand] using h
  refine yields_ite (fun _ => yields_readWide o) fun _ => ?_
  exact yields_ite (fun _ => yields_bind fun _ => yields_map fun _ => trivial)
    fun _ => yields_throw _

/-- The instructions of a code array are proper. -/
theorem isProper_decode {code : Bytes} {is : Array (Nat × Instruction Nat)}
    (h : decode code = .ok is) : ∀ x ∈ is.toList, x.2.IsProper := by
  have htiles := tiles_of_decode h
  intro x hx
  generalize 0 = start at htiles
  generalize is.toList = all at htiles hx
  induction htiles with
  | nil => cases hx
  | cons piece _ ih =>
    rcases List.mem_cons.1 hx with rfl | hx
    · obtain ⟨_, _, -, hrest⟩ := Step.bind_ok.1 piece.reads
      obtain ⟨op, _, -, hrest⟩ := Step.bind_ok.1 hrest
      obtain ⟨i, _, hi, hrest⟩ := Step.bind_ok.1 hrest
      obtain ⟨rfl, -⟩ := Step.pure_ok.1 hrest
      exact yields_readOperands _ op hi
    · exact ih hx

/-- Names do not matter to the code of an instruction. -/
theorem isProper_mapM {σ P Q : Type} {f : P → Step σ Q} {i : Instruction P} {j : Instruction Q}
    {s s' : σ} (h : i.mapM f s = .ok j s') (hi : i.IsProper) : j.IsProper := by
  cases i with
  | jump op target =>
    obtain ⟨_, _, -, h⟩ := Step.bind_ok.1 h
    obtain ⟨rfl, -⟩ := Step.pure_ok.1 h
    trivial
  | tableSwitch | lookupSwitch =>
    obtain ⟨_, _, -, h⟩ := Step.bind_ok.1 h
    obtain ⟨_, _, -, h⟩ := Step.bind_ok.1 h
    obtain ⟨rfl, -⟩ := Step.pure_ok.1 h
    trivial
  | _ =>
    obtain ⟨rfl, -⟩ := Step.pure_ok.1 h
    exact hi

end Instruction

namespace ClassImage

variable {image : ClassImage}

/-- The event of a proper instruction is proper if a body has taken it up. -/
theorem isProper_event {i : Instruction Label} {event : MethodEvent} {b b' : MethodBuilder}
    {u : Unit} (hi : i.IsProper) (htells : image.instructionEvent i = .ok event)
    (hrun : MethodBuilder.feed event b = .ok u b') : event.isProper = true := by
  cases i with
  | plain op =>
    cases htells
    show Instruction.standsAlone op = true
    unfold Instruction.standsAlone
    rw [show Instruction.isPlain op = true from hi]
    rfl
  | intOperand op operand =>
    cases htells
    exact MethodBuilder.isProper_of_intOperand hrun
  | access op slot =>
    cases htells
    exact MethodBuilder.isProper_of_access hrun
  | typeOperand op cls =>
    obtain ⟨name, -, h⟩ := Step.except_bind_ok.1 htells
    cases h
    exact hi
  | field op member =>
    obtain ⟨m, -, h⟩ := Step.except_bind_ok.1 htells
    cases h
    exact hi
  | method op member =>
    obtain ⟨m, -, h⟩ := Step.except_bind_ok.1 htells
    cases h
    exact hi
  | invokeDynamic site =>
    obtain ⟨constant, -, h⟩ := Step.except_bind_ok.1 htells
    split at h
    · obtain ⟨_, -, h⟩ := Step.except_bind_ok.1 h
      obtain ⟨_, -, h⟩ := Step.except_bind_ok.1 h
      cases h
      rfl
    · cases h
  | jump op target =>
    cases htells
    exact MethodBuilder.isProper_of_jump hrun
  | load constant =>
    obtain ⟨_, -, h⟩ := Step.except_bind_ok.1 htells
    cases h
    rfl
  | newMultiArray cls dimensions =>
    obtain ⟨_, -, h⟩ := Step.except_bind_ok.1 htells
    cases h
    rfl
  | increment | tableSwitch | lookupSwitch =>
    cases htells
    rfl

end ClassImage

end JvmClass
