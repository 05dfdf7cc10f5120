import JvmClass.Proofs.Code.Reading
import Mathlib.Data.List.Chain

/-!
# Sequences of instructions

Bytes that are instructions one after another (`Instruction.Coded`) decode to these instructions,
and can be taken apart and put together where an instruction starts. An instruction that always
passes control on, and one that names a place, ask for a frame elsewhere; a sequence in which all of
these frames stand is `Instruction.Served`.
-/

namespace JvmClass

open Scan (ReadsAt)

namespace Instruction

/-- Bytes at an offset that are instructions, one after another. -/
inductive Coded : Nat → List UInt8 → List (Nat × Instruction Nat) → Prop
  | nil (o : Nat) : Coded o [] []
  | cons {o : Nat} {bytes rest : List UInt8} {i : Instruction Nat}
    {others : List (Nat × Instruction Nat)} (nonempty : bytes ≠ [])
    (reads : ReadsAt o read bytes (o, i)) (h : Coded (o + bytes.length) rest others) :
    Coded o (bytes ++ rest) ((o, i) :: others)

variable {o : Nat} {bytes : List UInt8} {is : List (Nat × Instruction Nat)}

/-- Reading from the first of the instructions on finds all of them. -/
theorem Coded.readAll (h : Coded o bytes is) {data : Bytes} (hs : Spells data o bytes)
    (hend : o + bytes.length = data.size) (done : Array (Nat × Instruction Nat)) {budget : Nat}
    (hbudget : bytes.length ≤ budget) :
    readAll done budget ⟨data, o⟩ = .ok (done ++ is.toArray) ⟨data, data.size⟩ := by
  induction h generalizing done budget with
  | nil o =>
    obtain rfl : o = data.size := hend
    cases budget with
    | zero => simp [Instruction.readAll, pure, EStateM.pure]
    | succ budget =>
      refine Step.bind_ok.2 ⟨_, _, Step.get_ok.2 ⟨rfl, rfl⟩, ?_⟩
      simp [pure, EStateM.pure]
  | @cons o bytes rest i others nonempty reads h ih =>
    have hpos := List.length_pos_iff.2 nonempty
    rw [List.length_append] at hend hbudget
    cases budget with
    | zero => omega
    | succ budget =>
      refine Step.bind_ok.2 ⟨_, _, Step.get_ok.2 ⟨rfl, rfl⟩, ?_⟩
      rw [if_pos (by show o < data.size; omega)]
      refine Step.bind_ok.2 ⟨(o, i), _, reads data hs.left, ?_⟩
      rw [ih hs.right (by omega) (done.push (o, i)) (by omega)]
      simp

theorem Coded.decode (h : Coded 0 bytes is) {code : Bytes} (hcode : code.toList = bytes) :
    Instruction.decode code = .ok is.toArray := by
  have hsize : 0 + bytes.length = code.size := by rw [← hcode]; simp
  unfold Instruction.decode Scan.runAt
  rw [h.readAll (.of_toList hcode) hsize #[] (by omega), Array.empty_append]

/-- A sequence that starts where another one ends. -/
theorem Coded.append {more : List UInt8} {others : List (Nat × Instruction Nat)}
    (h : Coded o bytes is) (h' : Coded (o + bytes.length) more others) :
    Coded o (bytes ++ more) (is ++ others) := by
  induction h with
  | nil o => exact h'
  | cons nonempty reads _ ih =>
    rw [List.append_assoc, List.cons_append]
    refine .cons nonempty reads (ih ?_)
    rwa [List.length_append, ← Nat.add_assoc] at h'

/-- An instruction of a sequence starts at an offset, or the code stops there. -/
def Starts (is : List (Nat × Instruction Nat)) (stop p : Nat) : Prop :=
  (∃ i, (p, i) ∈ is) ∨ p = stop

/-- Where an instruction starts, a sequence can be taken apart. -/
theorem Coded.split (h : Coded o bytes is) {p : Nat} (hp : Starts is (o + bytes.length) p) :
    ∃ front back is₁ is₂, bytes = front ++ back ∧ is = is₁ ++ is₂ ∧ p = o + front.length ∧
      Coded o front is₁ ∧ Coded p back is₂ := by
  induction h with
  | nil o =>
    rcases hp with ⟨i, hi⟩ | rfl
    · cases hi
    · exact ⟨[], [], [], [], rfl, rfl, rfl, .nil _, .nil _⟩
  | @cons o bytes rest i others nonempty reads h ih =>
    by_cases hpo : p = o
    · subst hpo
      exact ⟨[], bytes ++ rest, [], (p, i) :: others, rfl, rfl, rfl, .nil p,
        .cons nonempty reads h⟩
    · have hlater : Starts others (o + bytes.length + rest.length) p := by
        rcases hp with ⟨j, hj⟩ | rfl
        · rcases List.mem_cons.1 hj with he | hj
          · cases he
            exact absurd rfl hpo
          · exact Or.inl ⟨j, hj⟩
        · right
          rw [List.length_append, Nat.add_assoc]
      obtain ⟨front, back, is₁, is₂, rfl, rfl, hp', h₁, h₂⟩ := ih hlater
      refine ⟨bytes ++ front, back, (o, i) :: is₁, is₂, (List.append_assoc ..).symm, rfl, ?_,
        .cons nonempty reads h₁, h₂⟩
      rw [hp', List.length_append, Nat.add_assoc]

/-- Every instruction of a sequence starts in its bytes. -/
theorem Coded.bounds (h : Coded o bytes is) {x : Nat × Instruction Nat} (hx : x ∈ is) :
    o ≤ x.1 ∧ x.1 < o + bytes.length := by
  induction h with
  | nil o => cases hx
  | @cons o bytes rest i others nonempty reads h ih =>
    have hpos := List.length_pos_iff.2 nonempty
    rw [List.length_append]
    rcases List.mem_cons.1 hx with rfl | hx
    · exact ⟨Nat.le_refl _, by dsimp only; omega⟩
    · have := ih hx
      omega

/-- What starts after the first part of a sequence starts in the rest. -/
theorem Coded.starts_right (h : Coded o bytes is) {others : List (Nat × Instruction Nat)}
    {stop p : Nat} (hle : o + bytes.length ≤ p) (hp : Starts (is ++ others) stop p) :
    Starts others stop p := by
  refine hp.imp_left fun ⟨i, hi⟩ => ⟨i, (List.mem_append.1 hi).resolve_left fun hi => ?_⟩
  exact absurd (h.bounds hi).2 (Nat.not_lt.2 hle)

theorem Coded.head (h : Coded o bytes is) {x : Nat × Instruction Nat} (hx : x ∈ is.head?) :
    x.1 = o := by
  cases h with
  | nil => cases hx
  | cons =>
    cases hx
    rfl

theorem coded_nops (o n : Nat) : ∃ is, Coded o (List.replicate n Opcode.nop) is ∧
    ∀ x ∈ is, x.2 = .plain Opcode.nop := by
  induction n generalizing o with
  | zero => exact ⟨[], .nil o, fun x hx => nomatch hx⟩
  | succ n ih =>
    obtain ⟨is, hcoded, hnops⟩ := ih (o + 1)
    refine ⟨(o, .plain Opcode.nop) :: is,
      .cons (List.cons_ne_nil _ _) (reads_standsAlone (by decide)) hcoded, fun x hx => ?_⟩
    rcases List.mem_cons.1 hx with rfl | hx
    · rfl
    · exact hnops x hx

/-- Whether an instruction always passes control on: a `goto`, a switch, a return or a throw. -/
def transfers {P : Type} : Instruction P → Bool
  | .jump op _ => Opcode.isGoto op
  | .tableSwitch .. | .lookupSwitch .. => true
  | .plain op => Opcode.leavesMethod op
  | _ => false

/-- Frames stand at the places that instructions of a sequence name, if these lie in the code, and
after each instruction that always passes control on. -/
structure Served (framed : Nat → Prop) (size : Nat) (is : List (Nat × Instruction Nat)) :
    Prop where
  places : ∀ x ∈ is, ∀ p ∈ x.2.places, p < size → framed p
  follows : is.IsChain fun x y => x.2.transfers = true → framed y.1

namespace Served

variable {framed : Nat → Prop} {size : Nat} {others : List (Nat × Instruction Nat)}

theorem append (h : Served framed size is) (h' : Served framed size others)
    (hnext : ∀ x ∈ is, ∀ y ∈ others.head?, x.2.transfers = true → framed y.1) :
    Served framed size (is ++ others) where
  places x hx := (List.mem_append.1 hx).elim (h.places x) (h'.places x)
  follows := List.isChain_append.2
    ⟨h.follows, h'.follows, fun x hx => hnext x (List.mem_of_mem_getLast? hx)⟩

theorem left (h : Served framed size (is ++ others)) : Served framed size is :=
  ⟨fun x hx => h.places x (List.mem_append_left _ hx), h.follows.left_of_append⟩

theorem right (h : Served framed size (is ++ others)) : Served framed size others :=
  ⟨fun x hx => h.places x (List.mem_append_right _ hx), h.follows.right_of_append⟩

/-- Instructions that do nothing ask for no frame. -/
theorem of_nops (h : ∀ x ∈ is, x.2 = .plain Opcode.nop) : Served framed size is where
  places x hx p hp := by
    rw [h x hx] at hp
    cases hp
  follows := by
    induction is with
    | nil => exact .nil
    | cons x rest ih =>
      refine List.isChain_cons.2 ⟨fun y _ ht => ?_, ih fun y hy => h y (List.mem_cons_of_mem _ hy)⟩
      rw [h x List.mem_cons_self] at ht
      cases ht

end Served

end Instruction

end JvmClass
