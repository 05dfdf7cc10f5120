import JvmClass.Proofs.Assembly.Decoding
import JvmClass.Proofs.Reencoding.Opcodes
import JvmClass.Proofs.Reencoding.Rows

/-!
# What rows leave behind

Rows that a body has taken up stand in its code as the instructions of their events, a jump in the
form that was chosen for it (`ClassImage.Row.ReadsAs`), and their lines and frames are the lines and
frames of the body.
-/

namespace JvmClass

open ClassBuilder (feedMethod feedMethod_append)

namespace MethodBuilder

variable {b b' : MethodBuilder} {u : Unit}

/-- The pieces of a jump. -/
theorem appends_jump {op : UInt8} {target : Label} (h : jump op target b = .ok u b') :
    Appends [.bytes [b.jumpForm op b.code.size target],
      .distance b.code.size target (b.jumpForm op b.code.size target == Opcode.goto_w ||
        b.jumpForm op b.code.size target == Opcode.jsr_w)] b b' := by
  obtain ⟨offset, started, hstart, -, -, h⟩ := jump_iff.1 h
  rw [jumpForm_startInstruction hstart] at h
  obtain ⟨rfl, hstarted⟩ := appends_startInstruction hstart
  simp only [jumpAs, Step.bind_ok] at h
  obtain ⟨_, _, h2, _, fixed, h3, _, recorded, h4, _, jumped, h5, h6⟩ := h
  obtain rfl := write_ok h2
  obtain ⟨graph, hl, rfl⟩ := jumpTo_eq h5
  have hjump : Appends [] recorded { recorded with graph } := .of_eq rfl rfl rfl rfl hl.position?
  have hend : Appends [] { recorded with graph } b' := by
    split at h6
    · exact appends_endBlock h6
    · exact appends_splitBlock h6
  exact hstarted.trans ((((appends_bytes started [_]).trans (appends_putFixup h3)).andThen
    (appends_record h4)).andThen (hjump.andThen hend))

end MethodBuilder

namespace ClassImage

open MethodBuilder

variable {g : LabelGraph} {image : ClassImage} {named : NamedBody} {b b' : MethodBuilder} {u : Unit}
  {pool pool' : ConstantPool}

/-- The form in which a row's jump was written. -/
def Row.form (row : Row) (op : UInt8) (target : Label) : UInt8 :=
  row.before.jumpForm op row.offset target

/-- An instruction that a row reads back as: the one that its event tells, a jump in the form in
which it was written. -/
structure Row.ReadsAs (row : Row) (g : LabelGraph) (pool : ConstantPool) (i : Instruction Nat) :
    Prop where
  tells : row.event.Tells g pool i
  plain : ∀ op, row.event = .plain op → i = .plain op
  jump : ∀ op target, row.event = .jump op target → ∃ place, g.offset target = .ok place ∧
    i = .jump (row.form op target) place ∧
    (row.form op target = Opcode.goto ∨ row.form op target = Opcode.jsr →
      row.offset ≤ place + 0x8000)

/-- The pieces of a row are the code of its instruction. -/
def Row.Coded (row : Row) (pool : ConstantPool) (pieces : List Piece) : Prop :=
  ∀ g filled, Piece.Filled g pieces filled → row.offset + filled.length < 65536 →
    (∀ label place, g.offset label = .ok place → place < 65536) → ∀ pool', pool.Grows pool' →
    filled ≠ [] ∧ ∃ i, Scan.ReadsAt row.offset JvmClass.Instruction.read filled (row.offset, i) ∧
      row.ReadsAs g pool' i

/-- The form of a jump is read back exactly: its code comes first. -/
theorem reads_jump {o : Nat} {form : UInt8} {target : Label} {filled : List UInt8}
    (hfilled : Piece.Filled g [.bytes [form],
      .distance o target (form == Opcode.goto_w || form == Opcode.jsr_w)] filled)
    (hproper : (MethodEvent.jump form target).isProper = true)
    (hsize : o + filled.length < 65536)
    (hg : ∀ label place, g.offset label = .ok place → place < 65536) :
    filled ≠ [] ∧ ∃ place, g.offset target = .ok place ∧
      Scan.ReadsAt o JvmClass.Instruction.read filled (o, .jump form place) ∧
      (form = Opcode.goto ∨ form = Opcode.jsr → o ≤ place + 0x8000) := by
  cases hwide : form == Opcode.goto_w || form == Opcode.jsr_w with
  | true =>
    rw [hwide] at hfilled
    have hw : form = Opcode.goto_w ∨ form = Opcode.jsr_w := by simpa using hwide
    cases hfilled with
    | bytes hfilled =>
      cases hfilled with
      | @wide _ place _ _ _ offset hfilled =>
        cases hfilled
        refine ⟨List.cons_ne_nil _ _, place, offset,
          Instruction.reads_wideJump hw (by omega) (hg target place offset), fun hs => ?_⟩
        rcases hw with rfl | rfl <;> rcases hs with hs | hs <;> exact absurd hs (by decide)
  | false =>
    rw [hwide] at hfilled
    simp only [Bool.or_eq_false_iff, beq_eq_false_iff_ne, ne_eq] at hwide
    cases hfilled with
    | bytes hfilled =>
      cases hfilled with
      | @short _ place _ _ _ offset near hfilled =>
        cases hfilled
        have hshort : Instruction.isShortJump form = true := by
          simpa [MethodEvent.isProper, hwide.1, hwide.2] using hproper
        refine ⟨List.cons_ne_nil _ _, place, offset,
          Instruction.reads_shortJump hshort near (hg target place offset), fun _ => ?_⟩
        have := near.1
        omega

theorem isProper_jumpForm {op : UInt8} {target : Label}
    (h : (MethodEvent.jump op target).isProper = true) (b : MethodBuilder) (offset : Nat)
    (target' : Label) :
    (MethodEvent.jump (b.jumpForm op offset target) target').isProper = true := by
  rcases jumpForm_cases b op offset target with he | ⟨-, he⟩ | ⟨-, he⟩
  · rw [he]
    exact h
  · rw [he]
    rfl
  · rw [he]
    rfl

theorem plainForm_of_isPlain {op : UInt8} (h : Instruction.isPlain op = true) :
    (Instruction.plainForm op : Instruction Nat) = .plain op := by
  have hgroups := (Opcode.forall_of_fin (p := fun op => Instruction.isPlain op = true →
    Opcode.within Opcode.iload_0 op Opcode.aload_3 = false ∧
      Opcode.within Opcode.istore_0 op Opcode.astore_3 = false) (by decide +kernel)) op h
  rw [Instruction.plainForm, hgroups.1, hgroups.2]
  rfl

/-- The event of an instruction without operands has the code of one. -/
theorem isPlain_event {i : Instruction Label} {event : MethodEvent} (h : i.IsProper)
    (htells : image.instructionEvent i = .ok event) :
    ∀ op, event = .plain op → Instruction.isPlain op = true := by
  rintro op rfl
  cases i with
  | plain op' =>
    cases htells
    exact h
  | invokeDynamic site =>
    obtain ⟨constant, -, htells⟩ := Step.except_bind_ok.1 htells
    split at htells
    · obtain ⟨_, -, htells⟩ := Step.except_bind_ok.1 htells
      obtain ⟨_, -, htells⟩ := Step.except_bind_ok.1 htells
      cases htells
    · cases htells
  | typeOperand _ _ | field _ _ | method _ _ | load _ | newMultiArray _ _ =>
    obtain ⟨_, -, htells⟩ := Step.except_bind_ok.1 htells
    cases htells
  | _ => cases htells

theorem Row.coded (row : Row) (hinstruction : isInstruction row.event = true)
    (hproper : row.event.isProper = true)
    (hplain : ∀ op, row.event = .plain op → Instruction.isPlain op = true) (hrun :
    feed row.event row.before = .ok u b') :
    ∃ pieces, Appends pieces row.before b' ∧ row.Coded b'.pool pieces := by
  obtain ⟨place, event, before⟩ := row
  by_cases hjump : ∃ op target, event = .jump op target
  · obtain ⟨op, target, rfl⟩ := hjump
    refine ⟨_, appends_jump hrun, fun g filled hfilled hsize hg pool' hpool => ?_⟩
    obtain ⟨hne, p, hp, hread, hnear⟩ :=
      reads_jump hfilled (isProper_jumpForm hproper before _ target) hsize hg
    refine ⟨hne, _, hread, ⟨p, _, hp, rfl, jumpForm_cases ..⟩, (nofun), ?_⟩
    rintro _ _ ⟨⟩
    exact ⟨p, hp, rfl, hnear⟩
  · obtain ⟨pieces, happends, hcodes⟩ := writes_feed hinstruction hrun
    refine ⟨pieces, happends, fun g filled hfilled hsize hg pool' hpool => ?_⟩
    obtain ⟨hne, hreads⟩ := hcodes g filled hfilled hsize hg
    obtain ⟨i, hread, htells⟩ := hreads hproper
    refine ⟨hne, i, hread, htells pool' hpool, ?_, fun op target he => absurd ⟨op, target,
      he⟩ hjump⟩
    rintro op rfl
    exact (htells pool' hpool).trans (plainForm_of_isPlain (hplain op rfl))

/-- Rows that a body has taken up stand in its code. -/
theorem Wrote.coded {instructions : List (Nat × Instruction Label)} {rows : List Row}
    (h : Wrote image named b instructions rows b')
    (hproper : ∀ x ∈ instructions, x.2.IsProper) :
    ∃ pieces, Appends pieces b b' ∧ ∀ g filled pool', Piece.Filled g pieces filled →
      b.code.size + filled.length < 65536 →
      (∀ label place, g.offset label = .ok place → place < 65536) → b'.pool.Grows pool' →
      ∃ is, Instruction.Coded b.code.size filled is ∧
        List.Forall₂ (fun row i => i.1 = row.offset ∧ row.ReadsAs g pool' i.2) rows is := by
  induction h with
  | nil b =>
    refine ⟨[], .refl b, fun g filled pool' hfilled _ _ _ => ?_⟩
    cases hfilled
    exact ⟨[], .nil _, .nil⟩
  | @cons b mid next b' p i event rest rows before tells run others ih =>
    have hbefore := appends_before before
    obtain ⟨pieces, hrow, hcoded⟩ := Row.coded ⟨p, event, mid⟩
      (instructionEvent_ok tells).1
      (isProper_event (hproper _ List.mem_cons_self) tells run)
      (isPlain_event (hproper _ List.mem_cons_self) tells) run
    obtain ⟨more, hmore, hothers⟩ := ih fun x hx => hproper x (List.mem_cons_of_mem _ hx)
    have hsize : mid.code.size = b.code.size := by
      rw [hbefore.code]
      rfl
    refine ⟨pieces ++ more, (hbefore.trans hrow).trans hmore,
      fun g filled pool' hfilled hlength hg hpool => ?_⟩
    obtain ⟨front, back, rfl, hfront, hback⟩ := hfilled.split
    rw [List.length_append] at hlength
    have hnext : next.code.size = b.code.size + front.length := by
      rw [hrow.code, Bytes.size_putAll, hfront.length_eq]
      exact congrArg (· + _) hsize
    obtain ⟨hne, i', hread, hreads⟩ := hcoded g front hfront
      (by show mid.code.size + _ < _; omega) hg pool' (hmore.pool.trans hpool)
    obtain ⟨is, hcoded', hall⟩ := hothers g back pool' hback (by omega) hg hpool
    rw [hnext] at hcoded'
    have hoffset : Row.offset ⟨p, event, mid⟩ = b.code.size := hsize
    rw [hoffset] at hread
    exact ⟨(b.code.size, i') :: is, .cons hne hread hcoded', .cons ⟨hoffset.symm, hreads⟩ hall⟩

end ClassImage

end JvmClass
