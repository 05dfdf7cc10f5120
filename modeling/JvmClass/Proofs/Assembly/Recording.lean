import JvmClass.Assembly.Body
import JvmClass.Proofs.Bytes
import JvmClass.Proofs.Flow.Layout
import JvmClass.Proofs.Typing.Execution

/-!
# What an instruction does to a method under construction

An instruction starts a block if there is none, appends bytes, is recorded with the offset at which
it starts, jumps to its targets, and leaves its block open, ends it or splits it
(`MethodBuilder.Instruction`). Its constants and its fixups leave the control flow alone
(`MethodBuilder.Quiet`), and its jumps leave the blocks where they are (`MethodBuilder.Extends`).
-/

namespace JvmClass

/-- The labels to which an instruction jumps. -/
def MethodEvent.targets : MethodEvent → List Label
  | .jump _ target => [target]
  | .tableSwitch _ _ fallback targets => fallback :: targets
  | .lookupSwitch fallback _ targets => fallback :: targets
  | _ => []

/-- Whether an instruction always passes control on: a `goto`, a switch, a return or a throw. -/
def MethodEvent.transfers : MethodEvent → Bool
  | .jump op _ => Opcode.isGoto op
  | .tableSwitch .. | .lookupSwitch .. => true
  | .plain op => Opcode.leavesMethod op
  | _ => false

/-- Whether nothing falls through after an instruction: it passes control on or returns from a
subroutine. -/
def MethodEvent.closes : MethodEvent → Bool
  | .access op _ => op == Opcode.ret
  | event => event.transfers

/-- How many locals an instruction needs. -/
def MethodEvent.slots : MethodEvent → Nat
  | .access op slot => slot.toNat + if Opcode.isWideAccess op then 2 else 1
  | .increment slot _ => slot.toNat + 1
  | _ => 0

namespace MethodBuilder

/-- The effects with which an instruction may be recorded: a jump may be recorded in its wide
form. -/
def Effects (offset : Nat) : MethodEvent → Except ClassError Effect → Prop
  | .plain op, e => e = .ok (.plain op)
  | .intOperand op _, e =>
    op = Opcode.newarray ∧ (∃ element, e = .ok (.newArray element)) ∨
      op ≠ Opcode.newarray ∧ e = .ok (.plain op)
  | .access op slot, e => e = .ok (.access op slot)
  | .typeOperand op name, e => e = typeEffect op name offset
  | .field op _ _ descriptor, e => e = (parseDescriptor FieldType descriptor).map (.field op)
  | .method op _ name descriptor _, e =>
    e = (parseDescriptor MethodDescriptor descriptor).map (.invoke op (isConstructorName name))
  | .invokeDynamic _ descriptor _ _, e =>
    e = (parseDescriptor MethodDescriptor descriptor).map .invokeDynamic
  | .jump op _, e => ∃ form, e = .ok (.plain form) ∧
    (form = op ∨ op = Opcode.goto ∧ form = Opcode.goto_w ∨ op = Opcode.jsr ∧ form = Opcode.jsr_w)
  | .load value, e => e = (loadedType value).map .load
  | .increment slot _, e => e = .ok (.increment slot)
  | .tableSwitch .., e => e = .ok (.plain Opcode.tableswitch)
  | .lookupSwitch .., e => e = .ok (.plain Opcode.lookupswitch)
  | .newMultiArray descriptor dimensions, e =>
    e = (parseDescriptor RefType descriptor).map (.newMultiArray · dimensions)
  | _, _ => False

variable {b b' : MethodBuilder} {u : Unit}

/-- A step that neither records instructions nor moves labels. -/
structure Extends (b b' : MethodBuilder) : Prop where
  setting : b'.setting = b.setting
  entry : b'.entry = b.entry
  handlers : b'.handlers = b.handlers
  current : b'.current = b.current
  blocks : b'.blocks = b.blocks
  layout : b.graph.SameLayout b'.graph
  size : b.code.size ≤ b'.code.size
  room : b.maxLocals ≤ b'.maxLocals

namespace Extends

theorem refl (b : MethodBuilder) : b.Extends b :=
  ⟨rfl, rfl, rfl, rfl, rfl, .refl _, Nat.le_refl _, Nat.le_refl _⟩

theorem trans {b'' : MethodBuilder} (h : b.Extends b') (h' : b'.Extends b'') : b.Extends b'' where
  setting := h'.setting.trans h.setting
  entry := h'.entry.trans h.entry
  handlers := h'.handlers.trans h.handlers
  current := h'.current.trans h.current
  blocks := h'.blocks.trans h.blocks
  layout := h.layout.trans h'.layout
  size := Nat.le_trans h.size h'.size
  room := Nat.le_trans h.room h'.room

end Extends

/-- A step that leaves the control flow and its blocks as they are. -/
structure Quiet (b b' : MethodBuilder) : Prop where
  setting : b'.setting = b.setting
  entry : b'.entry = b.entry
  handlers : b'.handlers = b.handlers
  current : b'.current = b.current
  blocks : b'.blocks = b.blocks
  graph : b'.graph = b.graph
  size : b.code.size ≤ b'.code.size
  room : b.maxLocals ≤ b'.maxLocals

namespace Quiet

theorem refl (b : MethodBuilder) : b.Quiet b :=
  ⟨rfl, rfl, rfl, rfl, rfl, rfl, Nat.le_refl _, Nat.le_refl _⟩

theorem trans {b'' : MethodBuilder} (h : b.Quiet b') (h' : b'.Quiet b'') : b.Quiet b'' where
  setting := h'.setting.trans h.setting
  entry := h'.entry.trans h.entry
  handlers := h'.handlers.trans h.handlers
  current := h'.current.trans h.current
  blocks := h'.blocks.trans h.blocks
  graph := h'.graph.trans h.graph
  size := Nat.le_trans h.size h'.size
  room := Nat.le_trans h.room h'.room

end Quiet

theorem Quiet.extends (h : b.Quiet b') : b.Extends b' :=
  ⟨h.setting, h.entry, h.handlers, h.current, h.blocks, h.graph ▸ .refl _, h.size, h.room⟩

theorem ask_ok {α : Type} {request : ConstantPool.Request α} {a : α}
    (h : ask request b = .ok a b') :
    b.Quiet b' := by
  obtain ⟨pool, -, rfl⟩ := Step.on_ok.1 h
  exact ⟨rfl, rfl, rfl, rfl, rfl, rfl, Nat.le_refl _, Nat.le_refl _⟩

theorem write_ok {f : Bytes → Bytes} (h : write f b = .ok u b') :
    b' = { b with code := f b.code } := Step.modify_ok.1 h

theorem quiet_code {code : Bytes} (h : b.code.size ≤ code.size) : b.Quiet { b with code } :=
  ⟨rfl, rfl, rfl, rfl, rfl, rfl, h, Nat.le_refl _⟩

theorem touchLocal_ok {slot : UInt16} {width : Nat} (h : touchLocal slot width b = .ok u b') :
    b.Quiet b' ∧ b'.code = b.code ∧ slot.toNat + width ≤ b'.maxLocals := by
  obtain rfl := Step.modify_ok.1 h
  exact ⟨⟨rfl, rfl, rfl, rfl, rfl, rfl, Nat.le_refl _, Nat.le_max_left _ _⟩, rfl,
    Nat.le_max_right _ _⟩

theorem putFixup_ok {source : Nat} {target : Label} {wide : Bool}
    (h : putFixup source target wide b = .ok u b') : b.Quiet b' := by
  simp only [putFixup, Step.bind_ok, Step.modify_ok, write] at h
  obtain ⟨_, _, rfl, rfl⟩ := h
  refine ⟨rfl, rfl, rfl, rfl, rfl, rfl, ?_, Nat.le_refl _⟩
  dsimp only
  split
  · simp
  · simp

/-- A jump adds an edge out of the block that is open, and marks its target. -/
theorem jumpTo_graph {target : Label} (h : jumpTo target b = .ok u b') :
    ∃ g, (b.current = none ∧ g = b.graph ∨ ∃ block, b.current = some block ∧
        LabelGraph.addEdge block .normal target b.graph = .ok () g) ∧
      b' = { b with graph := g.markTarget target } := by
  simp only [jumpTo, Step.bind_ok, Step.get_ok] at h
  obtain ⟨_, _, ⟨rfl, rfl⟩, h⟩ := h
  rcases b.current.eq_none_or_eq_some with hc | ⟨block, hc⟩
  · rw [hc] at h
    exact ⟨_, Or.inl ⟨hc, rfl⟩, Step.modify_ok.1 h⟩
  · rw [hc] at h
    obtain ⟨_, _, h1, h2⟩ := Step.bind_ok.1 h
    obtain ⟨g, hg, rfl⟩ := Step.on_ok.1 h1
    exact ⟨g, Or.inr ⟨block, hc, hg⟩, Step.modify_ok.1 h2⟩

/-- A jump changes the control flow alone, and no label moves. -/
theorem jumpTo_eq {target : Label} (h : jumpTo target b = .ok u b') :
    ∃ graph, b.graph.SameLayout graph ∧ b' = { b with graph } := by
  obtain ⟨g, ⟨-, rfl⟩ | ⟨block, -, hg⟩, rfl⟩ := jumpTo_graph h
  · exact ⟨_, LabelGraph.sameLayout_setFlags _ _ _, rfl⟩
  · exact ⟨_, (LabelGraph.sameLayout_addEdge hg).trans (LabelGraph.sameLayout_setFlags _ _ _), rfl⟩

theorem jumpTo_ok {target : Label} (h : jumpTo target b = .ok u b') :
    b.Extends b' ∧ b'.code = b.code := by
  obtain ⟨graph, hl, rfl⟩ := jumpTo_eq h
  exact ⟨⟨rfl, rfl, rfl, rfl, rfl, hl, Nat.le_refl _, Nat.le_refl _⟩, rfl⟩

theorem jumpToAll_ok {targets : List Label} (h : jumpToAll targets b = .ok u b') :
    b.Extends b' ∧ b'.code = b.code := by
  induction targets generalizing b with
  | nil =>
    obtain ⟨-, rfl⟩ := Step.pure_ok.1 h
    exact ⟨.refl b, rfl⟩
  | cons target rest ih =>
    obtain ⟨_, mid, h1, h2⟩ := Step.bind_ok.1 h
    obtain ⟨he, hc⟩ := jumpTo_ok h1
    obtain ⟨he', hc'⟩ := ih h2
    exact ⟨he.trans he', hc'.trans hc⟩

theorem putTargets_ok {source : Nat} {targets : List Label}
    (h : putTargets source targets b = .ok u b') : b.Quiet b' := by
  induction targets generalizing b with
  | nil =>
    obtain ⟨-, rfl⟩ := Step.pure_ok.1 h
    exact .refl b
  | cons target rest ih =>
    obtain ⟨_, mid, h1, h2⟩ := Step.bind_ok.1 h
    exact (putFixup_ok h1).trans (ih h2)

theorem putCases_ok {source : Nat} {cases : List (Int32 × Label)}
    (h : putCases source cases b = .ok u b') : b.Quiet b' := by
  induction cases generalizing b with
  | nil =>
    obtain ⟨-, rfl⟩ := Step.pure_ok.1 h
    exact .refl b
  | cons case rest ih =>
    obtain ⟨key, target⟩ := case
    simp only [putCases, Step.bind_ok] at h
    obtain ⟨_, _, h1, _, _, h2, h3⟩ := h
    obtain rfl := write_ok h1
    refine (quiet_code ?_).trans ((putFixup_ok h2).trans (ih h3))
    simp

/-- The start of a block at a label. -/
theorem placeLabel_ok {label : Label} (h : placeLabel label b = .ok u b') :
    ∃ g, (LabelGraph.place label b.code.size b.graph = .ok false g ∧
        b' = { b with graph := g, current := some (g.blockOf label) }) ∨
      (LabelGraph.place label b.code.size b.graph = .ok true g ∧
        ∃ g', ((∃ previous, b.current = some previous ∧
            LabelGraph.addEdge previous .normal label g = .ok () g') ∨
          (b.current = none ∧ g' = g.markTarget label)) ∧
        b' = { b with
          graph := g'
          blocks := b.blocks.alter label fun summary => some (summary.getD {})
          current := some (g'.blockOf label) }) := by
  simp only [placeLabel, Step.bind_ok, Step.get_ok, onGraph, Step.on_ok] at h
  obtain ⟨_, _, ⟨rfl, rfl⟩, starts, _, ⟨g, hg, rfl⟩, h⟩ := h
  refine ⟨g, ?_⟩
  cases starts with
  | false =>
    left
    simp only [Bool.false_eq_true, if_false, Step.modify_ok] at h
    exact ⟨hg, h⟩
  | true =>
    right
    refine ⟨hg, ?_⟩
    simp only [if_true, Step.bind_ok, Step.get_ok] at h
    obtain ⟨_, _, ⟨rfl, rfl⟩, h⟩ := h
    cases hcurrent : b.current with
    | some previous =>
      simp only [hcurrent, Step.bind_ok, Step.on_ok, Step.modify_ok] at h
      obtain ⟨_, _, ⟨g', hg', rfl⟩, _, _, rfl, rfl⟩ := h
      exact ⟨g', Or.inl ⟨previous, rfl, hg'⟩, rfl⟩
    | none =>
      simp only [hcurrent, Step.bind_ok, Step.modify_ok] at h
      obtain ⟨_, _, rfl, _, _, rfl, rfl⟩ := h
      exact ⟨_, Or.inr ⟨rfl, rfl⟩, rfl⟩

/-- Where something is computed, the effect of an instruction is recorded in the current block. -/
theorem record_computes {offset : Nat} {effect : Except ClassError Effect}
    (hf : b.setting.compute.computesMaxs = true) (h : record offset effect b = .ok u b') :
    ∃ e, effect = .ok e ∧ ∀ block, b.current = some block →
      b' = { b with
        blocks := b.blocks.alter block fun summary =>
          some ((summary.getD {}).add b.setting.compute.frames offset e) } := by
  simp only [record, Step.bind_ok, Step.get_ok] at h
  obtain ⟨_, _, ⟨rfl, rfl⟩, h⟩ := h
  rw [if_pos hf] at h
  simp only [Step.bind_ok, Step.of_ok, Step.get_ok] at h
  obtain ⟨e, _, ⟨he, rfl⟩, _, _, ⟨rfl, rfl⟩, h⟩ := h
  refine ⟨e, he, fun block hb => ?_⟩
  rw [hb] at h
  exact Step.modify_ok.1 h

theorem record_ok {offset : Nat} {effect : Except ClassError Effect}
    (hf : b.setting.compute.frames = true) (h : record offset effect b = .ok u b') :
    ∃ e, effect = .ok e ∧ ∀ block, b.current = some block →
      b' = { b with
        blocks := b.blocks.alter block fun summary =>
          some ((summary.getD {}).add true offset e) } := by
  have := record_computes (by simp [Compute.computesMaxs, hf]) h
  rwa [hf] at this

/-- The start of an instruction: a block that is open goes on, and else one is started. -/
theorem startInstruction_ok {offset : Nat} (h : startInstruction b = .ok offset b') :
    offset = b'.code.size ∧ ((∃ block, b.current = some block ∧ b' = b) ∨
      b.current = none ∧ splitBlock b = .ok () b') := by
  simp only [startInstruction, Step.bind_ok, Step.get_ok] at h
  obtain ⟨_, _, ⟨rfl, rfl⟩, h⟩ := h
  rw [Step.guard_ok] at h
  obtain ⟨-, h⟩ := h
  simp only [Step.bind_ok, Step.get_ok] at h
  obtain ⟨_, _, ⟨rfl, rfl⟩, h⟩ := h
  cases hcurrent : b.current with
  | some block =>
    simp only [hcurrent, Option.isNone_some, Bool.false_eq_true, if_false, Step.bind_ok,
      Step.get_ok, Step.pure_ok] at h
    obtain ⟨_, _, ⟨rfl, rfl⟩, rfl, rfl⟩ := h
    exact ⟨rfl, Or.inl ⟨block, rfl, rfl⟩⟩
  | none =>
    simp only [hcurrent, Option.isNone_none, if_true, Step.bind_ok, Step.get_ok,
      Step.pure_ok] at h
    obtain ⟨_, mid, hsplit, _, _, ⟨rfl, rfl⟩, rfl, rfl⟩ := h
    exact ⟨rfl, Or.inr ⟨rfl, hsplit⟩⟩

/-- What is done after an instruction: its block stays open, ends or is split. A block is split
after a store if there are handlers. -/
structure Ends (effect : Except ClassError Effect) (b b' : MethodBuilder) : Prop where
  cases : b' = b ∨ b' = { b with current := none } ∨ splitBlock b = .ok () b'
  store : ∀ e, effect = .ok e → e.isStore = true → splitAfterStore b = .ok () b'

/-- An instruction is written and recorded, its jumps are taken up, and its block ends if it always
passes control on. Else its block stays open or falls through into a new one, which it always does
if there are jumps. -/
inductive Instruction (event : MethodEvent) (b b' : MethodBuilder) : Prop where
  | mk {offset : Nat} {effect : Except ClassError Effect} {started written recorded done :
      MethodBuilder}
    (start : startInstruction b = .ok offset started)
    (write : started.Quiet written)
    (record : MethodBuilder.record offset effect written = .ok () recorded)
    (jumps : jumpToAll event.targets recorded = .ok () done)
    (grows : started.code.size < done.code.size)
    (ends : Ends effect done b')
    (leaves : event.transfers = true → endBlock done = .ok () b')
    (effects : Effects offset event effect)
    (room : event.slots ≤ written.maxLocals)
    (closes : event.closes = true → endBlock done = .ok () b')
    (falls : event.closes = false →
      b' = done ∧ event.targets = [] ∨ splitBlock done = .ok () b')

theorem ends_open {effect : Except ClassError Effect}
    (hs : ∀ e, effect = .ok e → e.isStore = false) : Ends effect b b := by
  refine ⟨Or.inl rfl, fun e he hstore => ?_⟩
  rw [hs e he] at hstore
  cases hstore

theorem ends_block {effect : Except ClassError Effect}
    (hs : ∀ e, effect = .ok e → e.isStore = false) (h : endBlock b = .ok u b') :
    Ends effect b b' := by
  refine ⟨Or.inr (Or.inl (Step.modify_ok.1 h)), fun e he hstore => ?_⟩
  rw [hs e he] at hstore
  cases hstore

theorem ends_split {effect : Except ClassError Effect}
    (hs : ∀ e, effect = .ok e → e.isStore = false) (h : splitBlock b = .ok u b') :
    Ends effect b b' := by
  refine ⟨Or.inr (Or.inr h), fun e he hstore => ?_⟩
  rw [hs e he] at hstore
  cases hstore

theorem splitAfterStore_ok (h : splitAfterStore b = .ok u b') :
    b' = b ∨ splitBlock b = .ok () b' := by
  simp only [splitAfterStore, Step.bind_ok, Step.get_ok] at h
  obtain ⟨_, _, ⟨rfl, rfl⟩, h⟩ := h
  split at h
  · exact Or.inr h
  · exact Or.inl (Step.pure_ok.1 h).2.symm

theorem ends_store {effect : Except ClassError Effect} (h : splitAfterStore b = .ok u b') :
    Ends effect b b' :=
  ⟨(splitAfterStore_ok h).imp_right Or.inr, fun _ _ _ => h⟩

/-- Recording an instruction changes the blocks alone. -/
theorem record_eq {offset : Nat} {effect : Except ClassError Effect}
    (h : record offset effect b = .ok u b') : ∃ blocks, b' = { b with blocks } := by
  simp only [record, Step.bind_ok, Step.get_ok] at h
  obtain ⟨_, _, ⟨rfl, rfl⟩, h⟩ := h
  split at h
  · simp only [Step.bind_ok, Step.of_ok, Step.get_ok] at h
    obtain ⟨e, _, ⟨he, rfl⟩, _, _, ⟨rfl, rfl⟩, h⟩ := h
    rcases b.current.eq_none_or_eq_some with hc | ⟨block, hc⟩
    · rw [hc] at h
      exact ⟨b.blocks, (Step.pure_ok.1 h).2.symm⟩
    · rw [hc] at h
      exact ⟨_, Step.modify_ok.1 h⟩
  · exact ⟨b.blocks, (Step.pure_ok.1 h).2.symm⟩

theorem record_code {offset : Nat} {effect : Except ClassError Effect}
    (h : record offset effect b = .ok u b') : b'.code = b.code := by
  obtain ⟨blocks, rfl⟩ := record_eq h
  rfl

theorem instruction_plain {op : UInt8} (h : plain op b = .ok u b') :
    Instruction (.plain op) b b' := by
  simp only [plain, Step.bind_ok] at h
  obtain ⟨offset, started, h1, _, written, h2, _, recorded, h3, h4⟩ := h
  obtain rfl := write_ok h2
  have hleaves : Opcode.leavesMethod op = true → endBlock recorded = .ok () b' := fun hop => by
    simpa only [hop, if_true] using h4
  refine .mk h1 (quiet_code ?_) h3 (rfl : jumpToAll [] recorded = .ok () recorded) ?_ ?_ hleaves rfl
    (Nat.zero_le _) hleaves fun hstays => Or.inl ⟨?_, rfl⟩
  · simp
  · rw [record_code h3]
    simp
  · have hs : ∀ e, (Except.ok (.plain op) : Except ClassError Effect) = .ok e →
        e.isStore = false := by
      rintro _ ⟨⟩
      rfl
    split at h4
    · exact ends_block hs h4
    · obtain ⟨-, rfl⟩ := Step.pure_ok.1 h4
      exact ends_open hs
  · change Opcode.leavesMethod op = false at hstays
    rw [if_neg (Bool.eq_false_iff.1 hstays)] at h4
    exact (Step.pure_ok.1 h4).2.symm

/-- An instruction that is written first, recorded next, and leaves its block open. -/
theorem instruction_open {event : MethodEvent} {offset : Nat} {effect : Except ClassError Effect}
    {started written : MethodBuilder} (ht : event.targets = []) (hl : event.closes = false)
    (hslots : event.slots = 0) (start : startInstruction b = .ok offset started)
    (write : started.Quiet written) (grows : started.code.size < written.code.size)
    (record : record offset effect written = .ok () b') (effects : Effects offset event effect)
    (hs : ∀ e, effect = .ok e → e.isStore = false) : Instruction event b b' := by
  have hjumps : jumpToAll event.targets b' = .ok () b' := by
    rw [ht]
    rfl
  have hleaves : event.transfers = false := by
    cases event <;> first | exact hl | rfl
  refine .mk start write record hjumps ?_ (ends_open hs) ?_ effects (hslots ▸ Nat.zero_le _) ?_
    fun _ => Or.inl ⟨rfl, ht⟩
  · rw [record_code record]
    exact grows
  · simp [hleaves]
  · simp [hl]

theorem map_ok {α : Type} {f : α → Effect} {x : Except ClassError α} {effect : Effect}
    (h : x.map f = .ok effect) : ∃ a, x = .ok a ∧ effect = f a := by
  cases x with
  | error e => cases h
  | ok a =>
    cases h
    exact ⟨a, rfl, rfl⟩

/-- Effects that do not depend on locals are no stores. -/
theorem isStore_map {α : Type} {f : α → Effect} (hf : ∀ a, (f a).isStore = false)
    {x : Except ClassError α} (e : Effect) (he : x.map f = .ok e) : e.isStore = false := by
  obtain ⟨a, -, rfl⟩ := map_ok he
  exact hf a

/-- What an instruction that names a type does. -/
theorem typeEffect_cases {op : UInt8} {name : String} {offset : Nat} {effect : Effect}
    (h : typeEffect op name offset = .ok effect) :
    (op = Opcode.new ∧ ∃ cls, effect = .new ⟨offset, cls⟩) ∨
      (op = Opcode.anewarray ∧ ∃ element, effect = .newObjectArray element) ∨
      (op = Opcode.checkcast ∧ ∃ type, effect = .checkCast type) ∨
      op = Opcode.instanceof ∧ effect = .plain Opcode.instanceof := by
  unfold typeEffect at h
  split at h
  · obtain ⟨cls, -, rfl⟩ := map_ok (f := fun cls => .new ⟨offset, cls⟩) h
    exact Or.inl ⟨‹_›, cls, rfl⟩
  · split at h
    · obtain ⟨type, -, rfl⟩ := map_ok (f := fun type => .newObjectArray (.ref type)) h
      exact Or.inr (Or.inl ⟨‹_›, _, rfl⟩)
    · split at h
      · obtain ⟨type, -, rfl⟩ := map_ok (f := Effect.checkCast) h
        exact Or.inr (Or.inr (Or.inl ⟨‹_›, type, rfl⟩))
      · split at h
        · cases h
          exact Or.inr (Or.inr (Or.inr ⟨‹_›, rfl⟩))
        · cases h

theorem isStore_typeEffect {op : UInt8} {name : String} {offset : Nat} (e : Effect)
    (he : typeEffect op name offset = .ok e) : e.isStore = false := by
  rcases typeEffect_cases he with ⟨-, _, rfl⟩ | ⟨-, _, rfl⟩ | ⟨-, _, rfl⟩ | ⟨-, rfl⟩ <;> rfl

theorem instruction_intOperand {op : UInt8} {operand : Int32}
    (h : intOperand op operand b = .ok u b') : Instruction (.intOperand op operand) b b' := by
  simp only [intOperand, Step.bind_ok] at h
  obtain ⟨offset, started, h1, _, opened, h2, h⟩ := h
  obtain rfl := write_ok h2
  have hbyte : ∀ n, started.code.size < ((started.code.putU8 op).putU8 n).size := by
    intro n
    simp only [Bytes.size_putU8]
    omega
  have hopen : ∀ code : Bytes, started.code.size < code.size →
      started.Quiet { started with code } := fun code hc => quiet_code (by omega)
  split at h
  · rename_i hop
    split at h
    · obtain ⟨_, written, h3, h4⟩ := Step.bind_ok.1 h
      obtain rfl := write_ok h3
      exact instruction_open rfl rfl rfl h1 (hopen _ (hbyte _)) (hbyte _) h4
        (Or.inr ⟨by rw [hop]; decide, rfl⟩) (by rintro _ ⟨⟩; rfl)
    · simp [Step.bind_ok, Step.throw_ok] at h
  · split at h
    · rename_i hop
      split at h
      · obtain ⟨_, written, h3, h4⟩ := Step.bind_ok.1 h
        obtain rfl := write_ok h3
        have hshort : started.code.size <
            ((started.code.putU8 op).putU16 operand.toInt16.toUInt16).size := by
          simp only [Bytes.size_putU8, Bytes.size_putU16]
          omega
        exact instruction_open rfl rfl rfl h1 (hopen _ hshort) hshort h4
          (Or.inr ⟨by rw [hop]; decide, rfl⟩) (by rintro _ ⟨⟩; rfl)
      · simp [Step.bind_ok, Step.throw_ok] at h
    · split at h
      · rename_i hop
        generalize (if 0 ≤ operand.toInt && operand.toInt ≤ 255 then
          BaseType.ofArrayCode? (UInt8.ofNat operand.toInt.toNat) else none) = element at h
        cases element with
        | none => exact absurd h (by simp [Step.throw_ok])
        | some element =>
          obtain ⟨_, written, h3, h4⟩ := Step.bind_ok.1 h
          obtain rfl := write_ok h3
          exact instruction_open rfl rfl rfl h1 (hopen _ (hbyte _)) (hbyte _) h4
            (Or.inl ⟨hop, element, rfl⟩) (by rintro _ ⟨⟩; rfl)
      · exact absurd h (by simp [Step.throw_ok])

theorem accessBytes_length_pos (op : UInt8) (slot : UInt16) : 0 < (accessBytes op slot).length := by
  unfold accessBytes
  split
  · exact Nat.one_pos
  · split <;> simp

theorem instruction_access {op : UInt8} {slot : UInt16} (h : access op slot b = .ok u b') :
    Instruction (.access op slot) b b' := by
  simp only [access, Step.bind_ok, Step.get_ok] at h
  obtain ⟨offset, started, h1, _, _, ⟨rfl, rfl⟩, h⟩ := h
  rw [Step.guard_ok] at h
  obtain ⟨-, h⟩ := h
  rw [Step.guard_ok] at h
  obtain ⟨-, h⟩ := h
  simp only [Step.bind_ok] at h
  obtain ⟨_, _, h2, _, touched, h3, _, recorded, h4, h5⟩ := h
  obtain rfl := write_ok h2
  obtain ⟨htouch, hcode, hroom⟩ := touchLocal_ok h3
  have hgrow : started.code.size < (started.code.putAll (accessBytes op slot)).size := by
    have := accessBytes_length_pos op slot
    rw [Bytes.size_putAll]
    omega
  refine .mk h1 ((quiet_code (Nat.le_of_lt hgrow)).trans htouch) h4
    (rfl : jumpToAll [] recorded = .ok () recorded) ?_ ?_ nofun rfl hroom (fun hret => ?_)
    fun hstays => ?_
  · rw [record_code h4, hcode]
    exact hgrow
  · split at h5
    · rename_i hret
      refine ends_block ?_ h5
      rintro _ ⟨⟩
      rw [hret]
      rfl
    · split at h5
      · exact ends_store h5
      · rename_i hstore
        obtain ⟨-, rfl⟩ := Step.pure_ok.1 h5
        refine ends_open ?_
        rintro _ ⟨⟩
        simpa [Effect.isStore] using hstore
  · rwa [if_pos (by simpa [MethodEvent.closes] using hret)] at h5
  · rw [if_neg (by simpa [MethodEvent.closes] using hstays)] at h5
    split at h5
    · exact (splitAfterStore_ok h5).imp_left fun h => ⟨h, rfl⟩
    · exact Or.inl ⟨(Step.pure_ok.1 h5).2.symm, rfl⟩

theorem instruction_typeOperand {op : UInt8} {name : String}
    (h : typeOperand op name b = .ok u b') : Instruction (.typeOperand op name) b b' := by
  simp only [typeOperand, Step.bind_ok] at h
  obtain ⟨offset, started, h1, cls, asked, h2, _, written, h3, h4⟩ := h
  have hask := ask_ok h2
  obtain rfl := write_ok h3
  have hgrow : asked.code.size < ((asked.code.putU8 op).putU16 cls).size := by
    simp only [Bytes.size_putU8, Bytes.size_putU16]
    omega
  exact instruction_open rfl rfl rfl h1 (hask.trans (quiet_code (Nat.le_of_lt hgrow)))
    (Nat.lt_of_le_of_lt hask.size hgrow) h4 rfl isStore_typeEffect

theorem instruction_field {op : UInt8} {owner name descriptor : String}
    (h : field op owner name descriptor b = .ok u b') :
    Instruction (.field op owner name descriptor) b b' := by
  simp only [field, Step.bind_ok] at h
  obtain ⟨offset, started, h1, member, asked, h2, _, written, h3, h4⟩ := h
  have hask := ask_ok h2
  obtain rfl := write_ok h3
  have hgrow : asked.code.size < ((asked.code.putU8 op).putU16 member).size := by
    simp only [Bytes.size_putU8, Bytes.size_putU16]
    omega
  exact instruction_open rfl rfl rfl h1 (hask.trans (quiet_code (Nat.le_of_lt hgrow)))
    (Nat.lt_of_le_of_lt hask.size hgrow) h4 rfl (isStore_map fun _ => rfl)

theorem instruction_method {op : UInt8} {owner name descriptor : String} {ownerIsInterface : Bool}
    (h : method op owner name descriptor ownerIsInterface b = .ok u b') :
    Instruction (.method op owner name descriptor ownerIsInterface) b b' := by
  simp only [method, Step.bind_ok, Step.of_ok] at h
  obtain ⟨offset, started, h1, member, asked, h2, d, _, ⟨hd, rfl⟩, _, written, h3, h⟩ := h
  have hask := ask_ok h2
  obtain rfl := write_ok h3
  have hgrow : asked.code.size < ((asked.code.putU8 op).putU16 member).size := by
    simp only [Bytes.size_putU8, Bytes.size_putU16]
    omega
  have hext := hask.trans (quiet_code (Nat.le_of_lt hgrow))
  have hlt := Nat.lt_of_le_of_lt hask.size hgrow
  have hs : ∀ e, (Except.ok (.invoke op (isConstructorName name) d) : Except ClassError Effect) =
      .ok e → e.isStore = false := by
    rintro _ ⟨⟩
    rfl
  have heffects : Effects offset (.method op owner name descriptor ownerIsInterface)
      (.ok (.invoke op (isConstructorName name) d)) := by
    rw [Effects, hd]
    rfl
  split at h
  · obtain ⟨_, counted, h4, h5⟩ := Step.bind_ok.1 h
    obtain rfl := write_ok h4
    refine instruction_open rfl rfl rfl h1 (hext.trans (quiet_code ?_)) ?_ h5 heffects hs
    · simp only [Bytes.size_putU8]
      omega
    · simp only [Bytes.size_putU8]
      omega
  · exact instruction_open rfl rfl rfl h1 hext hlt h heffects hs

theorem instruction_invokeDynamic {name descriptor : String} {bootstrap : Handle}
    {arguments : List Loadable}
    (h : invokeDynamic name descriptor bootstrap arguments b = .ok u b') :
    Instruction (.invokeDynamic name descriptor bootstrap arguments) b b' := by
  simp only [invokeDynamic, Step.bind_ok] at h
  obtain ⟨offset, started, h1, site, asked, h2, _, written, h3, h4⟩ := h
  have hask := ask_ok h2
  obtain rfl := write_ok h3
  have hgrow : asked.code.size <
      (((asked.code.putU8 Opcode.invokedynamic).putU16 site).putU16 0).size := by
    simp only [Bytes.size_putU8, Bytes.size_putU16]
    omega
  exact instruction_open rfl rfl rfl h1 (hask.trans (quiet_code (Nat.le_of_lt hgrow)))
    (Nat.lt_of_le_of_lt hask.size hgrow) h4 rfl (isStore_map fun _ => rfl)

/-- A jump keeps its code, unless it is a `goto` or `jsr` that becomes wide. -/
theorem jumpForm_cases (b : MethodBuilder) (op : UInt8) (offset : Nat) (target : Label) :
    b.jumpForm op offset target = op ∨
      op = Opcode.goto ∧ b.jumpForm op offset target = Opcode.goto_w ∨
      op = Opcode.jsr ∧ b.jumpForm op offset target = Opcode.jsr_w := by
  unfold jumpForm
  split
  · exact Or.inl rfl
  · split
    · split
      · rename_i hgoto
        exact Or.inr (Or.inl ⟨hgoto, rfl⟩)
      · split
        · rename_i hjsr
          exact Or.inr (Or.inr ⟨hjsr, rfl⟩)
        · exact Or.inl rfl
    · exact Or.inl rfl

/-- A `goto` may become wide. -/
theorem isGoto_jumpForm (op : UInt8) (offset : Nat) (target : Label) :
    Opcode.isGoto (b.jumpForm op offset target) = Opcode.isGoto op := by
  rcases jumpForm_cases b op offset target with h | ⟨rfl, h⟩ | ⟨rfl, h⟩
  · rw [h]
  · rw [h]
    rfl
  · rw [h]
    rfl

theorem instruction_jump {op : UInt8} {target : Label} (h : jump op target b = .ok u b') :
    Instruction (.jump op target) b b' := by
  simp only [jump, Step.bind_ok, Step.get_ok] at h
  obtain ⟨offset, started, h1, _, _, ⟨rfl, rfl⟩, h⟩ := h
  rw [Step.guard_ok] at h
  obtain ⟨-, h⟩ := h
  rw [Step.guard_ok] at h
  obtain ⟨-, h⟩ := h
  simp only [Step.bind_ok, Step.get_ok] at h
  obtain ⟨_, _, ⟨rfl, rfl⟩, _, _, h2, _, fixed, h3, _, recorded, h4, _, jumped, h5, h6⟩ := h
  obtain rfl := write_ok h2
  have hfix := putFixup_ok h3
  have hjumps : jumpToAll [target] recorded = .ok () jumped := Step.bind_ok.2 ⟨_, _, h5, rfl⟩
  obtain ⟨-, hcode⟩ := jumpToAll_ok hjumps
  have hgrow : started.code.size < fixed.code.size := by
    have := hfix.size
    simp only [Bytes.size_putU8] at this
    omega
  have hs : ∀ e, (Except.ok (.plain (started.jumpForm op offset target)) :
      Except ClassError Effect) = .ok e → e.isStore = false := by
    rintro _ ⟨⟩
    rfl
  have hleaves : Opcode.isGoto op = true → endBlock jumped = .ok () b' := fun hop => by
    rwa [isGoto_jumpForm, if_pos hop] at h6
  refine .mk h1 ((quiet_code ?_).trans hfix) h4 hjumps ?_ ?_ hleaves
    ⟨_, rfl, jumpForm_cases started op offset target⟩ (Nat.zero_le _) hleaves
    fun hstays => Or.inr ?_
  · simp
  · rw [hcode, record_code h4]
    exact hgrow
  · split at h6
    · exact ends_block hs h6
    · exact ends_split hs h6
  · change Opcode.isGoto op = false at hstays
    rwa [isGoto_jumpForm, if_neg (Bool.eq_false_iff.1 hstays)] at h6

theorem loadBytes_length_pos (isWide : Bool) (index : PoolIndex) :
    0 < (loadBytes isWide index).length := by
  unfold loadBytes
  split
  · simp
  · split <;> simp

theorem isStore_loadedType {value : Loadable} (e : Effect)
    (he : (loadedType value).map .load = .ok e) : e.isStore = false :=
  isStore_map (fun _ => rfl) e he

theorem instruction_load {value : Loadable} (h : load value b = .ok u b') :
    Instruction (.load value) b b' := by
  simp only [load, Step.bind_ok] at h
  obtain ⟨offset, started, h1, index, asked, h2, _, written, h3, h4⟩ := h
  have hask := ask_ok h2
  obtain rfl := write_ok h3
  have hgrow : asked.code.size < (asked.code.putAll (loadBytes value.isWide index)).size := by
    have := loadBytes_length_pos value.isWide index
    rw [Bytes.size_putAll]
    omega
  exact instruction_open rfl rfl rfl h1 (hask.trans (quiet_code (Nat.le_of_lt hgrow)))
    (Nat.lt_of_le_of_lt hask.size hgrow) h4 rfl isStore_loadedType

theorem incrementBytes_length_pos (slot : UInt16) (amount : Int16) :
    0 < (incrementBytes slot amount).length := by
  unfold incrementBytes
  split <;> simp

theorem instruction_increment {slot : UInt16} {amount : Int16}
    (h : increment slot amount b = .ok u b') : Instruction (.increment slot amount) b b' := by
  simp only [increment, Step.bind_ok] at h
  obtain ⟨offset, started, h1, _, _, h2, _, touched, h3, _, recorded, h4, h5⟩ := h
  obtain rfl := write_ok h2
  obtain ⟨htouch, hcode, hroom⟩ := touchLocal_ok h3
  have hgrow : started.code.size < (started.code.putAll (incrementBytes slot amount)).size := by
    have := incrementBytes_length_pos slot amount
    rw [Bytes.size_putAll]
    omega
  refine .mk h1 ((quiet_code (Nat.le_of_lt hgrow)).trans htouch) h4
    (rfl : jumpToAll [] recorded = .ok () recorded) ?_ (ends_store h5) nofun rfl hroom nofun
    fun _ => (splitAfterStore_ok h5).imp_left fun h => ⟨h, rfl⟩
  rw [record_code h4, hcode]
  exact hgrow

theorem le_size_pad (code : Bytes) : code.size ≤ (pad code).size := by
  simp [pad]

/-- A switch is recorded once its table is written. -/
theorem instruction_switch {event : MethodEvent} {op : UInt8} {offset : Nat}
    {started written recorded jumped : MethodBuilder}
    (h1 : startInstruction b = .ok offset started) (hw : started.Quiet written)
    (hgrow : started.code.size < written.code.size)
    (h2 : record offset (.ok (.plain op)) written = .ok () recorded)
    (h3 : jumpToAll event.targets recorded = .ok () jumped) (h4 : endBlock jumped = .ok u b')
    (hcloses : event.closes = true) (effects : Effects offset event (.ok (.plain op))) :
    Instruction event b b' := by
  obtain ⟨-, hcode⟩ := jumpToAll_ok h3
  have hslots : event.slots = 0 := by
    cases event <;> first | rfl | cases effects
  refine .mk h1 hw h2 h3 ?_ (ends_block ?_ h4) (fun _ => h4) effects (hslots ▸ Nat.zero_le _)
    (fun _ => h4) (by simp [hcloses])
  · rw [hcode, record_code h2]
    exact hgrow
  · rintro _ ⟨⟩
    rfl

theorem instruction_tableSwitch {low high : Int32} {fallback : Label} {targets : List Label}
    (h : tableSwitch low high fallback targets b = .ok u b') :
    Instruction (.tableSwitch low high fallback targets) b b' := by
  simp only [tableSwitch] at h
  rw [Step.guard_ok] at h
  obtain ⟨-, h⟩ := h
  simp only [Step.bind_ok] at h
  obtain ⟨offset, started, h1, _, _, h2, _, fixed, h3, _, _, h4, _, placed, h5, _, recorded, h6, _,
    jumped, h7, h8⟩ := h
  obtain rfl := write_ok h2
  obtain rfl := write_ok h4
  have hpad : started.code.size < (pad (started.code.putU8 Opcode.tableswitch)).size := by
    have := le_size_pad (started.code.putU8 Opcode.tableswitch)
    simp only [Bytes.size_putU8] at this
    omega
  have hfix := (quiet_code (Nat.le_of_lt hpad)).trans (putFixup_ok h3)
  have hbounds : fixed.Quiet
      { fixed with code := (fixed.code.putU32 low.toUInt32).putU32 high.toUInt32 } := by
    apply quiet_code
    simp only [Bytes.size_putU32]
    omega
  refine instruction_switch h1 ((hfix.trans hbounds).trans (putTargets_ok h5)) ?_ h6 h7 h8 rfl rfl
  have h1 := (putFixup_ok h3).size
  have h2 := (hbounds.trans (putTargets_ok h5)).size
  simp only at h1
  omega

theorem instruction_lookupSwitch {fallback : Label} {keys : List Int32} {targets : List Label}
    (h : lookupSwitch fallback keys targets b = .ok u b') :
    Instruction (.lookupSwitch fallback keys targets) b b' := by
  simp only [lookupSwitch] at h
  rw [Step.guard_ok] at h
  obtain ⟨-, h⟩ := h
  simp only [Step.bind_ok] at h
  obtain ⟨offset, started, h1, _, _, h2, _, fixed, h3, _, _, h4, _, placed, h5, _, recorded, h6, _,
    jumped, h7, h8⟩ := h
  obtain rfl := write_ok h2
  obtain rfl := write_ok h4
  have hpad : started.code.size < (pad (started.code.putU8 Opcode.lookupswitch)).size := by
    have := le_size_pad (started.code.putU8 Opcode.lookupswitch)
    simp only [Bytes.size_putU8] at this
    omega
  have hfix := (quiet_code (Nat.le_of_lt hpad)).trans (putFixup_ok h3)
  have hcount : fixed.Quiet { fixed with code := fixed.code.putU32 (UInt32.ofNat keys.length) } :=
    quiet_code (by simp)
  refine instruction_switch h1 ((hfix.trans hcount).trans (putCases_ok h5)) ?_ h6 h7 h8 rfl rfl
  have h1 := (putFixup_ok h3).size
  have h2 := (hcount.trans (putCases_ok h5)).size
  simp only at h1
  omega

theorem instruction_newMultiArray {descriptor : String} {dimensions : UInt8}
    (h : newMultiArray descriptor dimensions b = .ok u b') :
    Instruction (.newMultiArray descriptor dimensions) b b' := by
  simp only [newMultiArray, Step.bind_ok] at h
  obtain ⟨offset, started, h1, cls, asked, h2, _, written, h3, h4⟩ := h
  have hask := ask_ok h2
  obtain rfl := write_ok h3
  have hgrow : asked.code.size <
      (((asked.code.putU8 Opcode.multianewarray).putU16 cls).putU8 dimensions).size := by
    simp only [Bytes.size_putU8, Bytes.size_putU16]
    omega
  exact instruction_open rfl rfl rfl h1 (hask.trans (quiet_code (Nat.le_of_lt hgrow)))
    (Nat.lt_of_le_of_lt hask.size hgrow) h4 rfl (isStore_map fun _ => rfl)

end MethodBuilder

end JvmClass
