import JvmClass.Proofs.Assembly.Blocks
import JvmClass.Proofs.Code.Reading
import JvmClass.Proofs.Constant.Growth

/-!
# Code under construction

The code of a body is a sequence of pieces: bytes, and room for branch distances, each of which has
its fixup (`MethodBuilder.Appends`). Every instruction appends pieces which, once distances are
filled in, read back as the instruction that was told (`MethodBuilder.Codes`).
-/

namespace JvmClass

open Scan (Reads ReadsAt)

/-- A computation on each item of a list that gives answers gives one for each. -/
theorem forall₂_of_mapM {α β : Type} {f : α → Except ClassError β} {items : List α} {found : List β}
    (h : items.mapM f = .ok found) : List.Forall₂ (fun a b => f a = .ok b) items found := by
  induction items generalizing found with
  | nil =>
    cases h
    exact .nil
  | cons a rest ih =>
    simp only [List.mapM_cons, Step.except_bind_ok] at h
    obtain ⟨b, hb, others, hothers, h⟩ := h
    cases h
    exact .cons hb (ih hothers)

/-- A piece of code under construction: bytes, or room for the distance of a branch. -/
inductive Piece where
  | bytes (bytes : List UInt8)
  | distance (source : Nat) (target : Label) (wide : Bool)

namespace Piece

/-- What stands in the code before distances are filled in. -/
def blank : Piece → List UInt8
  | bytes b => b
  | distance _ _ wide => if wide then bytes32 0 else bytes16 0

/-- The fixups of pieces that stand in the code from a place on. -/
def fixups (place : Nat) : List Piece → List Fixup
  | [] => []
  | bytes b :: rest => fixups (place + b.length) rest
  | distance source target wide :: rest =>
    ⟨source, place, target, wide⟩ ::
      fixups (place + (distance source target wide).blank.length) rest

/-- The bytes of pieces when labels have their offsets. -/
inductive Filled (g : LabelGraph) : List Piece → List UInt8 → Prop
  | nil : Filled g [] []
  | bytes {b : List UInt8} {rest : List Piece} {filled : List UInt8} (h : Filled g rest filled) :
    Filled g (.bytes b :: rest) (b ++ filled)
  | wide {source place : Nat} {target : Label} {rest : List Piece} {filled : List UInt8}
    (offset : g.offset target = .ok place) (h : Filled g rest filled) :
    Filled g (.distance source target true :: rest) (distance32 source place ++ filled)
  | short {source place : Nat} {target : Label} {rest : List Piece} {filled : List UInt8}
    (offset : g.offset target = .ok place) (near : Near source place) (h : Filled g rest filled) :
    Filled g (.distance source target false :: rest) (distance16 source place ++ filled)

variable {g : LabelGraph} {a b : List Piece} {filled : List UInt8}

theorem fixups_append (place : Nat) (a b : List Piece) :
    fixups place (a ++ b) = fixups place a ++ fixups (place + (a.flatMap blank).length) b := by
  induction a generalizing place with
  | nil => rfl
  | cons piece rest ih =>
    cases piece with
    | bytes bytes =>
      simp only [List.cons_append, fixups, ih, List.flatMap_cons, List.length_append, blank,
        Nat.add_assoc]
    | distance source target wide =>
      simp only [List.cons_append, fixups, ih, List.flatMap_cons, List.length_append,
        Nat.add_assoc]

/-- Filling in distances changes no sizes. -/
theorem Filled.length_eq (h : Filled g a filled) :
    filled.length = (a.flatMap blank).length := by
  induction h with
  | nil => rfl
  | bytes _ ih => simp only [List.flatMap_cons, List.length_append, blank, ih]
  | wide _ _ ih =>
    simp only [List.flatMap_cons, List.length_append, blank, if_true, ih, length_distance32,
      length_bytes32]
  | short _ _ _ ih =>
    simp only [List.flatMap_cons, List.length_append, blank, Bool.false_eq_true, if_false, ih,
      length_distance16, length_bytes16]

theorem Filled.split (h : Filled g (a ++ b) filled) :
    ∃ front rest, filled = front ++ rest ∧ Filled g a front ∧ Filled g b rest := by
  induction a generalizing filled with
  | nil => exact ⟨[], filled, rfl, .nil, h⟩
  | cons piece a ih =>
    rw [List.cons_append] at h
    cases h with
    | bytes h =>
      obtain ⟨front, rest, rfl, ha, hb⟩ := ih h
      exact ⟨_, rest, (List.append_assoc ..).symm, .bytes ha, hb⟩
    | wide offset h =>
      obtain ⟨front, rest, rfl, ha, hb⟩ := ih h
      exact ⟨_, rest, (List.append_assoc ..).symm, .wide offset ha, hb⟩
    | short offset near h =>
      obtain ⟨front, rest, rfl, ha, hb⟩ := ih h
      exact ⟨_, rest, (List.append_assoc ..).symm, .short offset near ha, hb⟩

theorem Filled.of_bytes {bytes : List UInt8} (h : Filled g [.bytes bytes] filled) :
    filled = bytes := by
  cases h with
  | bytes h =>
    cases h
    exact List.append_nil bytes

theorem offsets_ok {targets : List Label} {places : List Nat}
    (h : targets.mapM g.offset = .ok places) :
    List.Forall₂ (fun target place => g.offset target = .ok place) targets places :=
  forall₂_of_mapM h

theorem offsets_lt {targets : List Label} {places : List Nat} {bound : Nat}
    (h : targets.mapM g.offset = .ok places)
    (hg : ∀ label place, g.offset label = .ok place → place < bound) :
    ∀ place ∈ places, place < bound := by
  have hall := offsets_ok h
  clear h
  induction hall with
  | nil => simp
  | cons hplace _ ih =>
    intro place hp
    rcases List.mem_cons.1 hp with rfl | hp
    · exact hg _ _ hplace
    · exact ih place hp

/-- The distances to the targets of a switch. -/
theorem Filled.targets {source : Nat} {targets : List Label}
    (h : Filled g (targets.map (.distance source · true)) filled) :
    ∃ places, targets.mapM g.offset = .ok places ∧
      filled = places.flatMap (distance32 source) := by
  induction targets generalizing filled with
  | nil =>
    cases h
    exact ⟨[], rfl, rfl⟩
  | cons target rest ih =>
    cases h with
    | wide offset h =>
      obtain ⟨places, hplaces, rfl⟩ := ih h
      refine ⟨_ :: places, ?_, rfl⟩
      rw [List.mapM_cons, offset, hplaces]
      rfl

/-- The pieces of the cases of a switch. -/
def cases (source : Nat) (cases : List (Int32 × Label)) : List Piece :=
  cases.flatMap fun case =>
    [.bytes (bytes32 case.1.toUInt32), .distance source case.2 true]

theorem Filled.cases {source : Nat} {keys : List Int32} {targets : List Label}
    (hcount : keys.length = targets.length)
    (h : Filled g (Piece.cases source (keys.zip targets)) filled) :
    ∃ places, targets.mapM g.offset = .ok places ∧
      filled = (keys.zip places).flatMap (Instruction.caseBytes source) := by
  induction keys generalizing targets filled with
  | nil =>
    obtain rfl := List.eq_nil_of_length_eq_zero hcount.symm
    cases h
    exact ⟨[], rfl, rfl⟩
  | cons key keys ih =>
    cases targets with
    | nil => cases hcount
    | cons target targets =>
      cases h with
      | bytes h =>
        cases h with
        | @wide _ place _ _ _ offset h =>
          obtain ⟨places, hplaces, rfl⟩ := ih (Nat.succ.inj hcount) h
          refine ⟨place :: places, ?_, ?_⟩
          · rw [List.mapM_cons, offset, hplaces]
            rfl
          · simp [Instruction.caseBytes]

end Piece

namespace MethodBuilder

variable {b b' : MethodBuilder} {u : Unit}

/-- Pieces are appended to the code. No label that is placed lies past its end, and the setting stays
as it is. -/
structure Appends (pieces : List Piece) (b b' : MethodBuilder) : Prop where
  setting : b'.setting = b.setting
  code : b'.code = b.code.putAll (pieces.flatMap Piece.blank)
  fixups : b'.fixups.toList = b.fixups.toList ++ Piece.fixups b.code.size pieces
  pool : b.pool.Grows b'.pool
  bounded : (∀ label p, b.graph.position? label = some p → p ≤ b.code.size) →
    ∀ label p, b'.graph.position? label = some p → p ≤ b'.code.size

namespace Appends

theorem of_eq (hsetting : b'.setting = b.setting) (hcode : b'.code = b.code)
    (hfixups : b'.fixups = b.fixups) (hpool : b'.pool = b.pool)
    (hpositions : ∀ label, b'.graph.position? label = b.graph.position? label) :
    Appends [] b b' where
  setting := hsetting
  code := hcode
  fixups := by rw [hfixups, Piece.fixups, List.append_nil]
  pool := hpool ▸ .refl b.pool
  bounded h label p hp := by
    rw [hpositions] at hp
    rw [hcode]
    exact h label p hp

theorem refl (b : MethodBuilder) : Appends [] b b := of_eq rfl rfl rfl rfl fun _ => rfl

theorem trans {pieces pieces' : List Piece} {b'' : MethodBuilder} (h : Appends pieces b b')
    (h' : Appends pieces' b' b'') : Appends (pieces ++ pieces') b b'' where
  setting := h'.setting.trans h.setting
  code := by rw [h'.code, h.code, List.flatMap_append, Bytes.putAll_append]
  fixups := by
    rw [h'.fixups, h.fixups, h.code, Bytes.size_putAll, Piece.fixups_append, List.append_assoc]
  pool := h.pool.trans h'.pool
  bounded hb := h'.bounded (h.bounded hb)

/-- Nothing is appended after the pieces. -/
theorem andThen {pieces : List Piece} {b'' : MethodBuilder} (h : Appends pieces b b')
    (h' : Appends [] b' b'') : Appends pieces b b'' := by
  have := h.trans h'
  rwa [List.append_nil] at this

end Appends

theorem appends_bytes (b : MethodBuilder) (bytes : List UInt8) :
    Appends [.bytes bytes] b { b with code := b.code.putAll bytes } where
  setting := rfl
  code := by simp [Piece.blank]
  fixups := (List.append_nil _).symm
  pool := .refl b.pool
  bounded h label p hp := by
    rw [Bytes.size_putAll]
    exact Nat.le_trans (h label p hp) (Nat.le_add_right _ _)

theorem appends_ask {α : Type} {request : ConstantPool.Request α} {a : α}
    (hr : ConstantPool.Stable request) (h : ask request b = .ok a b') :
    Appends [] b b' ∧ b'.code = b.code ∧
      ∀ q, b'.pool.Grows q → request q = .ok a q := by
  obtain ⟨pool, hpool, rfl⟩ := Step.on_ok.1 h
  obtain ⟨hext, hagain⟩ := hr _ _ _ hpool
  exact ⟨⟨rfl, rfl, (List.append_nil _).symm, hext.grows, id⟩, rfl, hagain⟩

theorem appends_putFixup {source : Nat} {target : Label} {wide : Bool}
    (h : putFixup source target wide b = .ok u b') :
    Appends [.distance source target wide] b b' := by
  simp only [putFixup, Step.bind_ok, Step.modify_ok, write] at h
  obtain ⟨_, _, rfl, rfl⟩ := h
  refine ⟨rfl, ?_, ?_, .refl b.pool, fun hb label p hp => ?_⟩
  · cases wide <;> simp [Piece.blank, Bytes.putU16, Bytes.putU32]
  · simp [Piece.fixups]
  · refine Nat.le_trans (hb label p hp) ?_
    cases wide <;> simp

theorem appends_putTargets {source : Nat} {targets : List Label}
    (h : putTargets source targets b = .ok u b') :
    Appends (targets.map (.distance source · true)) b b' := by
  induction targets generalizing b with
  | nil =>
    obtain ⟨-, rfl⟩ := Step.pure_ok.1 h
    exact .refl b
  | cons target rest ih =>
    obtain ⟨_, mid, h1, h2⟩ := Step.bind_ok.1 h
    exact (appends_putFixup h1).trans (ih h2)

theorem appends_putCases {source : Nat} {cases : List (Int32 × Label)}
    (h : putCases source cases b = .ok u b') : Appends (Piece.cases source cases) b b' := by
  induction cases generalizing b with
  | nil =>
    obtain ⟨-, rfl⟩ := Step.pure_ok.1 h
    exact .refl b
  | cons case rest ih =>
    obtain ⟨key, target⟩ := case
    simp only [putCases, Step.bind_ok] at h
    obtain ⟨_, _, h1, _, _, h2, h3⟩ := h
    obtain rfl := write_ok h1
    exact ((appends_bytes b _).trans (appends_putFixup h2)).trans (ih h3)

theorem appends_touchLocal {slot : UInt16} {width : Nat}
    (h : touchLocal slot width b = .ok u b') : Appends [] b b' := by
  obtain rfl := Step.modify_ok.1 h
  exact .of_eq rfl rfl rfl rfl fun _ => rfl

theorem appends_record {offset : Nat} {effect : Except ClassError Effect}
    (h : record offset effect b = .ok u b') : Appends [] b b' := by
  obtain ⟨blocks, rfl⟩ := record_eq h
  exact .of_eq rfl rfl rfl rfl fun _ => rfl

theorem appends_jumpToAll {targets : List Label} (h : jumpToAll targets b = .ok u b') :
    Appends [] b b' := by
  induction targets generalizing b with
  | nil =>
    obtain ⟨-, rfl⟩ := Step.pure_ok.1 h
    exact .refl b
  | cons target rest ih =>
    obtain ⟨_, mid, h1, h2⟩ := Step.bind_ok.1 h
    obtain ⟨graph, hl, rfl⟩ := jumpTo_eq h1
    have hjump : Appends [] b { b with graph } := .of_eq rfl rfl rfl rfl hl.position?
    exact hjump.andThen (ih h2)

theorem appends_endBlock (h : endBlock b = .ok u b') : Appends [] b b' := by
  obtain rfl := Step.modify_ok.1 h
  exact .of_eq rfl rfl rfl rfl fun _ => rfl

/-- A label is placed at the end of the code, and the others stay where they are. -/
theorem position?_placing {g g' : LabelGraph} {label : Label} {position : Nat} {starts : Bool}
    (h : LabelGraph.Placing g label position starts g') (l : Label) :
    g'.position? l = if l = label then some position else g.position? l := by
  have hall : (g'.place? label).bind (·.position) = some position ∧
      ∀ l, l ≠ label → g'.place? l = g.place? l := by
    cases h with
    | joins leader index unplaced last here chain place others => exact ⟨by rw [place]; rfl, others⟩
    | starts leader index last unplaced chain place others => exact ⟨by rw [place]; rfl, others⟩
  split
  · rename_i he
    rw [he, LabelGraph.position?_eq, hall.1]
  · rename_i he
    exact (LabelGraph.others_eq hall.2 he).1

theorem position?_placeLabel {label : Label} (h : placeLabel label b = .ok u b') (l : Label) :
    b'.graph.position? l = if l = label then some b.code.size else b.graph.position? l := by
  obtain ⟨g, ⟨hplace, rfl⟩ | ⟨hplace, g', hg', rfl⟩⟩ := placeLabel_ok h
  · exact position?_placing (LabelGraph.placing hplace) l
  · refine Eq.trans ?_ (position?_placing (LabelGraph.placing hplace) l)
    rcases hg' with ⟨previous, -, hedge⟩ | ⟨-, rfl⟩
    · exact (LabelGraph.sameLayout_addEdge hedge).position? l
    · exact (LabelGraph.sameLayout_setFlags _ _ _).position? l

theorem appends_placeLabel {label : Label} (h : placeLabel label b = .ok u b') :
    Appends [] b b' := by
  have hbounded : (∀ l p, b.graph.position? l = some p → p ≤ b.code.size) →
      ∀ l p, b'.graph.position? l = some p → p ≤ b.code.size := by
    intro hb l p hp
    rw [position?_placeLabel h] at hp
    split at hp
    · cases hp
      exact Nat.le_refl _
    · exact hb l p hp
  obtain ⟨g, ⟨-, rfl⟩ | ⟨-, g', -, rfl⟩⟩ := placeLabel_ok h
  · exact ⟨rfl, rfl, (List.append_nil _).symm, .refl _, hbounded⟩
  · exact ⟨rfl, rfl, (List.append_nil _).symm, .refl _, hbounded⟩

theorem appends_splitBlock (h : splitBlock b = .ok u b') : Appends [] b b' := by
  simp only [splitBlock, newLabel, Step.bind_ok, Step.get_ok, Step.modify_ok,
    Step.pure_ok] at h
  obtain ⟨label, _, ⟨_, _, ⟨rfl, rfl⟩, _, _, rfl, rfl, rfl⟩, hplace⟩ := h
  have hnew : Appends [] b { b with graph := b.graph.addLabel } :=
    .of_eq rfl rfl rfl rfl (LabelGraph.position?_addLabel b.graph)
  exact hnew.andThen (appends_placeLabel hplace)

theorem appends_splitAfterStore (h : splitAfterStore b = .ok u b') : Appends [] b b' := by
  simp only [splitAfterStore, Step.bind_ok, Step.get_ok] at h
  obtain ⟨_, _, ⟨rfl, rfl⟩, h⟩ := h
  split at h
  · exact appends_splitBlock h
  · obtain ⟨-, rfl⟩ := Step.pure_ok.1 h
    exact .refl b

/-- An instruction starts where the code ends. -/
theorem appends_startInstruction {offset : Nat} (h : startInstruction b = .ok offset b') :
    offset = b.code.size ∧ Appends [] b b' := by
  obtain ⟨rfl, ⟨block, -, rfl⟩ | ⟨-, hsplit⟩⟩ := startInstruction_ok h
  · exact ⟨rfl, .refl _⟩
  · have ha := appends_splitBlock hsplit
    exact ⟨congrArg Array.size ha.code, ha⟩

end MethodBuilder

/-- The instruction is what an event told: in its long form, with the indices that a pool answers
with and the offsets of labels. A `goto` or `jsr` may be wide. -/
def MethodEvent.Tells (g : LabelGraph) (pool : ConstantPool) : MethodEvent → Instruction Nat → Prop
  | .plain op, i => i = Instruction.plainForm op
  | .intOperand op operand, i => i = .intOperand op operand
  | .access op slot, i => i = .access op slot
  | .typeOperand op name, i =>
    ∃ cls, ConstantPool.cls name pool = .ok cls pool ∧ i = .typeOperand op cls
  | .field op owner name descriptor, i =>
    ∃ member, ConstantPool.fieldRef owner name descriptor pool = .ok member pool ∧
      i = .field op member
  | .method op owner name descriptor ownerIsInterface, i =>
    ∃ member, ConstantPool.methodRef owner name descriptor ownerIsInterface pool =
        .ok member pool ∧ i = .method op member
  | .invokeDynamic name descriptor bootstrap arguments, i =>
    ∃ site, ConstantPool.invokeDynamic name descriptor bootstrap arguments pool = .ok site pool ∧
      i = .invokeDynamic site
  | .jump op target, i =>
    ∃ place form, g.offset target = .ok place ∧ i = .jump form place ∧
      (form = op ∨ op = Opcode.goto ∧ form = Opcode.goto_w ∨ op = Opcode.jsr ∧ form = Opcode.jsr_w)
  | .load value, i => ∃ index, ConstantPool.loadable value pool = .ok index pool ∧ i = .load index
  | .increment slot amount, i => i = .increment slot amount
  | .tableSwitch low high fallback targets, i =>
    ∃ place places, g.offset fallback = .ok place ∧ targets.mapM g.offset = .ok places ∧
      i = .tableSwitch low high place places
  | .lookupSwitch fallback keys targets, i =>
    ∃ place places, g.offset fallback = .ok place ∧ targets.mapM g.offset = .ok places ∧
      i = .lookupSwitch place keys places
  | .newMultiArray descriptor dimensions, i =>
    ∃ cls, ConstantPool.cls descriptor pool = .ok cls pool ∧ i = .newMultiArray cls dimensions
  | _, _ => False

/-- The code of an instruction is one that the event is for. -/
def MethodEvent.isProper : MethodEvent → Bool
  | .plain op => Instruction.standsAlone op
  | .intOperand op _ => op == Opcode.bipush || op == Opcode.sipush || op == Opcode.newarray
  | .access op _ => Instruction.isAccess op
  | .typeOperand op _ => Instruction.isTypeOperand op
  | .field op _ _ _ => Opcode.within Opcode.getstatic op Opcode.putfield
  | .method op _ _ _ _ => Opcode.within Opcode.invokevirtual op Opcode.invokeinterface
  | .jump op _ => Instruction.isShortJump op || op == Opcode.goto_w || op == Opcode.jsr_w
  | _ => true

namespace MethodBuilder

variable {b b' : MethodBuilder} {u : Unit}

/-- Once distances are filled in, the pieces at an offset read as the instruction of an event, for
every later pool, if its code is one that the event is for. -/
def Codes (pool : ConstantPool) (o : Nat) (event : MethodEvent) (pieces : List Piece) : Prop :=
  ∀ g filled, Piece.Filled g pieces filled → o + filled.length < 65536 →
    (∀ label place, g.offset label = .ok place → place < 65536) →
    filled ≠ [] ∧ (event.isProper = true →
      ∃ i, ReadsAt o JvmClass.Instruction.read filled (o, i) ∧
        ∀ q, pool.Grows q → event.Tells g q i)

/-- Bytes without a distance in them. -/
theorem codes_bytes {pool : ConstantPool} {o : Nat} {event : MethodEvent} {op : UInt8}
    {rest : List UInt8} {i : JvmClass.Instruction Nat}
    (hread : event.isProper = true →
      ReadsAt o JvmClass.Instruction.read (op :: rest) (o, i))
    (htells : ∀ g q, pool.Grows q → event.Tells g q i) :
    Codes pool o event [.bytes (op :: rest)] := by
  intro g filled hf _ _
  rw [hf.of_bytes]
  exact ⟨List.cons_ne_nil _ _, fun hop => ⟨i, hread hop, htells g⟩⟩

/-- An event appends the pieces of its instruction. -/
def Writes (event : MethodEvent) (b b' : MethodBuilder) : Prop :=
  ∃ pieces, Appends pieces b b' ∧ Codes b'.pool b.code.size event pieces

theorem Writes.of_start {event : MethodEvent} {offset : Nat} {pieces : List Piece}
    {started written : MethodBuilder} (start : startInstruction b = .ok offset started)
    (write : Appends pieces started written) (finish : Appends [] written b')
    (codes : Codes b'.pool offset event pieces) : Writes event b b' := by
  obtain ⟨rfl, hstart⟩ := appends_startInstruction start
  exact ⟨pieces, (hstart.trans write).andThen finish, codes⟩

theorem writes_plain {op : UInt8} (h : plain op b = .ok u b') : Writes (.plain op) b b' := by
  simp only [plain, Step.bind_ok] at h
  obtain ⟨offset, started, h1, _, _, h2, _, recorded, h3, h4⟩ := h
  obtain rfl := write_ok h2
  refine .of_start h1 (appends_bytes started [op]) ((appends_record h3).andThen ?_)
    (codes_bytes Instruction.reads_standsAlone fun _ _ _ => rfl)
  split at h4
  · exact appends_endBlock h4
  · obtain ⟨-, rfl⟩ := Step.pure_ok.1 h4
    exact .refl recorded

theorem writes_intOperand {op : UInt8} {operand : Int32}
    (h : intOperand op operand b = .ok u b') : Writes (.intOperand op operand) b b' := by
  simp only [intOperand, Step.bind_ok] at h
  obtain ⟨offset, started, h1, _, _, h2, h⟩ := h
  obtain rfl := write_ok h2
  split at h
  · rename_i hop
    subst hop
    split at h
    · rename_i hrange
      simp only [Bool.and_eq_true, decide_eq_true_eq] at hrange
      obtain ⟨_, _, h3, h4⟩ := Step.bind_ok.1 h
      obtain rfl := write_ok h3
      exact .of_start h1 (appends_bytes started [Opcode.bipush, operand.toInt8.toUInt8])
        (appends_record h4)
        (codes_bytes (fun _ => Instruction.reads_bipush hrange.1 hrange.2) fun _ _ _ => rfl)
    · simp [Step.bind_ok, Step.throw_ok] at h
  · split at h
    · rename_i hop
      subst hop
      split at h
      · rename_i hrange
        simp only [Bool.and_eq_true, decide_eq_true_eq] at hrange
        obtain ⟨_, _, h3, h4⟩ := Step.bind_ok.1 h
        obtain rfl := write_ok h3
        exact .of_start h1
          (appends_bytes started (Opcode.sipush :: bytes16 operand.toInt16.toUInt16))
          (appends_record h4)
          (codes_bytes (fun _ => Instruction.reads_sipush hrange.1 hrange.2) fun _ _ _ => rfl)
      · simp [Step.bind_ok, Step.throw_ok] at h
    · split at h
      · rename_i hop
        subst hop
        generalize helement : (if 0 ≤ operand.toInt && operand.toInt ≤ 255 then
          BaseType.ofArrayCode? (UInt8.ofNat operand.toInt.toNat) else none) = element at h
        cases element with
        | none => exact absurd h (by simp [Step.throw_ok])
        | some element =>
          split at helement
          · rename_i hrange
            simp only [Bool.and_eq_true, decide_eq_true_eq] at hrange
            obtain ⟨_, _, h3, h4⟩ := Step.bind_ok.1 h
            obtain rfl := write_ok h3
            exact .of_start h1 (appends_bytes started [Opcode.newarray, element.arrayCode])
              (appends_record h4)
              (codes_bytes (fun _ => Instruction.reads_newarray hrange.1 hrange.2 helement) fun _ _ _ => rfl)
          · cases helement
      · exact absurd h (by simp [Step.throw_ok])

theorem accessBytes_eq_cons (op : UInt8) (slot : UInt16) :
    ∃ first rest, accessBytes op slot = first :: rest := by
  unfold accessBytes
  split
  · exact ⟨_, _, rfl⟩
  · split <;> exact ⟨_, _, rfl⟩

theorem writes_access {op : UInt8} {slot : UInt16} (h : access op slot b = .ok u b') :
    Writes (.access op slot) b b' := by
  simp only [access, Step.bind_ok, Step.get_ok] at h
  obtain ⟨offset, started, h1, _, _, ⟨rfl, rfl⟩, h⟩ := h
  rw [Step.guard_ok] at h
  obtain ⟨-, h⟩ := h
  rw [Step.guard_ok] at h
  obtain ⟨-, h⟩ := h
  simp only [Step.bind_ok] at h
  obtain ⟨_, _, h2, _, touched, h3, _, recorded, h4, h5⟩ := h
  obtain rfl := write_ok h2
  have hread : Instruction.isAccess op = true →
      Scan.ReadsAt offset Instruction.read (accessBytes op slot) (offset, .access op slot) :=
    fun hop => Instruction.reads_access hop slot
  obtain ⟨first, rest, hbytes⟩ := accessBytes_eq_cons op slot
  rw [hbytes] at hread
  refine .of_start h1 (appends_bytes started (accessBytes op slot))
    (((appends_touchLocal h3).andThen (appends_record h4)).andThen ?_)
    (hbytes ▸ codes_bytes hread fun _ _ _ => rfl)
  split at h5
  · exact appends_endBlock h5
  · split at h5
    · exact appends_splitAfterStore h5
    · obtain ⟨-, rfl⟩ := Step.pure_ok.1 h5
      exact .refl recorded

theorem writes_typeOperand {op : UInt8} {name : String}
    (h : typeOperand op name b = .ok u b') : Writes (.typeOperand op name) b b' := by
  simp only [typeOperand, Step.bind_ok] at h
  obtain ⟨offset, started, h1, cls, asked, h2, _, _, h3, h4⟩ := h
  obtain ⟨hask, -, hagain⟩ := appends_ask (ConstantPool.stable_cls name) h2
  obtain rfl := write_ok h3
  refine .of_start h1 (hask.trans (appends_bytes asked (op :: bytes16 cls))) (appends_record h4)
    (codes_bytes (fun hop => Instruction.reads_typeOperand hop cls) fun _ q hq => ?_)
  exact ⟨cls, hagain q ((appends_record h4).pool.trans hq), rfl⟩

theorem writes_field {op : UInt8} {owner name descriptor : String}
    (h : field op owner name descriptor b = .ok u b') :
    Writes (.field op owner name descriptor) b b' := by
  simp only [field, Step.bind_ok] at h
  obtain ⟨offset, started, h1, member, asked, h2, _, _, h3, h4⟩ := h
  obtain ⟨hask, -, hagain⟩ := appends_ask (ConstantPool.stable_fieldRef owner name descriptor) h2
  obtain rfl := write_ok h3
  refine .of_start h1 (hask.trans (appends_bytes asked (op :: bytes16 member)))
    (appends_record h4) (codes_bytes (fun hop => Instruction.reads_field hop member) fun _ q hq => ?_)
  exact ⟨member, hagain q ((appends_record h4).pool.trans hq), rfl⟩

theorem writes_method {op : UInt8} {owner name descriptor : String} {ownerIsInterface : Bool}
    (h : method op owner name descriptor ownerIsInterface b = .ok u b') :
    Writes (.method op owner name descriptor ownerIsInterface) b b' := by
  simp only [method, Step.bind_ok, Step.of_ok] at h
  obtain ⟨offset, started, h1, member, asked, h2, d, _, ⟨-, rfl⟩, _, _, h3, h⟩ := h
  obtain ⟨hask, -, hagain⟩ :=
    appends_ask (ConstantPool.stable_methodRef owner name descriptor ownerIsInterface) h2
  obtain rfl := write_ok h3
  have hcall := hask.trans (appends_bytes asked (op :: bytes16 member))
  split at h
  · rename_i hinterface
    subst hinterface
    obtain ⟨_, counted, h4, h5⟩ := Step.bind_ok.1 h
    obtain rfl := write_ok h4
    refine .of_start h1
      (hcall.trans (appends_bytes _ [UInt8.ofNat (d.parameterSlots true), 0])) (appends_record h5)
      fun g filled hf _ _ => ?_
    cases hf with
    | bytes hf =>
      rw [hf.of_bytes]
      exact ⟨List.cons_ne_nil _ _, fun _ => ⟨_, Instruction.reads_invokeinterface member _,
        fun q hq => ⟨member, hagain q ((appends_record h5).pool.trans hq), rfl⟩⟩⟩
  · rename_i hother
    have hgroup : ∀ op, Opcode.within Opcode.invokevirtual op Opcode.invokeinterface = true →
        op ≠ Opcode.invokeinterface →
        Opcode.within Opcode.invokevirtual op Opcode.invokestatic = true :=
      Opcode.forall_of_fin (by decide +kernel)
    refine .of_start h1 hcall (appends_record h)
      (codes_bytes (fun hop => Instruction.reads_method (hgroup op hop hother) member)
        fun _ q hq => ?_)
    exact ⟨member, hagain q ((appends_record h).pool.trans hq), rfl⟩

theorem writes_invokeDynamic {name descriptor : String} {bootstrap : Handle}
    {arguments : List Loadable}
    (h : invokeDynamic name descriptor bootstrap arguments b = .ok u b') :
    Writes (.invokeDynamic name descriptor bootstrap arguments) b b' := by
  simp only [invokeDynamic, Step.bind_ok] at h
  obtain ⟨offset, started, h1, site, asked, h2, _, _, h3, h4⟩ := h
  obtain ⟨hask, -, hagain⟩ :=
    appends_ask (ConstantPool.stable_invokeDynamic name descriptor bootstrap arguments) h2
  obtain rfl := write_ok h3
  refine .of_start h1
    (hask.trans (appends_bytes asked (Opcode.invokedynamic :: (bytes16 site ++ bytes16 0))))
    (appends_record h4) (codes_bytes (fun _ => Instruction.reads_invokeDynamic site) fun _ q hq => ?_)
  exact ⟨site, hagain q ((appends_record h4).pool.trans hq), rfl⟩

theorem codes_jump {pool : ConstantPool} {o : Nat} {op form : UInt8} {target : Label}
    (hform : form = op ∨ op = Opcode.goto ∧ form = Opcode.goto_w ∨
      op = Opcode.jsr ∧ form = Opcode.jsr_w) :
    Codes pool o (.jump op target)
      [.bytes [form], .distance o target (form == Opcode.goto_w || form == Opcode.jsr_w)] := by
  intro g filled hf hsize hg
  cases hwide : form == Opcode.goto_w || form == Opcode.jsr_w with
  | true =>
    rw [hwide] at hf
    have hw : form = Opcode.goto_w ∨ form = Opcode.jsr_w := by simpa using hwide
    cases hf with
    | bytes hf =>
      cases hf with
      | @wide _ place _ _ _ offset hf =>
        cases hf
        exact ⟨List.cons_ne_nil _ _, fun _ => ⟨.jump form place,
          Instruction.reads_wideJump hw (by omega) (hg target place offset),
          fun _ _ => ⟨place, form, offset, rfl, hform⟩⟩⟩
  | false =>
    rw [hwide] at hf
    simp only [Bool.or_eq_false_iff, beq_eq_false_iff_ne, ne_eq] at hwide
    cases hf with
    | bytes hf =>
      cases hf with
      | @short _ place _ _ _ offset near hf =>
        cases hf
        refine ⟨List.cons_ne_nil _ _, fun hop => ?_⟩
        rcases hform with rfl | ⟨-, he⟩ | ⟨-, he⟩
        · have hshort : Instruction.isShortJump form = true := by
            simpa [MethodEvent.isProper, hwide.1, hwide.2] using hop
          exact ⟨.jump form place,
            Instruction.reads_shortJump hshort near (hg target place offset),
            fun _ _ => ⟨place, form, offset, rfl, Or.inl rfl⟩⟩
        · exact absurd he hwide.1
        · exact absurd he hwide.2

theorem writes_jump {op : UInt8} {target : Label} (h : jump op target b = .ok u b') :
    Writes (.jump op target) b b' := by
  simp only [jump, Step.bind_ok, Step.get_ok] at h
  obtain ⟨offset, started, h1, _, _, ⟨rfl, rfl⟩, h⟩ := h
  rw [Step.guard_ok] at h
  obtain ⟨-, h⟩ := h
  rw [Step.guard_ok] at h
  obtain ⟨-, h⟩ := h
  simp only [Step.bind_ok, Step.get_ok] at h
  obtain ⟨_, _, ⟨rfl, rfl⟩, _, _, h2, _, fixed, h3, _, recorded, h4, _, jumped, h5, h6⟩ := h
  obtain rfl := write_ok h2
  obtain ⟨graph, hl, rfl⟩ := jumpTo_eq h5
  have hjump : Appends [] recorded { recorded with graph } := .of_eq rfl rfl rfl rfl hl.position?
  refine .of_start h1 ((appends_bytes started [_]).trans (appends_putFixup h3))
    (((appends_record h4).andThen hjump).andThen ?_) (codes_jump (jumpForm_cases ..))
  split at h6
  · exact appends_endBlock h6
  · exact appends_splitBlock h6

theorem loadBytes_eq_cons (isWide : Bool) (index : PoolIndex) :
    ∃ first rest, loadBytes isWide index = first :: rest := by
  unfold loadBytes
  split
  · exact ⟨_, _, rfl⟩
  · split <;> exact ⟨_, _, rfl⟩

theorem writes_load {value : Loadable} (h : load value b = .ok u b') :
    Writes (.load value) b b' := by
  simp only [load, Step.bind_ok] at h
  obtain ⟨offset, started, h1, index, asked, h2, _, _, h3, h4⟩ := h
  obtain ⟨hask, -, hagain⟩ := appends_ask (ConstantPool.stable_loadable value) h2
  obtain rfl := write_ok h3
  have hread := Instruction.reads_load (o := offset) value.isWide index
  obtain ⟨first, rest, hbytes⟩ := loadBytes_eq_cons value.isWide index
  rw [hbytes] at hread
  refine .of_start h1 (hask.trans (appends_bytes asked (loadBytes value.isWide index)))
    (appends_record h4) (hbytes ▸ codes_bytes (fun _ => hread) fun _ q hq => ?_)
  exact ⟨index, hagain q ((appends_record h4).pool.trans hq), rfl⟩

theorem incrementBytes_eq_cons (slot : UInt16) (amount : Int16) :
    ∃ first rest, incrementBytes slot amount = first :: rest := by
  unfold incrementBytes
  split <;> exact ⟨_, _, rfl⟩

theorem writes_increment {slot : UInt16} {amount : Int16}
    (h : increment slot amount b = .ok u b') : Writes (.increment slot amount) b b' := by
  simp only [increment, Step.bind_ok] at h
  obtain ⟨offset, started, h1, _, _, h2, _, touched, h3, _, recorded, h4, h5⟩ := h
  obtain rfl := write_ok h2
  have hread := Instruction.reads_increment (o := offset) slot amount
  obtain ⟨first, rest, hbytes⟩ := incrementBytes_eq_cons slot amount
  rw [hbytes] at hread
  exact .of_start h1 (appends_bytes started (incrementBytes slot amount))
    (((appends_touchLocal h3).andThen (appends_record h4)).andThen (appends_splitAfterStore h5))
    (hbytes ▸ codes_bytes (fun _ => hread) fun _ _ _ => rfl)

theorem pad_putU8 (code : Bytes) (op : UInt8) :
    pad (code.putU8 op) = code.putAll (op :: Instruction.padding code.size) := by
  rw [pad, Bytes.size_putU8]
  rfl

theorem writes_tableSwitch {low high : Int32} {fallback : Label} {targets : List Label}
    (h : tableSwitch low high fallback targets b = .ok u b') :
    Writes (.tableSwitch low high fallback targets) b b' := by
  simp only [tableSwitch] at h
  rw [Step.guard_ok] at h
  obtain ⟨hcount, h⟩ := h
  simp only [Step.bind_ok] at h
  obtain ⟨offset, started, h1, _, _, h2, _, fixed, h3, _, _, h4, _, placed, h5, _, recorded, h6, _,
    jumped, h7, h8⟩ := h
  obtain rfl := write_ok h2
  obtain rfl := write_ok h4
  rw [pad_putU8] at h3
  obtain ⟨rfl, -⟩ := startInstruction_ok h1
  have hwrite := (((appends_bytes started (Opcode.tableswitch :: _)).trans
    (appends_putFixup h3)).trans
      (appends_bytes fixed (bytes32 low.toUInt32 ++ bytes32 high.toUInt32))).trans
        (appends_putTargets (by rwa [Bytes.putAll_append]))
  refine .of_start h1 hwrite (((appends_record h6).andThen (appends_jumpToAll h7)).andThen
    (appends_endBlock h8)) fun g filled hf hsize hg => ?_
  cases hf with
  | bytes hf =>
    cases hf with
    | @wide _ place _ _ _ offset hf =>
      cases hf with
      | bytes hf =>
        obtain ⟨places, hplaces, rfl⟩ := hf.targets
        have hcount' : high.toInt - low.toInt + 1 = places.length := by
          rw [← (Piece.offsets_ok hplaces).length_eq]
          exact not_not.1 hcount
        have hread := Instruction.reads_tableSwitch (o := started.code.size) hcount' (by omega)
          (hg fallback place offset) (Piece.offsets_lt hplaces hg)
        refine ⟨List.cons_ne_nil _ _, fun _ =>
          ⟨_, ?_, fun _ _ => ⟨place, places, offset, hplaces, rfl⟩⟩⟩
        simpa using hread

theorem writes_lookupSwitch {fallback : Label} {keys : List Int32} {targets : List Label}
    (h : lookupSwitch fallback keys targets b = .ok u b') :
    Writes (.lookupSwitch fallback keys targets) b b' := by
  simp only [lookupSwitch] at h
  rw [Step.guard_ok] at h
  obtain ⟨hcount, h⟩ := h
  simp only [Step.bind_ok] at h
  obtain ⟨offset, started, h1, _, _, h2, _, fixed, h3, _, _, h4, _, placed, h5, _, recorded, h6, _,
    jumped, h7, h8⟩ := h
  obtain rfl := write_ok h2
  obtain rfl := write_ok h4
  rw [pad_putU8] at h3
  obtain ⟨rfl, -⟩ := startInstruction_ok h1
  have hwrite := (((appends_bytes started (Opcode.lookupswitch :: _)).trans
    (appends_putFixup h3)).trans (appends_bytes fixed (bytes32 (UInt32.ofNat keys.length)))).trans
      (appends_putCases h5)
  refine .of_start h1 hwrite (((appends_record h6).andThen (appends_jumpToAll h7)).andThen
    (appends_endBlock h8)) fun g filled hf hsize hg => ?_
  have hequal : keys.length = targets.length := not_not.1 hcount
  cases hf with
  | bytes hf =>
    cases hf with
    | @wide _ place _ _ _ offset hf =>
      cases hf with
      | bytes hf =>
        obtain ⟨places, hplaces, rfl⟩ := Piece.Filled.cases hequal hf
        have hkeys : keys.length < 65536 := by
          have hentries : ((keys.zip places).flatMap
              (Instruction.caseBytes started.code.size)).length = 8 * (keys.zip places).length :=
            Put.length_flatMap_const _ fun _ => rfl
          rw [List.length_zip, ← (Piece.offsets_ok hplaces).length_eq, ← hequal,
            Nat.min_self] at hentries
          simp only [List.length_append, hentries] at hsize
          omega
        have hequal' : keys.length = places.length := by
          rw [← (Piece.offsets_ok hplaces).length_eq]
          exact hequal
        have hread := Instruction.reads_lookupSwitch (o := started.code.size) hequal' hkeys
          (by omega) (hg fallback place offset) (Piece.offsets_lt hplaces hg)
        refine ⟨List.cons_ne_nil _ _, fun _ =>
          ⟨_, ?_, fun _ _ => ⟨place, places, offset, hplaces, rfl⟩⟩⟩
        simpa using hread

theorem writes_newMultiArray {descriptor : String} {dimensions : UInt8}
    (h : newMultiArray descriptor dimensions b = .ok u b') :
    Writes (.newMultiArray descriptor dimensions) b b' := by
  simp only [newMultiArray, Step.bind_ok] at h
  obtain ⟨offset, started, h1, cls, asked, h2, _, _, h3, h4⟩ := h
  obtain ⟨hask, -, hagain⟩ := appends_ask (ConstantPool.stable_cls descriptor) h2
  obtain rfl := write_ok h3
  refine .of_start h1
    (hask.trans (appends_bytes asked (Opcode.multianewarray :: (bytes16 cls ++ [dimensions]))))
    (appends_record h4) (codes_bytes (fun _ => Instruction.reads_newMultiArray cls dimensions)
      fun _ q hq => ?_)
  exact ⟨cls, hagain q ((appends_record h4).pool.trans hq), rfl⟩

/-- Every event of an instruction writes it. -/
theorem writes_feed {event : MethodEvent} (hi : isInstruction event = true)
    (hok : feed event b = .ok u b') : Writes event b b' := by
  cases event with
  | plain op => exact writes_plain hok
  | intOperand op operand => exact writes_intOperand hok
  | access op slot => exact writes_access hok
  | typeOperand op name => exact writes_typeOperand hok
  | field op owner name descriptor => exact writes_field hok
  | method op owner name descriptor ownerIsInterface => exact writes_method hok
  | invokeDynamic name descriptor bootstrap arguments => exact writes_invokeDynamic hok
  | jump op target => exact writes_jump hok
  | load value => exact writes_load hok
  | increment slot amount => exact writes_increment hok
  | tableSwitch low high fallback targets => exact writes_tableSwitch hok
  | lookupSwitch fallback keys targets => exact writes_lookupSwitch hok
  | newMultiArray descriptor dimensions => exact writes_newMultiArray hok
  | _ => cases hi

/-- The other events before the end of the code write nothing. -/
theorem appends_feed {event : MethodEvent} (hi : isInstruction event = false)
    (hlast : ∀ n, event.stage = some n → n ≤ 3) (hok : feed event b = .ok u b') :
    Appends [] b b' := by
  cases event with
  | annotated a visible =>
    obtain rfl := Step.modify_ok.1 hok
    exact .of_eq rfl rfl rfl rfl fun _ => rfl
  | «attribute» a =>
    simp only [feed, Step.bind_ok, Step.get_ok, Step.of_ok, Step.modify_ok] at hok
    obtain ⟨_, _, ⟨rfl, rfl⟩, _, _, ⟨-, rfl⟩, rfl⟩ := hok
    exact .of_eq rfl rfl rfl rfl fun _ => rfl
  | newLabels count =>
    obtain rfl := Step.modify_ok.1 hok
    exact .of_eq rfl rfl rfl rfl (LabelGraph.position?_addLabels b.graph count)
  | code =>
    simp only [feed, beginCode, newLabel, Step.bind_ok, Step.get_ok, Step.modify_ok,
      Step.pure_ok, onGraph, Step.on_ok] at hok
    obtain ⟨entry, _, ⟨_, _, ⟨rfl, rfl⟩, _, _, rfl, rfl, rfl⟩, starts, _, ⟨g, hg, rfl⟩, rfl⟩ := hok
    refine ⟨rfl, rfl, (List.append_nil _).symm, .refl _, fun hb label p hp => ?_⟩
    rw [position?_placing (LabelGraph.placing hg)] at hp
    split at hp
    · cases hp
      exact Nat.zero_le _
    · rw [LabelGraph.position?_addLabel] at hp
      exact hb label p hp
  | handler start stop handler catchType =>
    obtain rfl := Step.modify_ok.1 hok
    exact .of_eq rfl rfl rfl rfl fun _ => rfl
  | label label => exact appends_placeLabel hok
  | frame locals stack =>
    simp only [feed, frame, Step.bind_ok, Step.get_ok] at hok
    obtain ⟨_, _, ⟨rfl, rfl⟩, hok⟩ := hok
    rw [Step.guard_ok] at hok
    obtain ⟨-, hok⟩ := hok
    split at hok
    · rw [Step.guard_ok] at hok
      obtain ⟨-, hok⟩ := hok
      obtain rfl := Step.modify_ok.1 hok
      exact .of_eq rfl rfl rfl rfl fun _ => rfl
    · obtain ⟨-, rfl⟩ := Step.pure_ok.1 hok
      exact .refl b
  | lineNumber line start =>
    obtain rfl := Step.modify_ok.1 hok
    exact .of_eq rfl rfl rfl rfl fun _ => rfl
  | localVariable name descriptor start stop slot =>
    simp only [feed, localVariable, Step.bind_ok, Step.modify_ok] at hok
    obtain ⟨_, mid, htouch, rfl⟩ := hok
    obtain rfl := Step.modify_ok.1 htouch
    exact .of_eq rfl rfl rfl rfl fun _ => rfl
  | codeAttribute a =>
    simp only [feed, Step.bind_ok, Step.get_ok, Step.of_ok, Step.modify_ok] at hok
    obtain ⟨_, _, ⟨rfl, rfl⟩, _, _, ⟨-, rfl⟩, rfl⟩ := hok
    exact .of_eq rfl rfl rfl rfl fun _ => rfl
  | maxs stack locals => exact absurd (hlast 4 rfl) (by decide)
  | finish => exact absurd (hlast 5 rfl) (by decide)
  | _ => cases hi

end MethodBuilder

end JvmClass
