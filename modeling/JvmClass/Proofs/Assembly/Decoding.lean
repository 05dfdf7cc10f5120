import JvmClass.Proofs.Assembly.Finishing
import JvmClass.Proofs.Code.Sequence

/-!
# The code of a body decodes to what was told

A run of events writes the pieces of its instructions one after another (`MethodBuilder.Written`).
With their distances filled in they are a sequence of instructions (`Instruction.Coded`), and from
such a sequence the decoder finds each instruction where its event came
(`MethodBuilder.decode_of_maxs`).
-/

namespace JvmClass

/-- Filling in distances depends on the offsets of labels alone. -/
theorem Piece.Filled.congr {g g' : LabelGraph} (hg : ∀ label, g'.offset label = g.offset label)
    {pieces : List Piece} {filled : List UInt8} (h : Filled g pieces filled) :
    Filled g' pieces filled := by
  induction h with
  | nil => exact .nil
  | bytes _ ih => exact .bytes ih
  | wide offset _ ih => exact .wide ((hg _).trans offset) ih
  | short offset near _ ih => exact .short ((hg _).trans offset) near ih

namespace MethodBuilder

variable {b b' : MethodBuilder} {u : Unit} {pool pool' : ConstantPool} {o : Nat}

/-- The instructions that events tell from a state on, each with the size of the code when it
comes. -/
def told : List MethodEvent → MethodBuilder → List (Nat × MethodEvent)
  | [], _ => []
  | event :: rest, b =>
    match feed event b with
    | .error _ _ => []
    | .ok _ b' =>
      if isInstruction event then (b.code.size, event) :: told rest b' else told rest b'

theorem told_cons {event : MethodEvent} {rest : List MethodEvent}
    (h : feed event b = .ok u b') : told (event :: rest) b =
      if isInstruction event then (b.code.size, event) :: told rest b' else told rest b' := by
  rw [told, h]

theorem Codes.grows {event : MethodEvent} {pieces : List Piece} (h : Codes pool o event pieces)
    (hp : pool.Grows pool') : Codes pool' o event pieces := by
  intro g filled hf hsize hg
  obtain ⟨hne, hreads⟩ := h g filled hf hsize hg
  refine ⟨hne, fun hop => ?_⟩
  obtain ⟨i, hread, htells⟩ := hreads hop
  exact ⟨i, hread, fun q hq => htells q (hp.trans hq)⟩

/-- Pieces from an offset on that are those of instructions, one after another. -/
inductive Written (pool : ConstantPool) : Nat → List (Nat × MethodEvent) → List Piece → Prop
  | nil (o : Nat) : Written pool o [] []
  | cons {o : Nat} {event : MethodEvent} {rest : List (Nat × MethodEvent)}
    {pieces others : List Piece} (codes : Codes pool o event pieces)
    (h : Written pool (o + (pieces.flatMap Piece.blank).length) rest others) :
    Written pool o ((o, event) :: rest) (pieces ++ others)

/-- A run writes the pieces of its instructions in order. -/
theorem pieces_of_feedMethod {events : List MethodEvent}
    (hlast : ∀ event ∈ events, ∀ n, event.stage = some n → n ≤ 3)
    (hok : ClassBuilder.feedMethod events b = .ok u b') :
    ∃ pieces, Appends pieces b b' ∧ Written b'.pool b.code.size (told events b) pieces := by
  induction events generalizing b with
  | nil =>
    obtain ⟨-, rfl⟩ := Step.pure_ok.1 hok
    exact ⟨[], .refl b, .nil _⟩
  | cons event rest ih =>
    obtain ⟨_, mid, hfeed, hrest⟩ := Step.bind_ok.1 hok
    obtain ⟨others, happends, hwritten⟩ :=
      ih (fun e he => hlast e (List.mem_cons_of_mem _ he)) hrest
    rw [told_cons hfeed]
    by_cases hi : isInstruction event = true
    · obtain ⟨pieces, hwrite, hcodes⟩ := writes_feed hi hfeed
      rw [if_pos hi]
      refine ⟨pieces ++ others, hwrite.trans happends, .cons (hcodes.grows happends.pool) ?_⟩
      rwa [hwrite.code, Bytes.size_putAll] at hwritten
    · have hsame := appends_feed (Bool.eq_false_iff.2 hi) (hlast event List.mem_cons_self) hfeed
      rw [if_neg hi]
      refine ⟨others, hsame.trans happends, ?_⟩
      rwa [hsame.code] at hwritten

/-- What is told are events of the run that write instructions. -/
theorem mem_told {events : List MethodEvent} {x : Nat × MethodEvent} (hx : x ∈ told events b) :
    x.2 ∈ events ∧ isInstruction x.2 = true := by
  induction events generalizing b with
  | nil => cases hx
  | cons event rest ih =>
    unfold told at hx
    split at hx
    · cases hx
    · split at hx
      · rename_i hi
        rcases List.mem_cons.1 hx with rfl | hx
        · exact ⟨List.mem_cons_self, hi⟩
        · exact (ih hx).imp_left (List.mem_cons_of_mem _)
      · exact (ih hx).imp_left (List.mem_cons_of_mem _)

/-- A run in which every instruction has a code that its event is for. -/
theorem written_of_feedMethod {events : List MethodEvent}
    (hproper : ∀ event ∈ events, event.isProper = true)
    (hlast : ∀ event ∈ events, ∀ n, event.stage = some n → n ≤ 3)
    (hok : ClassBuilder.feedMethod events b = .ok u b') :
    ∃ pieces, Appends pieces b b' ∧ Written b'.pool b.code.size (told events b) pieces ∧
      ∀ x ∈ told events b, x.2.isProper = true := by
  obtain ⟨pieces, happends, hwritten⟩ := pieces_of_feedMethod hlast hok
  exact ⟨pieces, happends, hwritten, fun x hx => hproper _ (mem_told hx).1⟩

/-- With their distances filled in, the pieces are the instructions that were told. -/
theorem Written.coded {g : LabelGraph} {told : List (Nat × MethodEvent)} {pieces : List Piece}
    {filled : List UInt8} (h : Written pool o told pieces)
    (hproper : ∀ x ∈ told, x.2.isProper = true) (hf : Piece.Filled g pieces filled)
    (hsize : o + filled.length < 65536)
    (hg : ∀ label place, g.offset label = .ok place → place < 65536) (hp : pool.Grows pool') :
    ∃ is, Instruction.Coded o filled is ∧
      List.Forall₂ (fun told i => i.1 = told.1 ∧ told.2.Tells g pool' i.2) told is := by
  induction h generalizing filled with
  | nil o =>
    cases hf
    exact ⟨[], .nil o, .nil⟩
  | @cons o event rest pieces others codes _ ih =>
    obtain ⟨front, back, rfl, hfront, hback⟩ := hf.split
    rw [List.length_append] at hsize
    obtain ⟨hne, hreads⟩ := codes g front hfront (by omega) hg
    obtain ⟨i, hread, htells⟩ := hreads (hproper _ List.mem_cons_self)
    rw [← hfront.length_eq] at ih
    obtain ⟨is, hcoded, hall⟩ :=
      ih (fun x hx => hproper x (List.mem_cons_of_mem _ hx)) hback (by omega)
    exact ⟨(o, i) :: is, .cons hne hread hcoded, .cons ⟨rfl, htells pool' hp⟩ hall⟩

/-- Once the distances are filled in, the code of a body is the instructions that its events
told. -/
theorem coded_of_run {setting : MethodSetting} {events : List MethodEvent}
    {body patched : MethodBuilder} {g : LabelGraph} (hproper : ∀ event ∈ events, event.isProper = true)
    (hlast : ∀ event ∈ events, ∀ n, event.stage = some n → n ≤ 3)
    (hrun : ClassBuilder.feedMethod events (ofSetting setting pool) = .ok () body)
    (hpatch : patch body.fixups.toList { body with graph := body.graph.resolve } = .ok () patched)
    (hsize : body.code.size < 65536)
    (hg : ∀ label, g.offset label = body.graph.resolve.offset label) (hpool : body.pool.Grows pool') :
    ∃ is, JvmClass.Instruction.Coded 0 patched.code.toList is ∧
      List.Forall₂ (fun told i => i.1 = told.1 ∧ told.2.Tells g pool' i.2)
        (told events (ofSetting setting pool)) is := by
  obtain ⟨pieces, happends, hwritten, htold⟩ := written_of_feedMethod hproper hlast hrun
  -- The pieces stand from the start of the code on.
  have hcode : body.code.toList = pieces.flatMap Piece.blank := by
    rw [happends.code, Bytes.toList_putAll]
    rfl
  have hfilled := filled_of_patch hcode happends.fixups hpatch
  -- No offset lies past the end of the code.
  have hbound : ∀ label place, g.offset label = .ok place → place < 65536 := by
    intro label place hplace
    rw [hg, LabelGraph.offset_resolve] at hplace
    split at hplace
    · rename_i p hp
      cases hplace
      have := happends.bounded (fun l q hq => by cases hq) label place hp
      exact Nat.lt_of_le_of_lt this hsize
    · cases hplace
  have hlength : 0 + patched.code.toList.length < 65536 := by
    rw [hfilled.length_eq, ← hcode]
    simpa using hsize
  exact hwritten.coded htold (hfilled.congr hg) hlength hbound hpool

/-- Decoding undoes writing. If frames are not computed and every instruction has a code that its
event is for, the finished code decodes to one instruction for each instruction event, in order, at
the offset where the event came, with its code, except that a jump may be wide, and its operands:
constants by the indices that the pool answers with, and targets by the offsets of their labels. -/
theorem decode_of_maxs {setting : MethodSetting} {pool : ConstantPool} {events : List MethodEvent}
    {stack locals : UInt16} {final : MethodBuilder} (hf : setting.compute.frames = false)
    (horder : inOrder 0 (events ++ [.maxs stack locals]) = true)
    (hproper : ∀ event ∈ events, event.isProper = true)
    (hok : ClassBuilder.feedMethod (events ++ [.maxs stack locals]) (ofSetting setting pool) =
      .ok u final) :
    ∃ name maxStack maxLocals code table attributes decoded,
      final.body = some (name, .code maxStack maxLocals code table attributes) ∧
      Instruction.decode code = .ok decoded ∧
      List.Forall₂ (fun told i => i.1 = told.1 ∧ told.2.Tells final.graph final.pool i.2)
        (told events (ofSetting setting pool)) decoded.toList := by
  obtain ⟨body, hrun, hlast⟩ := ClassBuilder.feedMethod_append.1 hok
  obtain ⟨_, done, hmaxs, hdone⟩ := Step.bind_ok.1 hlast
  obtain ⟨-, rfl⟩ := Step.pure_ok.1 hdone
  obtain ⟨patched, limited, entry, lim, table, hfinish⟩ := finishBody_ok hmaxs
  obtain ⟨-, -, hearly⟩ := inOrder_append_maxs horder
  obtain ⟨pieces, happends, -⟩ := written_of_feedMethod hproper hearly hrun
  obtain ⟨code, hpatched⟩ := hfinish.patched_eq
  have hframes : patched.setting.compute.frames = false := by
    rw [hpatched, ← hf]
    exact congrArg (·.compute.frames) happends.setting
  obtain ⟨graph, pool', hlimited, hwidens, hgrows⟩ := limits_ok hframes hfinish.limits
  -- Offsets are settled.
  have hoffset : ∀ label, done.graph.offset label = body.graph.resolve.offset label := by
    intro label
    rw [hfinish.graph, hlimited]
    rw [hpatched] at hwidens
    exact hwidens.offset label
  -- The pool has all that instructions asked for.
  obtain ⟨tabled, htable, hlater⟩ := hfinish.tabled
  obtain ⟨p, htabled, hgrows', -⟩ := exceptionTable_ok htable
  have hpool : body.pool.Grows done.pool := by
    rw [hpatched] at hgrows
    rw [hlimited] at hgrows'
    rw [htabled] at hlater
    exact (hgrows.trans hgrows').trans hlater
  obtain ⟨is, hcoded, hall⟩ :=
    coded_of_run hproper hearly hrun hfinish.patch hfinish.size hoffset hpool
  obtain ⟨name, others, hbody⟩ := hfinish.body
  exact ⟨_, _, _, _, _, _, _, hbody, hcoded.decode (by rw [hlimited]), hall⟩

/-- An instance method without parameters, of which nothing is computed. -/
def uncomputed : MethodSetting where
  compute := ⟨false, false⟩
  copiedPool := false
  hierarchy := Hierarchy.flat
  thisClass := ⟨"C"⟩
  flags := default
  isConstructor := false
  descriptor := ⟨[], none⟩
  nameIndex := 1
  descriptorIndex := 2
  signature := none
  exceptions := []

/-- A body with a jump ahead, over a cast whose result goes to a distant local. -/
def castsAhead : List MethodEvent :=
  [.newLabels 1, .code, .access Opcode.aload 0, .jump Opcode.ifnull ⟨0⟩, .access Opcode.aload 0,
    .typeOperand Opcode.checkcast "C", .access Opcode.astore 300, .label ⟨0⟩,
    .plain Opcode.return_void]

/-- The body ends without an error. -/
theorem castsAhead_ends : ∃ final,
    ClassBuilder.feedMethod (castsAhead ++ [.maxs 1 301]) (ofSetting uncomputed .empty) =
      .ok () final := by
  have hempty : ConstantPool.empty.nextIndex.toNat ≤ 1 := by decide
  obtain ⟨i1, p1, h1, r1⟩ := ConstantPool.intern_of_room (.utf8 "C") hempty (by omega)
  obtain ⟨i2, p2, h2, r2⟩ := ConstantPool.intern_of_room (.cls i1) r1 (by omega)
  obtain ⟨i3, p3, h3, r3⟩ := ConstantPool.intern_of_room (.utf8 "Code") r2 (by omega)
  have hclass : Text.ModifiedUtf8.encodedSize "C" < 65536 := by decide
  have hname : Text.ModifiedUtf8.encodedSize "Code" < 65536 := by decide
  have hr : (default : AccessFlags .ofMethod).hasReceiver = true := by decide
  simp [castsAhead, ClassBuilder.feedMethod, feed, bind, EStateM.bind, Step.modify_run,
    beginCode, newLabel, onGraph, Step.on, LabelGraph.place, Step.get_run, pure, EStateM.pure,
    ofSetting, uncomputed, LabelGraph.addLabels, LabelGraph.addLabel, LabelGraph.data?,
    LabelGraph.lastBlockAt?, LabelGraph.update, LabelGraph.nextLabel, LabelGraph.empty, access,
    plain, startInstruction, placeLabel, record, touchLocal, write, Compute.computesMaxs,
    Opcode.isStore, Opcode.isLoad, Opcode.within, Opcode.aload, Opcode.istore, Opcode.iload,
    Opcode.astore, Opcode.ret, LabelGraph.blockOf, LabelGraph.position?, LabelGraph.markTarget,
    LabelGraph.setFlags, endBlock, splitBlock, splitAfterStore, Step.of, accessBytes,
    Bytes.putAll, Bytes.putU8, Bytes.putU16, Opcode.isWideAccess, Opcode.lload, Opcode.dload,
    Opcode.lstore, Opcode.dstore, Opcode.leavesMethod, bytes16, Opcode.return_void,
    BlockFlags.union, Opcode.athrow, MethodDescriptor.parameterSlots, Opcode.ireturn, jump,
    jumpForm, putFixup, jumpTo, LabelGraph.addEdge, Opcode.ifnull, Opcode.isSubroutineCall,
    Opcode.isGoto, Opcode.isConditionalJump, Opcode.goto_w, Opcode.jsr_w, Opcode.goto, Opcode.jsr,
    Opcode.ifeq, Opcode.if_acmpne, Opcode.ifnonnull, typeOperand, Opcode.checkcast,
    ask, ConstantPool.cls, ConstantPool.utf8, h1, h2, h3, hclass, hname, hr, finishBody,
    LabelGraph.resolve, patch, LabelGraph.offset, Fixup.bytes, limits, givenStackMap,
    stackMapTable, exceptionTable, Handlers.byteSize, Handlers.nonempty, Handlers.put,
    Handlers.putEntries, LabelGraph.lineNumberTable, LabelGraph.localVariableTable,
    Attribute.makeRaw, Attribute.make, AttributeBody.name, count16, Step.set_run, Except.bind,
    Except.pure, List.filterM, List.filterAuxM]

theorem castsAhead_decodes :
    inOrder 0 (castsAhead ++ [.maxs 1 301]) = true ∧
    (∀ event ∈ castsAhead, event.isProper = true) ∧
    ∃ final, ClassBuilder.feedMethod (castsAhead ++ [.maxs 1 301]) (ofSetting uncomputed .empty) =
      .ok () final ∧
    ∃ name maxStack maxLocals code table attributes decoded,
      final.body = some (name, .code maxStack maxLocals code table attributes) ∧
      Instruction.decode code = .ok decoded ∧
      List.Forall₂ (fun told i => i.1 = told.1 ∧ told.2.Tells final.graph final.pool i.2)
        (told castsAhead (ofSetting uncomputed .empty)) decoded.toList := by
  have horder : inOrder 0 (castsAhead ++ [.maxs 1 301]) = true := by decide
  have hproper : ∀ event ∈ castsAhead, event.isProper = true := by decide
  obtain ⟨final, hok⟩ := castsAhead_ends
  exact ⟨horder, hproper, final, hok, decode_of_maxs rfl horder hproper hok⟩

end MethodBuilder

end JvmClass
