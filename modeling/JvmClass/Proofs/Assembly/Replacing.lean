import JvmClass.Proofs.Assembly.Framing

/-!
# Dead code and nothing else is replaced

What a run with computed frames leaves (`MethodBuilder.framing_of_run`) differs from what the events
told only in blocks that are not reached: they throw, no handler covers them, and everything else
is as it was (`MethodBuilder.deadCode_replaced`).
-/

namespace JvmClass.MethodBuilder

variable {u : Unit}

/-- The frame at the start of code that is not reached: no locals, and something thrown. -/
theorem layout_unreachable : Frame.unreachable.layout = ⟨[], [.object "java/lang/Throwable"]⟩ := by
  decide +kernel

/-- A body that has been told in order, before its end: its blocks are arranged along the code, the
first of them is the entry, and none is marked as reached yet. -/
theorem coherent_of_run {setting : MethodSetting} {pool : ConstantPool}
    {events : List MethodEvent} {body : MethodBuilder} (hframes : setting.compute.frames = true)
    (horder : inOrder 0 events = true)
    (hearly : ∀ event ∈ events, ∀ n, event.stage = some n → n ≤ 3)
    (hbody : ClassBuilder.feedMethod events (ofSetting setting pool) = .ok () body) :
    body.Coherent ∧ body.setting = setting ∧ Marking 0 events (ofSetting setting pool) body ∧
      body.Begins ∧ body.graph.Unreached := by
  have hprepared := prepared_ofSetting setting pool
  obtain ⟨hc, hsetting⟩ := hprepared.run hframes horder hearly hbody
  have hm := hprepared.marking hframes horder hearly hbody
  have hbegins : body.Begins := hm.begins fun entry he => nomatch he
  exact ⟨hc, hsetting, hm, hbegins, hm.traces.unreached LabelGraph.unreached_empty⟩

/-- A run with computed frames, from the first event to the end of the body. -/
theorem framing_of_run {setting : MethodSetting} {pool : ConstantPool} {events : List MethodEvent}
    {stack locals : UInt16} {final : MethodBuilder} (hframes : setting.compute.frames = true)
    (horder : inOrder 0 (events ++ [.maxs stack locals]) = true)
    (hok : ClassBuilder.feedMethod (events ++ [.maxs stack locals]) (ofSetting setting pool) =
      .ok u final) :
    ∃ body patched limited entry flow table frames,
      ClassBuilder.feedMethod events (ofSetting setting pool) = .ok () body ∧
      body.setting = setting ∧ Marking 0 events (ofSetting setting pool) body ∧
      Analyzed body entry flow.graph ∧
      Framing body patched limited final entry flow table frames := by
  obtain ⟨-, hevents, hearly⟩ := inOrder_append_maxs horder
  obtain ⟨body, hbody, hmaxs⟩ := ClassBuilder.feedMethod_append.1 hok
  obtain ⟨_, done, hfeed, hdone⟩ := Step.bind_ok.1 hmaxs
  obtain ⟨-, rfl⟩ := Step.pure_ok.1 hdone
  obtain ⟨hc, hsetting, hm, hbegins, hunreached⟩ := coherent_of_run hframes hevents hearly hbody
  obtain ⟨patched, limited, entry, flow, table, frames, h⟩ :=
    framing_of_finish hc (by rw [hsetting]; exact hframes) hbegins hunreached hfeed
  exact ⟨body, patched, limited, entry, flow, table, frames, hbody, hsetting, hm,
    h.analyses.analyzed hc hbegins hunreached, h⟩

/-- Replacing dead code touches dead code only. Where frames are computed, every block that is not
empty and is not reached from the entry becomes `nop`s that end in one `athrow`, and has a frame
with nothing but a `java/lang/Throwable` on the stack. No entry of the stored exception table covers
it. At every other place the code is as it was when the distances were filled in, and the entries
that cover it are those that the events told of, in order: each with the place of its handler and the
class that it catches. -/
theorem deadCode_replaced {setting : MethodSetting} {pool : ConstantPool}
    {events : List MethodEvent} {stack locals : UInt16} {final : MethodBuilder}
    (hframes : setting.compute.frames = true)
    (horder : inOrder 0 (events ++ [.maxs stack locals]) = true)
    (hok : ClassBuilder.feedMethod (events ++ [.maxs stack locals]) (ofSetting setting pool) =
      .ok u final) :
    ∃ body patched entry flow name maxStack maxLocals code table others stackMap frames entries,
      ClassBuilder.feedMethod events (ofSetting setting pool) = .ok () body ∧
      patch body.fixups.toList { body with graph := body.graph.resolve } = .ok () patched ∧
      body.Analyses entry flow ∧
      final.body =
        some (name, .code maxStack maxLocals code table (others ++ stackMap)) ∧
      (∀ image : ClassImage, image.Holds final.pool →
        HoldsFrames image body.entryFrame.layout.locals frames stackMap) ∧
      Scan.runAt table 0 (Scan.counted ClassImage.readTableEntry) = .ok entries ∧
      code.size = patched.code.size ∧
      (∀ block start stop, flow.graph.Spans code.size flow.graph.blocks block start stop →
        ¬ flow.graph.Reaches entry block → start < stop →
        Spells code start (List.replicate (stop - start - 1) Opcode.nop ++ [Opcode.athrow]) ∧
        (start, ⟨[], [.object "java/lang/Throwable"]⟩) ∈ frames) ∧
      (∀ place, DeadAt code.size flow entry place → ∀ tried ∈ entries, tried.covers place = false) ∧
      ∀ place, ¬ DeadAt code.size flow entry place → code[place]? = patched.code[place]? ∧
        List.Forall₂ (fun told tried => final.graph.offset told.1 = .ok tried.handler.toNat ∧
            ∀ image : ClassImage, image.Holds final.pool →
              image.cls? tried.catchType = .ok told.2)
          (Handlers.covering flow.graph place (toldHandlers events))
          (entries.filter (·.covers place)) := by
  obtain ⟨body, patched, limited, entry, flow, table, frames, hbody, -, hm, -, h⟩ :=
    framing_of_run hframes horder hok
  obtain ⟨name, maxStack, maxLocals, others, stackMap, hends, hstored⟩ := h.ends
  obtain ⟨entries, hreads, hall⟩ := h.tabled
  have hf := h.framed
  have hsize := hf.size
  have hhandlers : patched.handlers.toList = toldHandlers events := by
    obtain ⟨code, hpatched⟩ := patch_ok h.filled
    rw [hpatched]
    exact hm.handlers.trans (List.nil_append _)
  refine ⟨body, patched, entry, flow, name, maxStack, maxLocals, limited.code, table, others,
    stackMap, frames, entries, hbody, h.filled, h.analyses, hends, hstored, hreads, hsize,
    fun block start stop hs hd hlt => ?_, fun place hd => ?_, fun place hl => ?_⟩
  · rw [hsize] at hs
    exact layout_unreachable ▸ hf.replaced block start stop hs hd hlt
  · have hcovering := Handlers.covering_stored hall place
    rw [h.graph, hf.uncovered place (hsize ▸ hd)] at hcovering
    have hnone := List.forall₂_nil_left_iff.1 hcovering
    intro tried ht
    exact Bool.eq_false_iff.2 (List.filter_eq_nil_iff.1 hnone tried ht)
  · rw [hsize] at hl
    refine ⟨hf.kept place hl, ?_⟩
    have hcovering := Handlers.covering_stored hall place
    rwa [h.graph, hf.covering place hl, hhandlers, ← h.graph] at hcovering

/-- A body that jumps over an instruction, which is protected by a handler. -/
def jumpsOver : List MethodEvent :=
  [.newLabels 2, .code, .handler ⟨0⟩ ⟨1⟩ ⟨1⟩ none, .jump Opcode.goto ⟨1⟩, .label ⟨0⟩,
    .plain Opcode.nop, .label ⟨1⟩, .plain Opcode.return_void]

/-- The control flow of the body when offsets are settled, with the edges out of the second block
and the marks of the blocks that can be reached. -/
def jumpsGraph (edges : Array Edge) (first third : Bool) : LabelGraph where
  labels := #[
    { position := some 3, offset := some 3, flags := ⟨true, false⟩, edges, chainIndex := some 1 },
    { position := some 4, offset := some 4, flags := ⟨true, third⟩, chainIndex := some 2 },
    { position := some 0, offset := some 0, flags := ⟨false, first⟩, edges := #[⟨.normal, ⟨1⟩⟩],
      chainIndex := some 0 }]
  chain := #[⟨2⟩, ⟨0⟩, ⟨1⟩]

/-- The body before its end. -/
def jumpsBody (code : Bytes) (graph : LabelGraph) (blocks : Std.HashMap Label BlockSummary) :
    MethodBuilder :=
  { ofSetting constructorOfC .empty with
    entry := some ⟨2⟩, code, graph, handlers := #[⟨⟨0⟩, ⟨1⟩, ⟨1⟩, none⟩], blocks,
    fixups := #[⟨0, 1, ⟨1⟩, false⟩] }

/-- The body is taken up: three blocks, of which nothing leads to the second. -/
theorem jumpsOver_run : LabelsMade jumpsOver (ofSetting constructorOfC .empty) ∧
    ∃ code graph blocks, ClassBuilder.feedMethod jumpsOver (ofSetting constructorOfC .empty) =
      .ok () (jumpsBody code graph blocks) ∧
    code = #[Opcode.goto, 0, 0, Opcode.nop, Opcode.return_void] ∧
    graph.resolve = jumpsGraph #[⟨.normal, ⟨1⟩⟩] false false ∧
    blocks[(⟨2⟩ : Label)]?.map (·.instructions.toList) = some [(0, .plain Opcode.goto)] ∧
    blocks[(⟨1⟩ : Label)]?.map (·.instructions.toList) = some [(4, .plain Opcode.return_void)] := by
  have hr : (default : AccessFlags .ofMethod).hasReceiver = true := by decide
  simp [LabelsMade, MethodEvent.targets, LabelGraph.size, jumpsOver, jumpsBody,
    ClassBuilder.feedMethod, feed, bind, EStateM.bind, Step.modify_run,
    beginCode, newLabel, onGraph, Step.on, LabelGraph.place, Step.get_run, pure, EStateM.pure,
    ofSetting, constructorOfC, LabelGraph.addLabels, LabelGraph.addLabel, LabelGraph.data?,
    LabelGraph.lastBlockAt?, LabelGraph.update, LabelGraph.nextLabel, LabelGraph.empty,
    plain, startInstruction, placeLabel, record, write, Compute.computesMaxs,
    Opcode.within, LabelGraph.blockOf, LabelGraph.position?, LabelGraph.markTarget,
    LabelGraph.setFlags, endBlock, splitBlock, Step.of, Bytes.putAll, Bytes.putU8, Bytes.putU16,
    Opcode.leavesMethod, bytes16, Opcode.return_void, BlockFlags.union, Opcode.athrow, Opcode.nop,
    MethodDescriptor.parameterSlots, Opcode.ireturn, hr, jump, jumpForm, putFixup, jumpTo,
    LabelGraph.addEdge, Opcode.isSubroutineCall, Opcode.isGoto, Opcode.isConditionalJump,
    Opcode.goto_w, Opcode.jsr_w, Opcode.goto, Opcode.jsr, Opcode.ifeq, Opcode.if_acmpne,
    Opcode.ifnonnull, Opcode.ifnull]
  refine ⟨?_, ?_, ?_⟩
  · simp [LabelGraph.resolve, jumpsGraph]
  · simp [Std.HashMap.getElem?_alter, BlockSummary.add]
  · simp [Std.HashMap.getElem?_alter, BlockSummary.add]

/-- The edges out of the second block: to the next one, and to the handler, which starts there. -/
def jumpsEdges : Array Edge :=
  #[⟨.normal, ⟨1⟩⟩, ⟨.caught (VType.instanceOf ClassName.throwable), ⟨1⟩⟩]

/-- The body as the frames are computed. -/
def jumpsFlow (blocks : Std.HashMap Label BlockSummary) : FlowSetting where
  graph := jumpsGraph jumpsEdges false false
  blocks
  hierarchy := Hierarchy.flat
  thisClass := ⟨"C"⟩

theorem jumpsGraph_complete :
    Handlers.completeTyped [⟨⟨0⟩, ⟨1⟩, ⟨1⟩, none⟩] (jumpsGraph #[⟨.normal, ⟨1⟩⟩] false false) =
      .ok () (jumpsGraph jumpsEdges false false) := by
  simp [Handlers.completeTyped, bind, EStateM.bind, ExceptionHandler.caughtType, Step.of, pure,
    EStateM.pure, Step.get_run, LabelGraph.coveredBlocks, LabelGraph.offset, LabelGraph.data?,
    jumpsGraph, LabelGraph.blocksBefore, LabelGraph.blockOf, LabelGraph.nextBlock?, Except.bind,
    Handlers.addEdges, LabelGraph.addEdge, LabelGraph.update, LabelGraph.markTarget,
    LabelGraph.setFlags, Step.modify_run, BlockFlags.union, jumpsEdges]

/-- The first and the last block are found, with the locals on entry. -/
theorem jumpsFlow_inputs {blocks : Std.HashMap Label BlockSummary}
    (h2 : blocks[(⟨2⟩ : Label)]?.map (·.instructions.toList) = some [(0, .plain Opcode.goto)])
    (h1 : blocks[(⟨1⟩ : Label)]?.map (·.instructions.toList) =
      some [(4, .plain Opcode.return_void)]) :
    ∃ r, (jumpsFlow blocks).inputs ⟨2⟩ (constructsFrame []) = .ok r ∧ r.maxStack < 65536 ∧
      r.frames[(⟨2⟩ : Label)]? = some (constructsFrame []) ∧
      r.frames[(⟨1⟩ : Label)]? = some (constructsFrame []) ∧ r.frames[(⟨0⟩ : Label)]? = none := by
  have hblock : (jumpsFlow blocks).graph.blockOf ⟨1⟩ = ⟨1⟩ := rfl
  obtain ⟨s, hfirst, hw, hmax, hs2, hs1, hs0⟩ :
      ∃ s, Inputs.Round (jumpsFlow blocks) (Inputs.start ⟨2⟩ (constructsFrame [])) s ∧
        s.waiting = [⟨1⟩] ∧ s.maxStack = 0 ∧
        s.frames[(⟨2⟩ : Label)]? = some (constructsFrame []) ∧
        s.frames[(⟨1⟩ : Label)]? = some (constructsFrame []) ∧ s.frames[(⟨0⟩ : Label)]? = none := by
    refine ⟨_, .of_frame (constructsFrame []) (constructsFrame []) 0 rfl ?_ ?_
      (.cons (.found ?_) (.nil _)), ?_, ?_, ?_, ?_, ?_⟩
    · simp [Inputs.start]
    · rw [FlowSetting.instructions_eq h2]
      rfl
    · simp [Inputs.start, hblock]
    · simp [Inputs.await, hblock]
    · simp [Inputs.await, hblock]
    · simp [Inputs.start, hblock, Std.HashMap.getElem_insert]
    · simp only [Inputs.frames_await, hblock, Std.HashMap.getElem?_insert_self]
      rfl
    · simp [Inputs.start, hblock]
  obtain ⟨r, hsecond, hdone, hrmax, hr2, hr1, hr0⟩ :
      ∃ r, Inputs.Round (jumpsFlow blocks) s r ∧ r.waiting = [] ∧ r.maxStack = 0 ∧
        r.frames[(⟨2⟩ : Label)]? = some (constructsFrame []) ∧
        r.frames[(⟨1⟩ : Label)]? = some (constructsFrame []) ∧ r.frames[(⟨0⟩ : Label)]? = none := by
    refine ⟨_, .of_frame _ (constructsFrame []) (max (max s.maxStack 0) 0) hw hs1 ?_ (.nil _), rfl,
      ?_, hs2, hs1, hs0⟩
    · rw [FlowSetting.instructions_eq h1]
      rfl
    · simp [hmax]
  refine ⟨r, ?_, by omega, hr2, hr1, hr0⟩
  exact (hfirst.settle _).trans ((hsecond.settle _).trans (Inputs.settle_of_waiting hdone _))

/-- Marking blocks other than the second leaves the rest of the control flow as it is. -/
theorem jumpsGraph_fold {frames : Std.HashMap Label Frame} (hfree : frames[(⟨0⟩ : Label)]? = none)
    (edges : Array Edge) : ∃ first third, frames.fold (fun g block _ => g.markReachable block)
      (jumpsGraph edges false false) = jumpsGraph edges first third := by
  have hother : ∀ entry ∈ frames.toList, entry.1 ≠ ⟨0⟩ := by
    rintro ⟨block, frame⟩ hmem rfl
    rw [Std.HashMap.mem_toList_iff_getElem?_eq_some.1 hmem] at hfree
    cases hfree
  rw [Std.HashMap.fold_eq_foldl_toList]
  generalize frames.toList = entries at hother
  suffices h : ∀ first third, ∃ first' third',
      entries.foldl (fun g entry => g.markReachable entry.1) (jumpsGraph edges first third) =
        jumpsGraph edges first' third' from h false false
  induction entries with
  | nil => exact fun first third => ⟨first, third, rfl⟩
  | cons entry rest ih =>
    intro first third
    have hmark : ∃ first' third', (jumpsGraph edges first third).markReachable entry.1 =
        jumpsGraph edges first' third' := by
      have hne := hother entry List.mem_cons_self
      simp only [LabelGraph.markReachable, LabelGraph.setFlags, LabelGraph.update,
        LabelGraph.blockOf, LabelGraph.data?, jumpsGraph, BlockFlags.union]
      obtain ⟨⟨_ | _ | _ | n⟩, f⟩ := entry
      · exact absurd rfl hne
      · exact ⟨first, true, by simp⟩
      · exact ⟨true, third, by simp⟩
      · exact ⟨first, third, by simp⟩
    obtain ⟨first', third', hmark⟩ := hmark
    rw [List.foldl_cons, hmark]
    exact ih (fun e he => hother e (List.mem_cons_of_mem _ he)) first' third'

/-- The body ends without an error. -/
theorem jumpsOver_ends : ∃ final,
    ClassBuilder.feedMethod (jumpsOver ++ [.maxs 0 0]) (ofSetting constructorOfC .empty) =
      .ok () final := by
  obtain ⟨-, code, graph, blocks, hrun, hcode, hgraph, h2, h1⟩ := jumpsOver_run
  obtain ⟨r, hr, hmax, hf2, hf1, hf0⟩ := jumpsFlow_inputs h2 h1
  obtain ⟨first, third, hfold⟩ := jumpsGraph_fold hf0 jumpsEdges
  have hempty : ConstantPool.empty.nextIndex.toNat ≤ 1 := by decide
  obtain ⟨i1, p1, hi1, r1⟩ :=
    ConstantPool.intern_of_room (.utf8 "java/lang/Throwable") hempty (by omega)
  obtain ⟨i2, p2, hi2, r2⟩ := ConstantPool.intern_of_room (.cls i1) r1 (by omega)
  obtain ⟨i3, p3, hi3, r3⟩ := ConstantPool.intern_of_room (.utf8 "StackMapTable") r2 (by omega)
  obtain ⟨i4, p4, hi4, r4⟩ := ConstantPool.intern_of_room (.utf8 "Code") r3 (by omega)
  have hthrowable : Text.ModifiedUtf8.encodedSize "java/lang/Throwable" < 65536 := by decide
  have htable : Text.ModifiedUtf8.encodedSize "StackMapTable" < 65536 := by decide
  have hname : Text.ModifiedUtf8.encodedSize "Code" < 65536 := by decide
  have hentry : (constructsFrame []).layout = ⟨[.uninitializedThis], []⟩ := by decide +kernel
  suffices h : ∃ final, finishBody 0 0 (jumpsBody code graph blocks) = .ok () final by
    obtain ⟨final, h⟩ := h
    exact ⟨final, ClassBuilder.feedMethod_append.2 ⟨_, hrun, Step.bind_ok.2 ⟨_, _, h, rfl⟩⟩⟩
  have hlimit : ¬ 65536 ≤ r.maxStack := by omega
  have h0 (e a b) : (jumpsGraph e a b).offset ⟨0⟩ = .ok 3 := rfl
  have h1 (e a b) : (jumpsGraph e a b).offset ⟨1⟩ = .ok 4 := rfl
  have h2 (e a b) : (jumpsGraph e a b).offset ⟨2⟩ = .ok 0 := rfl
  have hblocks (e a b) : (jumpsGraph e a b).blocks = [⟨2⟩, ⟨0⟩, ⟨1⟩] := rfl
  have hflags0 (e a b) : (jumpsGraph e a b).flags ⟨0⟩ = ⟨true, false⟩ := rfl
  have hflags1 (e a b) : (jumpsGraph e a b).flags ⟨1⟩ = ⟨true, b⟩ := rfl
  have hflags2 (e a b) : (jumpsGraph e a b).flags ⟨2⟩ = ⟨false, a⟩ := rfl
  have hframe : Frame.entry ⟨"C"⟩ false true ⟨[], none⟩ = constructsFrame [] := by decide
  have hreceiver : (default : AccessFlags .ofMethod).hasReceiver = true := by decide
  simp only [jumpsFlow] at hr
  simp [finishBody, limits, computeFrames, jumpsBody, ofSetting, constructorOfC, bind,
    EStateM.bind, Step.modify_run, onGraph, Step.on, Step.get_run, pure, EStateM.pure, Step.of,
    patch, Fixup.bytes, write, hcode, hgraph, replaceDead, blockEnd, Handlers.removeRange,
    Handlers.without, ExceptionHandler.without, jumpsGraph_complete, hr, entryFrame, hframe, hfold,
    placeFrames, h0, h1, h2, hblocks, hflags0, hflags1, hflags2, hf0, hf1, hf2, hlimit, hentry,
    layout_unreachable, stackMapTable, stackMapEntries, frameDelta, Layout.entryAfter,
    Layout.fullEntry, ask, StackMapEntry.resolve, resolveAll, NamedType.resolve,
    VerificationType.mapM, ConstantPool.cls, ConstantPool.utf8, hthrowable, htable, hname, hi1, hi2,
    hi3, hi4, Attribute.make, AttributeBody.name, count16, exceptionTable, Handlers.byteSize,
    Handlers.nonempty, ExceptionHandler.isEmpty, Handlers.put, Handlers.putEntries,
    LabelGraph.lineNumberTable, LabelGraph.localVariableTable, Attribute.makeRaw, Except.bind,
    Except.pure, List.filterM,
    List.filterAuxM, Step.set_run, hreceiver, MethodDescriptor.parameterSlots]

theorem deadCode_replaced_jumpsOver :
    inOrder 0 (jumpsOver ++ [.maxs 0 0]) = true ∧
    ∃ final, ClassBuilder.feedMethod (jumpsOver ++ [.maxs 0 0])
      (ofSetting constructorOfC .empty) = .ok () final ∧
    ∃ body patched entry flow name maxStack maxLocals code table others stackMap frames entries,
      ClassBuilder.feedMethod jumpsOver (ofSetting constructorOfC .empty) = .ok () body ∧
      patch body.fixups.toList { body with graph := body.graph.resolve } = .ok () patched ∧
      body.Analyses entry flow ∧
      final.body =
        some (name, .code maxStack maxLocals code table (others ++ stackMap)) ∧
      (∀ image : ClassImage, image.Holds final.pool →
        HoldsFrames image body.entryFrame.layout.locals frames stackMap) ∧
      Scan.runAt table 0 (Scan.counted ClassImage.readTableEntry) = .ok entries ∧
      code.size = patched.code.size ∧
      (∀ block start stop, flow.graph.Spans code.size flow.graph.blocks block start stop →
        ¬ flow.graph.Reaches entry block → start < stop →
        Spells code start (List.replicate (stop - start - 1) Opcode.nop ++ [Opcode.athrow]) ∧
        (start, ⟨[], [.object "java/lang/Throwable"]⟩) ∈ frames) ∧
      (∀ place, DeadAt code.size flow entry place → ∀ tried ∈ entries, tried.covers place = false) ∧
      ∀ place, ¬ DeadAt code.size flow entry place → code[place]? = patched.code[place]? ∧
        List.Forall₂ (fun told tried => final.graph.offset told.1 = .ok tried.handler.toNat ∧
            ∀ image : ClassImage, image.Holds final.pool →
              image.cls? tried.catchType = .ok told.2)
          (Handlers.covering flow.graph place (toldHandlers jumpsOver))
          (entries.filter (·.covers place)) := by
  have horder : inOrder 0 (jumpsOver ++ [.maxs 0 0]) = true := by decide
  obtain ⟨final, hok⟩ := jumpsOver_ends
  exact ⟨horder, final, hok, deadCode_replaced rfl horder hok⟩

end JvmClass.MethodBuilder
