import JvmClass.Proofs.Assembly.Blocks
import JvmClass.Proofs.Constant.Room
import JvmClass.Proofs.Flow.Coverage
import JvmClass.Proofs.Flow.FixedPoint

/-!
# Locals in protected ranges

A handler sees the locals at the start of the blocks that it protects. Stores end a block that a
handler could see, so that within a block the locals only change where a constructor call turns an
uninitialized object into an instance. The input of the handler covers the locals before every
protected instruction, except where it holds such an object that has been constructed by then.
-/

namespace JvmClass

namespace MethodBuilder

variable {b b' : MethodBuilder} {u : Unit}

/-- The setting in which the frames of a body are computed: labels have their offsets, and every
block of a protected range has an edge to the handler. -/
structure Analyses (b : MethodBuilder) (entry : Label) (flow : FlowSetting) : Prop where
  entry : b.entry = some entry
  graph : Handlers.completeTyped b.handlers.toList b.graph.resolve = .ok () flow.graph
  blocks : flow.blocks = b.blocks
  hierarchy : flow.hierarchy = b.setting.hierarchy
  thisClass : flow.thisClass = b.setting.thisClass

/-- Filling in branch distances changes the code alone. -/
theorem patch_ok {fixups : List Fixup} (h : patch fixups b = .ok u b') :
    ∃ code, b' = { b with code } := by
  induction fixups generalizing b with
  | nil =>
    obtain ⟨-, rfl⟩ := Step.pure_ok.1 h
    exact ⟨b.code, rfl⟩
  | cons fixup rest ih =>
    simp only [patch, Step.bind_ok, Step.get_ok, Step.of_ok] at h
    obtain ⟨_, _, ⟨rfl, rfl⟩, target, _, ⟨-, rfl⟩, bytes, _, ⟨-, rfl⟩, _, _, hwrite, hrest⟩ := h
    obtain rfl := write_ok hwrite
    obtain ⟨code, rfl⟩ := ih hrest
    exact ⟨code, rfl⟩

/-- A body that ends without an error has had its inputs computed. -/
theorem inputs_of_maxs {stack locals : UInt16} (hf : b.setting.compute.frames = true)
    (h : feed (.maxs stack locals) b = .ok u b') :
    ∃ entry flow inputs, b.Analyses entry flow ∧ flow.inputs entry b.entryFrame = .ok inputs := by
  simp only [feed, finishBody, Step.bind_ok, Step.get_ok] at h
  obtain ⟨_, _, ⟨rfl, rfl⟩, h⟩ := h
  cases hentry : b.entry with
  | none =>
    rw [hentry] at h
    exact absurd h (by simp [Step.throw_ok])
  | some entry =>
    rw [hentry] at h
    simp only [Step.bind_ok, Step.get_ok] at h
    obtain ⟨_, _, ⟨rfl, rfl⟩, h⟩ := h
    rw [Step.guard_ok] at h
    obtain ⟨-, h⟩ := h
    simp only [Step.bind_ok, Step.get_ok, Step.modify_ok] at h
    obtain ⟨_, _, rfl, _, _, ⟨rfl, rfl⟩, _, _, hpatch, _, _, hlimits, -⟩ := h
    obtain ⟨code, rfl⟩ := patch_ok hpatch
    simp only [limits, Step.bind_ok, Step.get_ok] at hlimits
    obtain ⟨_, _, ⟨rfl, rfl⟩, hlimits⟩ := hlimits
    rw [if_pos hf] at hlimits
    simp only [Step.bind_ok, onGraph, Step.on_ok, computeFrames, Step.get_ok, Step.of_ok] at hlimits
    obtain ⟨_, _, ⟨g, hg, rfl⟩, _, _, ⟨_, _, ⟨rfl, rfl⟩, inputs, _, ⟨hinputs, rfl⟩, -⟩, -⟩ :=
      hlimits
    exact ⟨entry, _, inputs, ⟨hentry, hg, rfl, rfl, rfl⟩, hinputs⟩

end MethodBuilder

/-- Objects whose constructor has not run. -/
def VType.isUninitialized : VType → Bool
  | .uninitializedThis | .uninitialized _ => true
  | _ => false

namespace Frame

/-- Locals that hold what they held, or instances of what was uninitialized. -/
def Initializes (f g : Frame) : Prop :=
  ∀ slot, g.local? slot = f.local? slot ∨
    (f.local? slot).isUninitialized = true ∧ ∃ c, g.local? slot = VType.instanceOf c

theorem Initializes.trans {f g k : Frame} (h : f.Initializes g) (h' : g.Initializes k) :
    f.Initializes k := by
  intro slot
  rcases h' slot with he | ⟨hu, hc⟩
  · rw [he]
    exact h slot
  · rcases h slot with he | ⟨-, c, he⟩
    · rw [he] at hu
      exact Or.inr ⟨hu, hc⟩
    · rw [he] at hu
      cases hu

theorem initializes_renamed {thisClass : ClassName} {type other : VType}
    (hc : VType.Constructs thisClass type other) (f : Frame) :
    f.Initializes (f.renamed type other) := by
  intro slot
  have hmap : (f.renamed type other).local? slot =
      if f.local? slot = type then other else f.local? slot := by
    rcases f.locals[slot]?.eq_none_or_eq_some with hl | ⟨t, hl⟩
    · simp [local?, renamed, hl, hc.ne_top.symm]
    · simp [local?, renamed, hl]
  rw [hmap]
  split
  · rename_i he
    right
    rw [he]
    cases hc with
    | this => exact ⟨rfl, _, rfl⟩
    | allocated allocation => exact ⟨rfl, _, rfl⟩
  · exact Or.inl rfl

/-- An instruction that is no store at most initializes locals. -/
theorem initializes_execute {thisClass : ClassName} {effect : Effect}
    {fault : Option SimulationFault} {f g : Frame} (hs : effect.isStore = false)
    (h : f.execute thisClass effect = (fault, g)) : f.Initializes g := by
  refine rel_execute ⟨fun f slot => Or.inl rfl, Initializes.trans, fun f _ _ _ slot => Or.inl rfl,
    fun f type slot => Or.inl rfl⟩ ?_ (fun _ f _ _ hc => initializes_renamed hc f) h
  simp [hs]

end Frame

namespace FlowSetting

variable {thisClass : ClassName} {peak height : Nat} {f g : Frame}

theorem simulate_append {front rest : List (Nat × Effect)}
    (h : simulate thisClass peak f (front ++ rest) = .ok (g, height)) :
    ∃ mid peak', simulate thisClass peak f front = .ok (mid, peak') ∧
      simulate thisClass peak' mid rest = .ok (g, height) := by
  induction front generalizing peak f with
  | nil => exact ⟨f, peak, rfl, h⟩
  | cons instruction front ih =>
    obtain ⟨offset, effect⟩ := instruction
    rw [List.cons_append] at h
    rw [simulate] at h ⊢
    split at h
    · cases h
    · exact ih h

/-- Instructions without stores at most initialize locals, and only if a constructor is called. -/
theorem initializes_simulate {instructions : List (Nat × Effect)}
    (hs : ∀ x ∈ instructions, x.2.isStore = false)
    (h : simulate thisClass peak f instructions = .ok (g, height)) :
    f.Initializes g ∧
      ((∀ x ∈ instructions, x.2.isConstruction = false) → g.locals = f.locals) := by
  induction instructions generalizing peak f with
  | nil =>
    cases h
    exact ⟨fun slot => Or.inl rfl, fun _ => rfl⟩
  | cons instruction rest ih =>
    obtain ⟨offset, effect⟩ := instruction
    unfold simulate at h
    split at h
    · cases h
    · rename_i mid he
      have hstore := hs (offset, effect) List.mem_cons_self
      obtain ⟨h1, h2⟩ := ih (fun x hx => hs x (List.mem_cons_of_mem _ hx)) h
      refine ⟨(Frame.initializes_execute hstore he).trans h1, fun hc => ?_⟩
      rw [h2 fun x hx => hc x (List.mem_cons_of_mem _ hx)]
      exact Frame.execute_locals hstore (hc (offset, effect) List.mem_cons_self) he

end FlowSetting

/-- Where a local covers the one that it was merged with, it covers what that one becomes unless it
holds an object that is initialized on the way. -/
theorem VType.meet_initialized {h : Hierarchy} {caught old new : VType}
    (hc : caught.meet h old = caught)
    (hn : new = old ∨ old.isUninitialized = true ∧ ∃ c, new = instanceOf c) :
    caught.meet h new = caught ↔ ¬ (caught.isUninitialized = true ∧ new ≠ caught) := by
  rcases hn with rfl | ⟨hu, c, rfl⟩
  · refine ⟨?_, fun _ => hc⟩
    rintro - ⟨hu, hne⟩
    unfold meet at hc
    cases hj : caught.join h new with
    | none =>
      rw [hj] at hc
      rw [← hc] at hu
      cases hu
    | some joined =>
      rcases join_cases hj with ⟨he, -⟩ | ⟨he, -⟩ | ⟨⟨r, he⟩, -⟩ | ⟨r, t, -, he, -⟩
      · exact hne he.symm
      · rw [he] at hu
        cases hu
      · rw [he] at hu
        cases hu
      · rw [he] at hu
        cases hu
  · have hold : caught = old ∨ caught = .top := by
      apply meet_eq_left_of_uninitialized _ _ hc
      · rintro t rfl
        cases hu
      · rintro rfl
        cases hu
    rcases hold with rfl | rfl
    · constructor
      · intro hm
        exfalso
        have hi : (instanceOf c : VType).isUninitialized = false := rfl
        unfold meet at hm
        cases hj : caught.join h (instanceOf c) with
        | none =>
          rw [hj] at hm
          rw [← hm] at hu
          cases hu
        | some joined =>
          rcases join_cases hj with ⟨he, -⟩ | ⟨he, -⟩ | ⟨⟨r, he⟩, -⟩ | ⟨r, t, -, he, -⟩
          · rw [he, hi] at hu
            cases hu
          · rw [he] at hu
            cases hu
          · rw [he] at hu
            cases hu
          · rw [he] at hu
            cases hu
      · intro hn
        exfalso
        apply hn
        refine ⟨hu, ?_⟩
        rintro rfl
        cases hu
    · simp [isUninitialized]

namespace ClassBuilder

open MethodBuilder

/-- Events are taken up one part after the other. -/
theorem feedMethod_append {front rest : List MethodEvent} {b b' : MethodBuilder} {u : Unit} :
    feedMethod (front ++ rest) b = .ok u b' ↔
      ∃ mid, feedMethod front b = .ok () mid ∧ feedMethod rest mid = .ok u b' := by
  induction front generalizing b with
  | nil =>
    constructor
    · exact fun h => ⟨b, rfl, h⟩
    · rintro ⟨mid, h1, h2⟩
      obtain ⟨-, rfl⟩ := Step.pure_ok.1 h1
      exact h2
  | cons event front ih =>
    constructor
    · intro h
      obtain ⟨_, next, h1, h2⟩ := Step.bind_ok.1 h
      obtain ⟨mid, h3, h4⟩ := ih.1 h2
      exact ⟨mid, Step.bind_ok.2 ⟨_, next, h1, h3⟩, h4⟩
    · rintro ⟨mid, h3, h4⟩
      obtain ⟨_, next, h1, h2⟩ := Step.bind_ok.1 h3
      exact Step.bind_ok.2 ⟨_, next, h1, ih.2 ⟨mid, h2, h4⟩⟩

end ClassBuilder

namespace MethodBuilder

variable {b : MethodBuilder} {entry block : Label} {flow : FlowSetting} {r : Inputs} {input : Frame}

namespace Analyses

/-- The instructions that are simulated are the ones that were recorded. -/
theorem instructions (ha : b.Analyses entry flow) (block : Label) :
    flow.instructions block = b.instructionsOf block := by
  unfold FlowSetting.instructions MethodBuilder.instructionsOf
  rw [ha.blocks]
  cases b.blocks[block]? <;> rfl

/-- A block with an instruction in a protected range has an edge to the handler. -/
theorem caught_edge (ha : b.Analyses entry flow) (hc : b.Coherent) {x : Nat × Effect}
    (hx : x ∈ b.instructionsOf block) {handler : ExceptionHandler} {start stop : Nat}
    (hh : handler ∈ b.handlers.toList) (hstart : flow.graph.offset handler.start = .ok start)
    (hstop : flow.graph.offset handler.stop = .ok stop) (hle : start ≤ x.1) (hlt : x.1 < stop) :
    ∃ type, ⟨.caught type, handler.handler⟩ ∈ flow.graph.edges block := by
  have hlayout := LabelGraph.sameLayout_resolve b.graph
  have ht := hc.tiled.sameLayout hlayout
  obtain ⟨hw, hedges⟩ := Handlers.completeTyped_ok ha.graph
  obtain ⟨type, blocks, -, hblocks, hedge⟩ := hedges handler hh
  rw [hw.offset] at hstart hstop
  have hfirst : b.graph.resolve.position? handler.start = some start := by
    rw [LabelGraph.offset_resolve] at hstart
    rw [hlayout.position?]
    cases hp : b.graph.position? handler.start with
    | none =>
      rw [hp] at hstart
      cases hstart
    | some p =>
      rw [hp] at hstart
      cases hstart
      rfl
  obtain ⟨j, hj⟩ := hc.chained block (List.ne_nil_of_mem hx)
  have hwithin := (hc.located block x hx).mono hlayout (Nat.le_refl _)
  obtain ⟨p, hp, hpx⟩ := hwithin.started
  rw [← hlayout.chain] at hj
  refine ⟨type, hedge block ?_⟩
  refine (LabelGraph.mem_coveredBlocks_iff ht (LabelGraph.settled_resolve _) hblocks hfirst hstop
    hj hp).2 ⟨?_, ?_⟩
  · -- If the block started before the range, the next block would start before the instruction.
    by_contra hlow
    obtain ⟨⟨i, hi⟩, hpi⟩ := ht.placed handler.start start hfirst
    have hij := ht.index_le hj hi hp hpi (by omega)
    have hne : i ≠ j := by
      rintro rfl
      rw [hi] at hj
      cases hj
      rw [hp] at hpi
      cases hpi
      omega
    have hsize := (Array.getElem?_eq_some_iff.1 hi).1
    have hnext : b.graph.resolve.chain[j + 1]? = some b.graph.resolve.chain[j + 1] :=
      Array.getElem?_eq_getElem (by omega)
    obtain ⟨q, -, hq⟩ := ht.position hnext
    have hbefore := hwithin.beforeNext j _ q hj hnext hq
    have hqs : q ≤ start := by
      by_cases he : j + 1 = i
      · subst he
        rw [hi] at hnext
        rw [← Option.some.inj hnext, hpi] at hq
        cases hq
        exact Nat.le_refl _
      · exact Nat.le_of_lt (ht.ascending (j + 1) i _ _ q start (by omega) hnext hi hq hpi)
    omega
  · omega

/-- The input of a handler covers the locals at the start of the blocks that have an edge to it. -/
theorem caught_covers (hc : Inputs.Consistent flow (· ∈ r.frames) r) (hw : r.waiting = [])
    (hi : r.frames[block]? = some input) {type : VType} {handler : Label}
    (he : ⟨.caught type, handler⟩ ∈ flow.graph.edges block) :
    ∃ caught, r.frames[flow.graph.blockOf handler]? = some caught ∧
      ∀ slot, (caught.local? slot).meet flow.hierarchy (input.local? slot) =
        caught.local? slot := by
  have hnot : block ∉ r.waiting := by
    rw [hw]
    exact List.not_mem_nil
  obtain ⟨output, height, -, hheld⟩ := hc.settled block hnot input hi
  obtain ⟨caught, hcaught, hcov⟩ := hheld _ he
  exact ⟨caught, hcaught, fun slot => hcov.locals slot⟩

end Analyses

/-- Under handlers, only the last instruction of a block stores. -/
theorem Coherent.no_store_before (hc : b.Coherent) (hh : b.handlers.isEmpty = false)
    {front rest : List (Nat × Effect)} {last : Nat × Effect}
    (hi : b.instructionsOf block = front ++ last :: rest) : ∀ x ∈ front, x.2.isStore = false := by
  intro x hx
  obtain ⟨before, after, rfl⟩ := List.append_of_mem hx
  rw [List.append_assoc, List.cons_append] at hi
  rw [← Bool.not_eq_true]
  intro hs
  have hnil := hc.stores hh block _ x _ hi hs
  exact absurd hnil (by simp)

/-- Handlers cover what they protect, except for objects that are initialized on the way: for every
instruction of a block that is reached, the input of every handler whose range holds the instruction
covers the locals before it, but for slots that are uninitialized objects in the input of the
handler and something else before the instruction. The locals are the ones at the start of the block
unless a constructor is called in between. -/
theorem handlers_cover_unless_initialized {table : Superclasses} {setting : MethodSetting}
    {pool : ConstantPool} {events : List MethodEvent} {stack locals : UInt16} {u : Unit}
    {final : MethodBuilder} (hh : setting.hierarchy = table.hierarchy)
    (hf : setting.compute.frames = true)
    (horder : inOrder 0 (events ++ [.maxs stack locals]) = true)
    (hok : ClassBuilder.feedMethod (events ++ [.maxs stack locals]) (ofSetting setting pool) =
      .ok u final) :
    ∃ body entry flow r,
      ClassBuilder.feedMethod events (ofSetting setting pool) = .ok () body ∧
      body.Analyses entry flow ∧ flow.inputs entry body.entryFrame = .ok r ∧
      ∀ block input, r.frames[block]? = some input →
      ∀ front offset effect rest, flow.instructions block = front ++ (offset, effect) :: rest →
      ∃ before height,
        FlowSetting.simulate flow.thisClass 0 input front = .ok (before, height) ∧
        ∀ handler ∈ body.handlers, ∀ start stop, flow.graph.offset handler.start = .ok start →
          flow.graph.offset handler.stop = .ok stop → start ≤ offset → offset < stop →
          ((∀ x ∈ front, x.2.isConstruction = false) → before.locals = input.locals) ∧
          ∃ caught, r.frames[flow.graph.blockOf handler.handler]? = some caught ∧
            ∀ slot, (caught.local? slot).meet flow.hierarchy (before.local? slot) =
                caught.local? slot ↔
              ¬ ((caught.local? slot).isUninitialized = true ∧
                before.local? slot ≠ caught.local? slot) := by
  obtain ⟨-, hevents, hearly⟩ := inOrder_append_maxs horder
  obtain ⟨body, hbody, hmaxs⟩ := ClassBuilder.feedMethod_append.1 hok
  obtain ⟨hc, hsetting⟩ :=
    (prepared_ofSetting setting pool).run hf hevents hearly hbody
  obtain ⟨_, final', hfeed, -⟩ := Step.bind_ok.1 hmaxs
  have hframes : body.setting.compute.frames = true := by
    rw [hsetting]
    exact hf
  obtain ⟨entry, flow, r, ha, hr⟩ := inputs_of_maxs hframes hfeed
  refine ⟨body, entry, flow, r, hbody, ha, hr, ?_⟩
  have hl : flow.hierarchy.Lawful := by
    rw [ha.hierarchy, hsetting]
    exact hh ▸ table.lawful
  have hstack : body.entryFrame.stack.toList = [] := by
    unfold entryFrame
    rw [Frame.entry_stack]
    rfl
  obtain ⟨hconsistent, hwaiting⟩ :=
    Inputs.consistent_of_inputs hl (Frame.regular_entry _ _ _ _) hstack hr
  intro block input hinput front offset effect rest hinstructions
  have hnot : block ∉ r.waiting := by
    rw [hwaiting]
    exact List.not_mem_nil
  obtain ⟨output, height, hsim, -⟩ := hconsistent.settled block hnot input hinput
  rw [hinstructions] at hsim
  obtain ⟨before, height', hbefore, -⟩ := FlowSetting.simulate_append hsim
  rw [ha.instructions] at hinstructions
  refine ⟨before, height', hbefore, fun handler hmem start stop hstart hstop hle hlt => ?_⟩
  have hne : body.handlers.isEmpty = false := by
    rw [Array.isEmpty_eq_false_iff]
    exact Array.ne_empty_of_mem hmem
  have hstores := hc.no_store_before hne hinstructions
  obtain ⟨hlocals, hsame⟩ := FlowSetting.initializes_simulate hstores hbefore
  have hx : (offset, effect) ∈ body.instructionsOf block := by
    rw [hinstructions]
    exact List.mem_append_right _ List.mem_cons_self
  obtain ⟨type, hedge⟩ :=
    ha.caught_edge hc hx (Array.mem_toList_iff.2 hmem) hstart hstop hle hlt
  obtain ⟨caught, hcaught, hcovers⟩ := Analyses.caught_covers hconsistent hwaiting hinput hedge
  exact ⟨hsame, caught, hcaught, fun slot => VType.meet_initialized (hcovers slot) (hlocals slot)⟩

/-- The constructor of a class `C` without parameters. -/
def constructorOfC : MethodSetting where
  compute := ⟨false, true⟩
  copiedPool := false
  hierarchy := Hierarchy.flat
  thisClass := ⟨"C"⟩
  flags := default
  isConstructor := true
  descriptor := ⟨[], none⟩
  nameIndex := 1
  descriptorIndex := 2
  signature := none
  exceptions := []

/-- A body that calls the constructor of the superclass and returns, all of it protected by a
handler that throws what it catches. -/
def constructsInRange : List MethodEvent :=
  [.newLabels 2, .code, .handler ⟨0⟩ ⟨1⟩ ⟨1⟩ none, .label ⟨0⟩, .access Opcode.aload 0,
    .method Opcode.invokespecial "java/lang/Object" "<init>" "()V" false, .plain Opcode.return_void,
    .label ⟨1⟩, .plain Opcode.athrow]

/-- The control flow of the body when offsets are settled, with the edges out of the first block
and the marks of the blocks that can be reached. -/
def constructsGraph (edges : Array Edge) (first second : Bool) : LabelGraph where
  labels := #[{ position := some 0, offset := some 0, leader := some ⟨2⟩ },
    { position := some 5, offset := some 5, flags := ⟨true, second⟩, chainIndex := some 1 },
    { position := some 0, offset := some 0, flags := ⟨false, first⟩, edges, chainIndex := some 0 }]
  chain := #[⟨2⟩, ⟨1⟩]

/-- The body before its end. -/
def constructsBody (pool : ConstantPool) (code : Bytes) (graph : LabelGraph)
    (blocks : Std.HashMap Label BlockSummary) : MethodBuilder :=
  { ofSetting constructorOfC pool with
    entry := some ⟨2⟩, code, graph, handlers := #[⟨⟨0⟩, ⟨1⟩, ⟨1⟩, none⟩], blocks, maxLocals := 1 }

/-- The body is taken up: it has two blocks, one with the call and one with the handler. -/
theorem constructsInRange_run : ∃ pool code graph blocks,
    ClassBuilder.feedMethod constructsInRange (ofSetting constructorOfC .empty) =
      .ok () (constructsBody pool code graph blocks) ∧
    pool.nextIndex.toNat ≤ 13 ∧ code.size = 6 ∧
    graph.resolve = constructsGraph #[] false false ∧
    blocks[(⟨2⟩ : Label)]?.map (·.instructions.toList) =
      some [(0, .access Opcode.aload 0), (1, .invoke Opcode.invokespecial true ⟨[], none⟩),
        (4, .plain Opcode.return_void)] ∧
    blocks[(⟨1⟩ : Label)]?.map (·.instructions.toList) = some [(5, .plain Opcode.athrow)] := by
  have hempty : ConstantPool.empty.nextIndex.toNat ≤ 1 := by decide
  obtain ⟨i1, p1, h1, r1⟩ :=
    ConstantPool.intern_of_room (.utf8 "java/lang/Object") hempty (by omega)
  obtain ⟨i2, p2, h2, r2⟩ := ConstantPool.intern_of_room (.cls i1) r1 (by omega)
  obtain ⟨i3, p3, h3, r3⟩ := ConstantPool.intern_of_room (.utf8 "<init>") r2 (by omega)
  obtain ⟨i4, p4, h4, r4⟩ := ConstantPool.intern_of_room (.utf8 "()V") r3 (by omega)
  obtain ⟨i5, p5, h5, r5⟩ := ConstantPool.intern_of_room (.nameAndType i3 i4) r4 (by omega)
  obtain ⟨i6, p6, h6, r6⟩ := ConstantPool.intern_of_room (.methodRef i2 i5 false) r5 (by omega)
  have hobject : Text.ModifiedUtf8.encodedSize "java/lang/Object" < 65536 := by decide
  have hinit : Text.ModifiedUtf8.encodedSize "<init>" < 65536 := by decide
  have hvoid : Text.ModifiedUtf8.encodedSize "()V" < 65536 := by decide
  have hd : parseDescriptor MethodDescriptor "()V" = .ok ⟨[], none⟩ := by rfl
  have hc : isConstructorName "<init>" = true := by decide
  have hr : (default : AccessFlags .ofMethod).hasReceiver = true := by decide
  simp [constructsInRange, ClassBuilder.feedMethod, feed, bind, EStateM.bind, Step.modify_run,
    beginCode, newLabel, onGraph, Step.on, LabelGraph.place, Step.get_run, pure, EStateM.pure,
    ofSetting, constructorOfC, LabelGraph.addLabels, LabelGraph.addLabel, LabelGraph.data?,
    LabelGraph.lastBlockAt?, LabelGraph.update, LabelGraph.nextLabel, LabelGraph.empty, access,
    plain, startInstruction, placeLabel, record, touchLocal, write, Compute.computesMaxs, Opcode.isStore,
    Opcode.isLoad, Opcode.within, Opcode.aload, Opcode.istore, Opcode.iload, Opcode.astore,
    Opcode.ret, LabelGraph.blockOf, LabelGraph.position?, LabelGraph.markTarget,
    LabelGraph.setFlags, endBlock, splitBlock, Step.of, accessBytes, Bytes.putAll, Bytes.putU8, Bytes.putU16,
    Opcode.isWideAccess, Opcode.lload, Opcode.dload, Opcode.lstore, Opcode.dstore,
    Opcode.leavesMethod, bytes16, Opcode.return_void, BlockFlags.union, Opcode.athrow,
    MethodDescriptor.parameterSlots, Opcode.ireturn, method, ask, ConstantPool.methodRef,
    ConstantPool.cls, ConstantPool.utf8, ConstantPool.nameAndType, h1, h2, h3, h4, h5, h6, hobject,
    hinit, hvoid, hd, hc, hr, Opcode.invokespecial, Opcode.invokeinterface]
  refine ⟨p6, _, _, _, rfl, r6, rfl, ?_, ?_, ?_⟩
  · simp [LabelGraph.resolve, constructsGraph]
  · simp [Std.HashMap.getElem?_alter, BlockSummary.add]
  · simp [Std.HashMap.getElem?_alter, BlockSummary.add]

/-- The edge to the handler. -/
def constructsEdge : Edge := ⟨.caught (VType.instanceOf ClassName.throwable), ⟨1⟩⟩

/-- The body as the frames are computed. -/
def constructsFlow (blocks : Std.HashMap Label BlockSummary) : FlowSetting where
  graph := constructsGraph #[constructsEdge] false false
  blocks
  hierarchy := Hierarchy.flat
  thisClass := ⟨"C"⟩

theorem constructsGraph_complete :
    Handlers.completeTyped [⟨⟨0⟩, ⟨1⟩, ⟨1⟩, none⟩] (constructsGraph #[] false false) =
      .ok () (constructsGraph #[constructsEdge] false false) := by
  simp [Handlers.completeTyped, bind, EStateM.bind, ExceptionHandler.caughtType, Step.of, pure,
    EStateM.pure, Step.get_run, LabelGraph.coveredBlocks, LabelGraph.offset, LabelGraph.data?,
    constructsGraph, LabelGraph.blocksBefore,
    LabelGraph.blockOf, LabelGraph.nextBlock?, Except.bind, Handlers.addEdges,
    LabelGraph.addEdge, LabelGraph.update, LabelGraph.markTarget, LabelGraph.setFlags,
    Step.modify_run, BlockFlags.union, constructsEdge]

/-- Marking blocks leaves the control flow as it is. -/
theorem constructsGraph_fold (frames : Std.HashMap Label Frame) (edges : Array Edge) :
    ∃ first second, frames.fold (fun g block _ => g.markReachable block)
      (constructsGraph edges false false) = constructsGraph edges first second := by
  rw [Std.HashMap.fold_eq_foldl_toList]
  generalize frames.toList = entries
  suffices h : ∀ first second, ∃ first' second',
      entries.foldl (fun g entry => g.markReachable entry.1) (constructsGraph edges first second) =
        constructsGraph edges first' second' from h false false
  induction entries with
  | nil => exact fun first second => ⟨first, second, rfl⟩
  | cons entry rest ih =>
    intro first second
    have hmark : ∃ first' second', (constructsGraph edges first second).markReachable entry.1 =
        constructsGraph edges first' second' := by
      simp only [LabelGraph.markReachable, LabelGraph.setFlags, LabelGraph.update,
        LabelGraph.blockOf, LabelGraph.data?, constructsGraph, BlockFlags.union]
      obtain ⟨⟨_ | _ | _ | n⟩, f⟩ := entry
      · exact ⟨true, second, by simp⟩
      · exact ⟨first, true, by simp⟩
      · exact ⟨true, second, by simp⟩
      · exact ⟨first, second, by simp⟩
    obtain ⟨first', second', hmark⟩ := hmark
    rw [List.foldl_cons, hmark]
    exact ih first' second'

/-- A frame of the body whose only local is not initialized. -/
def constructsFrame (stack : List VType) : Frame := ⟨#[.uninitializedThis], SlotVec.ofList stack⟩

theorem entryFrame_constructsBody (pool : ConstantPool) (code : Bytes) (graph : LabelGraph)
    (blocks : Std.HashMap Label BlockSummary) :
    (constructsBody pool code graph blocks).entryFrame = constructsFrame [] := by
  show Frame.entry ⟨"C"⟩ (!(default : AccessFlags .ofMethod).hasReceiver) true ⟨[], none⟩ = _
  decide

/-- The call initializes the local. -/
theorem simulate_constructor (peak : Nat) (rest : List (Nat × Effect)) :
    FlowSetting.simulate ⟨"C"⟩ peak (constructsFrame [])
        ((0, .access Opcode.aload 0) ::
          (1, .invoke Opcode.invokespecial true ⟨[], none⟩) :: rest) =
      FlowSetting.simulate ⟨"C"⟩ (max (max peak 1) 0) ⟨#[VType.instanceOf ⟨"C"⟩], .empty⟩ rest := by
  have hload : Frame.execute ⟨"C"⟩ (.access Opcode.aload 0) (constructsFrame []) =
      (none, constructsFrame [.uninitializedThis]) := rfl
  have hcall : Frame.execute ⟨"C"⟩ (.invoke Opcode.invokespecial true ⟨[], none⟩)
      (constructsFrame [.uninitializedThis]) = (none, ⟨#[VType.instanceOf ⟨"C"⟩], .empty⟩) := by
    decide +kernel
  rw [FlowSetting.simulate, hload]
  simp only [FlowSetting.simulate, hcall]
  rfl

/-- The handler is entered with the local that the first block starts with. -/
theorem constructsFlow_inputs {blocks : Std.HashMap Label BlockSummary}
    (h2 : blocks[(⟨2⟩ : Label)]?.map (·.instructions.toList) =
      some [(0, .access Opcode.aload 0), (1, .invoke Opcode.invokespecial true ⟨[], none⟩),
        (4, .plain Opcode.return_void)])
    (h1 : blocks[(⟨1⟩ : Label)]?.map (·.instructions.toList) = some [(5, .plain Opcode.athrow)]) :
    ∃ r, (constructsFlow blocks).inputs ⟨2⟩ (constructsFrame []) = .ok r ∧ r.maxStack < 65536 ∧
      r.frames[(⟨2⟩ : Label)]? = some (constructsFrame []) ∧
      r.frames[(⟨1⟩ : Label)]? =
        some (constructsFrame [VType.instanceOf ClassName.throwable]) := by
  have hblock : (constructsFlow blocks).graph.blockOf ⟨1⟩ = ⟨1⟩ := rfl
  obtain ⟨s, hfirst, hw, hmax, hs2, hs1⟩ :
      ∃ s, Inputs.Round (constructsFlow blocks) (Inputs.start ⟨2⟩ (constructsFrame [])) s ∧
        s.waiting = [⟨1⟩] ∧ s.maxStack = 1 ∧
        s.frames[(⟨2⟩ : Label)]? = some (constructsFrame []) ∧
        s.frames[(⟨1⟩ : Label)]? =
          some (constructsFrame [VType.instanceOf ClassName.throwable]) := by
    refine ⟨_, .of_frame (constructsFrame []) ⟨#[VType.instanceOf ⟨"C"⟩], .empty⟩ 1 rfl ?_ ?_
      (.cons (.found ?_) (.nil _)), ?_, ?_, ?_, ?_⟩
    · simp [Inputs.start]
    · rw [FlowSetting.instructions_eq h2]
      exact simulate_constructor _ _
    · simp [Inputs.start, hblock, constructsEdge]
    · simp [Inputs.await, hblock, constructsEdge]
    · simp [Inputs.await, hblock, constructsEdge]
    · simp [Inputs.start, hblock, constructsEdge, Std.HashMap.getElem_insert]
    · simp only [Inputs.frames_await, constructsEdge, hblock, Std.HashMap.getElem?_insert_self]
      rfl
  obtain ⟨r, hsecond, hdone, hrmax, hr2, hr1⟩ :
      ∃ r, Inputs.Round (constructsFlow blocks) s r ∧ r.waiting = [] ∧ r.maxStack = 1 ∧
        r.frames[(⟨2⟩ : Label)]? = some (constructsFrame []) ∧
        r.frames[(⟨1⟩ : Label)]? =
          some (constructsFrame [VType.instanceOf ClassName.throwable]) := by
    refine ⟨_, .of_frame _ (constructsFrame []) (max (max s.maxStack 1) 0) hw hs1 ?_ (.nil _), rfl,
      ?_, hs2, hs1⟩
    · rw [FlowSetting.instructions_eq h1]
      rfl
    · simp [hmax]
  refine ⟨r, ?_, by omega, hr2, hr1⟩
  exact (hfirst.settle _).trans ((hsecond.settle _).trans (Inputs.settle_of_waiting hdone _))

/-- The body ends without an error. -/
theorem constructsInRange_ends : ∃ final,
    ClassBuilder.feedMethod (constructsInRange ++ [.maxs 0 0])
      (ofSetting constructorOfC .empty) = .ok () final := by
  obtain ⟨pool, code, graph, blocks, hrun, hpool, hcode, hgraph, h2, h1⟩ := constructsInRange_run
  obtain ⟨r, hr, hmax, hf2, hf1⟩ := constructsFlow_inputs h2 h1
  obtain ⟨first, second, hfold⟩ := constructsGraph_fold r.frames #[constructsEdge]
  obtain ⟨i1, p1, hi1, r1⟩ :=
    ConstantPool.intern_of_room (.utf8 "java/lang/Throwable") hpool (by omega)
  obtain ⟨i2, p2, hi2, r2⟩ := ConstantPool.intern_of_room (.cls i1) r1 (by omega)
  obtain ⟨i3, p3, hi3, r3⟩ := ConstantPool.intern_of_room (.utf8 "StackMapTable") r2 (by omega)
  obtain ⟨i4, p4, hi4, r4⟩ := ConstantPool.intern_of_room (.utf8 "Code") r3 (by omega)
  have hthrowable : Text.ModifiedUtf8.encodedSize "java/lang/Throwable" < 65536 := by decide
  have htable : Text.ModifiedUtf8.encodedSize "StackMapTable" < 65536 := by decide
  have hname : Text.ModifiedUtf8.encodedSize "Code" < 65536 := by decide
  have hentry : (constructsFrame []).layout = ⟨[.uninitializedThis], []⟩ := by decide +kernel
  have hcaught : (constructsFrame [VType.instanceOf ClassName.throwable]).layout =
      ⟨[.uninitializedThis], [.object "java/lang/Throwable"]⟩ := by decide +kernel
  suffices h : ∃ final, finishBody 0 0 (constructsBody pool code graph blocks) = .ok () final by
    obtain ⟨final, h⟩ := h
    exact ⟨final, ClassBuilder.feedMethod_append.2 ⟨_, hrun, Step.bind_ok.2 ⟨_, _, h, rfl⟩⟩⟩
  have hlimit : ¬ 65536 ≤ r.maxStack := by omega
  have h0 (e a b) : (constructsGraph e a b).offset ⟨0⟩ = .ok 0 := rfl
  have h1 (e a b) : (constructsGraph e a b).offset ⟨1⟩ = .ok 5 := rfl
  have h2 (e a b) : (constructsGraph e a b).offset ⟨2⟩ = .ok 0 := rfl
  have hblocks (e a b) : (constructsGraph e a b).blocks = [⟨2⟩, ⟨1⟩] := rfl
  have hflags1 (e a b) : (constructsGraph e a b).flags ⟨1⟩ = ⟨true, b⟩ := rfl
  have hflags2 (e a b) : (constructsGraph e a b).flags ⟨2⟩ = ⟨false, a⟩ := rfl
  have hframe : Frame.entry ⟨"C"⟩ (!(default : AccessFlags .ofMethod).hasReceiver) true
      ⟨[], none⟩ = constructsFrame [] := by
    decide
  simp only [constructsFlow] at hr
  simp [finishBody, limits, computeFrames, constructsBody, ofSetting, constructorOfC, bind,
    EStateM.bind, Step.modify_run, onGraph, Step.on, Step.get_run, pure, EStateM.pure, Step.of,
    patch, hgraph,
    constructsGraph_complete, hr, entryFrame, hframe, hfold, placeFrames, h0, h1, h2, hblocks,
    hflags1, hflags2, hf1, hf2, hlimit, hcode, hentry, hcaught, stackMapTable, stackMapEntries,
    frameDelta, Layout.entryAfter, ask, StackMapEntry.resolve, NamedType.resolve,
    VerificationType.mapM, ConstantPool.cls, ConstantPool.utf8, hthrowable, htable, hname, hi1, hi2,
    hi3, hi4, Attribute.make, AttributeBody.name, count16, exceptionTable, Handlers.byteSize,
    Handlers.nonempty, ExceptionHandler.isEmpty, Handlers.put, Handlers.putEntries,
    Handlers.putEntry, Handlers.putPlace, LabelGraph.codeOffset, LabelGraph.lineNumberTable,
    LabelGraph.localVariableTable, Attribute.makeRaw, Except.bind, Except.pure, List.filterM,
    List.filterAuxM, Step.set_run]

/-- The input of the handler does not cover the local before the return. -/
theorem constructsInRange_uncovered :
    inOrder 0 (constructsInRange ++ [.maxs 0 0]) = true ∧
    (∃ final, ClassBuilder.feedMethod (constructsInRange ++ [.maxs 0 0])
      (ofSetting constructorOfC .empty) = .ok () final) ∧
    ∃ body entry flow r,
      ClassBuilder.feedMethod constructsInRange (ofSetting constructorOfC .empty) = .ok () body ∧
      body.Analyses entry flow ∧ flow.inputs entry body.entryFrame = .ok r ∧
      ∃ block input, r.frames[block]? = some input ∧
      ∃ front offset effect rest, flow.instructions block = front ++ (offset, effect) :: rest ∧
      ∃ before height,
        FlowSetting.simulate flow.thisClass 0 input front = .ok (before, height) ∧
        ∃ handler ∈ body.handlers, ∃ start stop, flow.graph.offset handler.start = .ok start ∧
          flow.graph.offset handler.stop = .ok stop ∧ start ≤ offset ∧ offset < stop ∧
          ∃ caught, r.frames[flow.graph.blockOf handler.handler]? = some caught ∧
            (caught.local? 0).meet flow.hierarchy (before.local? 0) ≠ caught.local? 0 := by
  refine ⟨by decide, constructsInRange_ends, ?_⟩
  obtain ⟨pool, code, graph, blocks, hrun, -, -, hgraph, h2, h1⟩ := constructsInRange_run
  obtain ⟨r, hr, -, hf2, hf1⟩ := constructsFlow_inputs h2 h1
  have ha : (constructsBody pool code graph blocks).Analyses ⟨2⟩ (constructsFlow blocks) := by
    refine ⟨rfl, ?_, rfl, rfl, rfl⟩
    show Handlers.completeTyped _ graph.resolve = _
    rw [hgraph]
    exact constructsGraph_complete
  have hinstructions : (constructsFlow blocks).instructions ⟨2⟩ =
      [(0, .access Opcode.aload 0), (1, .invoke Opcode.invokespecial true ⟨[], none⟩)] ++
        (4, .plain Opcode.return_void) :: [] := by
    rw [ha.instructions]
    unfold instructionsOf
    exact (congrArg (Option.getD · []) h2).trans rfl
  refine ⟨_, ⟨2⟩, constructsFlow blocks, r, hrun, ha, ?_, ⟨2⟩, _, hf2, _, 4, _, _, hinstructions,
    _, _, simulate_constructor 0 [], ⟨⟨0⟩, ⟨1⟩, ⟨1⟩, none⟩, ?_, 0, 5, rfl, rfl, by decide,
    by decide,
    _, hf1, ?_⟩
  · rw [entryFrame_constructsBody]
    exact hr
  · simp [constructsBody]
  · show VType.meet Hierarchy.flat .uninitializedThis (VType.instanceOf ⟨"C"⟩) ≠ .uninitializedThis
    decide

theorem constructsInRange_covered_unless_initialized :
    inOrder 0 (constructsInRange ++ [.maxs 0 0]) = true ∧
    (∃ final, ClassBuilder.feedMethod (constructsInRange ++ [.maxs 0 0])
      (ofSetting constructorOfC .empty) = .ok () final) ∧
    ∃ body entry flow r,
      ClassBuilder.feedMethod constructsInRange (ofSetting constructorOfC .empty) = .ok () body ∧
      body.Analyses entry flow ∧ flow.inputs entry body.entryFrame = .ok r ∧
      ∀ block input, r.frames[block]? = some input →
      ∀ front offset effect rest, flow.instructions block = front ++ (offset, effect) :: rest →
      ∃ before height,
        FlowSetting.simulate flow.thisClass 0 input front = .ok (before, height) ∧
        ∀ handler ∈ body.handlers, ∀ start stop, flow.graph.offset handler.start = .ok start →
          flow.graph.offset handler.stop = .ok stop → start ≤ offset → offset < stop →
          ((∀ x ∈ front, x.2.isConstruction = false) → before.locals = input.locals) ∧
          ∃ caught, r.frames[flow.graph.blockOf handler.handler]? = some caught ∧
            ∀ slot, (caught.local? slot).meet flow.hierarchy (before.local? slot) =
                caught.local? slot ↔
              ¬ ((caught.local? slot).isUninitialized = true ∧
                before.local? slot ≠ caught.local? slot) := by
  have horder : inOrder 0 (constructsInRange ++ [.maxs 0 0]) = true := by decide
  obtain ⟨final, hok⟩ := constructsInRange_ends
  exact ⟨horder, ⟨final, hok⟩,
    handlers_cover_unless_initialized Superclasses.hierarchy_empty.symm rfl horder hok⟩

end MethodBuilder

end JvmClass
