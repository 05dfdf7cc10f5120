import JvmClass.Assembly.ClassBuilder
import JvmClass.Proofs.Assembly.Recording

/-!
# The blocks of a method under construction

Events of a method come in stages (`MethodEvent.stage`). In every run that keeps to them the blocks
stay arranged along the code: the instructions of a block stand between its start and the start of
the next block, and in a method with handlers a store is the last instruction of its block
(`MethodBuilder.Coherent`).
-/

namespace JvmClass

/-- The stage of a body to which an event belongs; none for those that may come at any time. -/
def MethodEvent.stage : MethodEvent → Option Nat
  | .annotated .. | .attribute .. | .newLabels .. => none
  | .code => some 0
  | .handler .. => some 1
  | .localVariable .. | .codeAttribute .. => some 3
  | .maxs .. => some 4
  | .finish => some 5
  | _ => some 2

/-- The first stage that may follow an event of a stage. `code`, `maxs` and `finish` come once. -/
def stageAfter (stage : Nat) : Nat :=
  if stage = 0 || stage = 4 || stage = 5 then stage + 1 else stage

/-- Whether events come in the order of their stages, from one stage on. -/
def inOrder (stage : Nat) : List MethodEvent → Bool
  | [] => true
  | event :: rest =>
    match event.stage with
    | none => inOrder stage rest
    | some next => decide (stage ≤ next) && inOrder (stageAfter next) rest

namespace MethodBuilder

variable {b b' : MethodBuilder} {u : Unit}

/-- The stage after an event. -/
def stageAfterEvent (stage : Nat) (event : MethodEvent) : Nat :=
  (event.stage.map stageAfter).getD stage

theorem inOrder_cons {stage : Nat} {event : MethodEvent} {rest : List MethodEvent} :
    inOrder stage (event :: rest) = true ↔ (∀ n, event.stage = some n → stage ≤ n) ∧
      inOrder (stageAfterEvent stage event) rest = true := by
  unfold stageAfterEvent
  rw [inOrder]
  cases event.stage <;> simp

theorem stageAfterEvent_eq_zero {stage : Nat} {event : MethodEvent}
    (h : stageAfterEvent stage event = 0) : event.stage = none ∧ stage = 0 := by
  unfold stageAfterEvent at h
  cases hs : event.stage with
  | none =>
    rw [hs] at h
    exact ⟨rfl, h⟩
  | some n =>
    rw [hs, Option.map_some, Option.getD_some, stageAfter] at h
    split at h
    · omega
    · rename_i hn
      simp [h] at hn

/-- The instructions of a block with their offsets. -/
def instructionsOf (b : MethodBuilder) (block : Label) : List (Nat × Effect) :=
  ((b.blocks[block]?).map fun summary => summary.instructions.toList).getD []

/-- An offset lies in a block of code of some size. -/
structure Within (g : LabelGraph) (size : Nat) (block : Label) (offset : Nat) : Prop where
  started : ∃ p, g.position? block = some p ∧ p ≤ offset
  beforeEnd : offset < size
  beforeNext : ∀ (i : Nat) (next : Label) (q : Nat), g.chain[i]? = some block →
    g.chain[i + 1]? = some next → g.position? next = some q → offset < q

/-- Blocks are arranged along the code, and a store that handlers could see ends its block. -/
structure Arranged (b : MethodBuilder) : Prop where
  tiled : b.graph.Tiled b.code.size
  current : ∀ block, b.current = some block → b.graph.chain.back? = some block
  chained : ∀ block, b.instructionsOf block ≠ [] → ∃ i : Nat, b.graph.chain[i]? = some block
  located : ∀ block, ∀ x ∈ b.instructionsOf block,
    Within b.graph b.code.size block x.1
  stores : b.handlers.isEmpty = false → ∀ block front x rest,
    b.instructionsOf block = front ++ x :: rest → x.2.isStore = true → rest = []

/-- Blocks are arranged, and the block that instructions go to holds no store yet. -/
structure Coherent (b : MethodBuilder) : Prop extends b.Arranged where
  opened : b.handlers.isEmpty = false → ∀ block, b.current = some block →
    ∀ x ∈ b.instructionsOf block, x.2.isStore = false

theorem Within.mono {g g' : LabelGraph} {size size' : Nat} {block : Label} {offset : Nat}
    (h : Within g size block offset) (hl : g.SameLayout g') (hs : size ≤ size') :
    Within g' size' block offset where
  started := by
    rw [hl.position?]
    exact h.started
  beforeEnd := Nat.lt_of_lt_of_le h.beforeEnd hs
  beforeNext := by
    intro i next q
    rw [hl.chain, hl.position?]
    exact h.beforeNext i next q

theorem Extends.instructionsOf (he : b.Extends b') (block : Label) :
    b'.instructionsOf block = b.instructionsOf block := by
  unfold MethodBuilder.instructionsOf
  rw [he.blocks]

theorem Arranged.extends (h : b.Arranged) (he : b.Extends b') : b'.Arranged where
  tiled := (h.tiled.sameLayout he.layout).mono he.size
  current := by
    rw [he.current, he.layout.chain]
    exact h.current
  chained block hb := by
    rw [he.instructionsOf] at hb
    rw [he.layout.chain]
    exact h.chained block hb
  located block x hx := by
    rw [he.instructionsOf] at hx
    exact (h.located block x hx).mono he.layout he.size
  stores := by
    rw [he.handlers]
    intro hh block
    rw [he.instructionsOf]
    exact h.stores hh block

theorem Coherent.extends (h : b.Coherent) (he : b.Extends b') : b'.Coherent where
  toArranged := h.toArranged.extends he
  opened := by
    rw [he.handlers, he.current]
    intro hh block
    rw [he.instructionsOf]
    exact h.opened hh block

/-- A block that is made known has no instructions beyond those that it had. -/
theorem instructionsOf_alter (blocks : Std.HashMap Label BlockSummary) (label block : Label)
    (hb : b.blocks = blocks.alter label fun summary => some (summary.getD {})) :
    b.instructionsOf block =
      ((blocks[block]?).map fun summary => summary.instructions.toList).getD [] := by
  unfold instructionsOf
  rw [hb, Std.HashMap.getElem?_alter]
  by_cases he : label = block
  · subst he
    simp only [beq_self_eq_true, if_true, Option.map_some, Option.getD_some]
    cases blocks[label]? <;> rfl
  · rw [if_neg (by simpa using he)]

/-- A recorded instruction comes last in its block. -/
theorem instructionsOf_record (blocks : Std.HashMap Label BlockSummary) (label block : Label)
    {offset : Nat} {e : Effect}
    (hb : b.blocks = blocks.alter label fun summary =>
      some ((summary.getD {}).add true offset e)) :
    b.instructionsOf block =
      ((blocks[block]?).map fun summary => summary.instructions.toList).getD [] ++
        if block = label then [(offset, e)] else [] := by
  unfold instructionsOf
  rw [hb, Std.HashMap.getElem?_alter]
  by_cases he : label = block
  · subst he
    simp only [beq_self_eq_true, if_true, Option.map_some, Option.getD_some]
    cases blocks[label]? with
    | none => simp [BlockSummary.add]
    | some summary => simp [BlockSummary.add]
  · rw [if_neg (by simpa using he), if_neg (Ne.symm he), List.append_nil]

/-- Nothing is recorded yet in a block that starts at the end of the code. -/
theorem Arranged.instructionsOf_end (h : b.Arranged) {block : Label}
    (hp : b.graph.position? block = some b.code.size) : b.instructionsOf block = [] := by
  apply List.eq_nil_iff_forall_not_mem.2
  intro x hx
  obtain ⟨⟨p, hp', hle⟩, hlt, -⟩ := h.located block x hx
  rw [hp] at hp'
  cases hp'
  omega

/-- Placing a label at the end of the code keeps blocks arranged, and the block that instructions go
to is empty then. -/
theorem Arranged.placeLabel (h : b.Arranged) {label : Label}
    (hok : placeLabel label b = .ok u b') :
    b'.Coherent ∧ (∃ block, b'.current = some block) ∧ b'.handlers = b.handlers ∧
      b'.setting = b.setting ∧ b'.entry = b.entry ∧ b'.code = b.code := by
  obtain ⟨g, ⟨hplace, rfl⟩ | ⟨hplace, g', hg', rfl⟩⟩ := placeLabel_ok hok
  · obtain ⟨ht, leader, hback, hchain, hblock, hend, hpos⟩ :=
      h.tiled.joins (LabelGraph.placing hplace)
    refine ⟨⟨⟨ht, ?_, ?_, ?_, h.stores⟩, ?_⟩, ⟨_, rfl⟩, rfl, rfl, rfl, rfl⟩
    · intro block hb
      cases hb
      show g.chain.back? = _
      rw [hchain, hback, hblock]
    · intro block hb
      obtain ⟨i, hi⟩ := h.chained block hb
      exact ⟨i, by rw [← hi]; exact congrArg (·[i]?) hchain⟩
    · intro block x hx
      obtain ⟨i, hi⟩ := h.chained block (List.ne_nil_of_mem hx)
      obtain ⟨⟨p, hp, hle⟩, hlt, hnext⟩ := h.located block x hx
      refine ⟨⟨p, (hpos i block hi).trans hp, hle⟩, hlt, ?_⟩
      intro j next q hj hn hq
      simp only [hchain] at hj hn
      rw [hpos _ _ hn] at hq
      exact hnext j next q hj hn hq
    · intro _ block hb x hx
      cases hb
      rw [hblock] at hx
      change x ∈ b.instructionsOf leader at hx
      rw [h.instructionsOf_end hend] at hx
      cases hx
  · obtain ⟨ht, hchain, hblock, hend, hnew, hpos, hbefore⟩ :=
      h.tiled.starts (LabelGraph.placing hplace)
    have hlayout : g.SameLayout g' := by
      rcases hg' with ⟨previous, -, hg'⟩ | ⟨-, rfl⟩
      · exact LabelGraph.sameLayout_addEdge hg'
      · exact LabelGraph.sameLayout_setFlags _ _ _
    have hchain' : g'.chain = b.graph.chain.push label := hlayout.chain.trans hchain
    have hsame : ∀ block, MethodBuilder.instructionsOf { b with
        graph := g'
        blocks := b.blocks.alter label fun summary => some (summary.getD {})
        current := some (g'.blockOf label) } block = b.instructionsOf block :=
      fun block => instructionsOf_alter b.blocks label block rfl
    refine ⟨⟨⟨ht.sameLayout hlayout, ?_, ?_, ?_, ?_⟩, ?_⟩, ⟨_, rfl⟩, rfl, rfl, rfl, rfl⟩
    · intro block hb
      cases hb
      show g'.chain.back? = _
      rw [hchain', hlayout.blockOf, hblock, Array.back?_push]
    · intro block hb
      rw [hsame] at hb
      obtain ⟨i, hi⟩ := h.chained block hb
      have hlt := (Array.getElem?_eq_some_iff.1 hi).1
      refine ⟨i, ?_⟩
      show g'.chain[i]? = _
      rw [hchain', Array.getElem?_push, if_neg (by omega), hi]
    · intro block x hx
      rw [hsame] at hx
      obtain ⟨i, hi⟩ := h.chained block (List.ne_nil_of_mem hx)
      obtain ⟨⟨p, hp, hle⟩, hlt, hnext⟩ := h.located block x hx
      refine ⟨⟨p, ?_, hle⟩, hlt, ?_⟩
      · show g'.position? block = _
        rw [hlayout.position?, hpos i block hi, hp]
      · intro j next q hj hn hq
        change g'.chain[j]? = _ at hj
        change g'.chain[j + 1]? = _ at hn
        change g'.position? next = _ at hq
        rw [hchain', Array.getElem?_push] at hj hn
        rw [hlayout.position?] at hq
        split at hn
        · -- The block was the last one, and the new one starts at the end of the code.
          cases hn
          rw [hend] at hq
          cases hq
          exact hlt
        · split at hj
          · cases hj
            exact absurd hi (hnew i)
          · rw [hpos _ _ hn] at hq
            exact hnext j next q hj hn hq
    · intro hh block front x rest hi
      rw [hsame] at hi
      exact h.stores hh block front x rest hi
    · intro _ block hb x hx
      cases hb
      rw [hsame, hlayout.blockOf, hblock] at hx
      obtain ⟨i, hi⟩ := h.chained label (List.ne_nil_of_mem hx)
      exact absurd hi (hnew i)

/-- New labels do not matter for the arrangement of blocks. -/
theorem Arranged.addLabels (h : b.Arranged) (count : Nat) :
    ({ b with graph := b.graph.addLabels count } : MethodBuilder).Arranged where
  tiled := h.tiled.addLabels count
  current := by
    simp only [LabelGraph.chain_addLabels]
    exact h.current
  chained block hb := by
    simp only [LabelGraph.chain_addLabels]
    exact h.chained block hb
  located block x hx := by
    obtain ⟨hs, hlt, hnext⟩ := h.located block x hx
    refine ⟨?_, hlt, ?_⟩
    · simp only [LabelGraph.position?_addLabels]
      exact hs
    · simp only [LabelGraph.position?_addLabels, LabelGraph.chain_addLabels]
      exact hnext
  stores := h.stores

theorem Coherent.addLabels (h : b.Coherent) (count : Nat) :
    ({ b with graph := b.graph.addLabels count } : MethodBuilder).Coherent where
  toArranged := h.toArranged.addLabels count
  opened := h.opened

theorem Arranged.splitBlock (h : b.Arranged) (hok : splitBlock b = .ok u b') :
    b'.Coherent ∧ (∃ block, b'.current = some block) ∧ b'.handlers = b.handlers ∧
      b'.setting = b.setting ∧ b'.entry = b.entry ∧ b'.code = b.code := by
  simp only [MethodBuilder.splitBlock, newLabel, Step.bind_ok, Step.get_ok, Step.modify_ok,
    Step.pure_ok] at hok
  obtain ⟨label, _, ⟨_, _, ⟨rfl, rfl⟩, _, _, rfl, rfl, rfl⟩, hplace⟩ := hok
  exact (h.addLabels 1).placeLabel hplace

/-- An instruction is recorded at the end of the block that is open. -/
structure Records (b b' : MethodBuilder) (block : Label) (e : Effect) : Prop where
  opened : b.current = some block
  layout : b.graph.SameLayout b'.graph
  grows : b.code.size < b'.code.size
  handlers : b'.handlers = b.handlers
  current : b'.current = b.current
  instructions : ∀ l, b'.instructionsOf l =
    b.instructionsOf l ++ if l = block then [(b.code.size, e)] else []

variable {block : Label} {e : Effect}

theorem Records.arranged (hr : Records b b' block e) (h : b.Coherent) : b'.Arranged := by
  have hback := h.current block hr.opened
  have hlast : b.graph.chain[b.graph.chain.size - 1]? = some block := by
    rw [← Array.back?_eq_getElem?, hback]
  refine ⟨(h.tiled.sameLayout hr.layout).mono (Nat.le_of_lt hr.grows), ?_, ?_, ?_, ?_⟩
  · rw [hr.current, hr.layout.chain]
    exact h.current
  · intro l hl
    rw [hr.layout.chain]
    by_cases he : l = block
    · exact ⟨_, he ▸ hlast⟩
    · rw [hr.instructions, if_neg he, List.append_nil] at hl
      exact h.chained l hl
  · intro l x hx
    rw [hr.instructions, List.mem_append] at hx
    rcases hx with hx | hx
    · exact (h.located l x hx).mono hr.layout (Nat.le_of_lt hr.grows)
    · split at hx
      · -- The new instruction stands at the end of the code, and the last block is the open one.
        rename_i he
        subst he
        rw [List.mem_singleton] at hx
        subst hx
        obtain ⟨p, hp, hpos⟩ := h.tiled.position hlast
        refine ⟨⟨p, ?_, hp⟩, hr.grows, ?_⟩
        · rw [hr.layout.position?]
          exact hpos
        · intro i next q hi hn _
          rw [hr.layout.chain] at hi hn
          have := h.tiled.index_unique hi hlast
          have := (Array.getElem?_eq_some_iff.1 hn).1
          omega
      · cases hx
  · intro hh l front x rest hi hstore
    rw [hr.handlers] at hh
    rw [hr.instructions] at hi
    by_cases he : l = block
    · rw [if_pos he] at hi
      rcases List.eq_nil_or_concat rest with hrest | ⟨init, last, rfl⟩
      · exact hrest
      · -- The store would be one of the instructions before, of which none is a store.
        rw [List.concat_eq_append, ← List.cons_append, ← List.append_assoc] at hi
        have hold := (List.append_inj_left' hi rfl)
        have hmem : x ∈ b.instructionsOf l := by
          rw [hold]
          simp
        rw [h.opened hh l (he ▸ hr.opened) x hmem] at hstore
        cases hstore
    · rw [if_neg he, List.append_nil] at hi
      exact h.stores hh l front x rest hi hstore

/-- The block stays coherent if the instruction is no store. -/
theorem Records.coherent (hr : Records b b' block e) (h : b.Coherent)
    (he : b.handlers.isEmpty = false → e.isStore = false) : b'.Coherent where
  toArranged := hr.arranged h
  opened := by
    intro hh l hl x hx
    rw [hr.handlers] at hh
    rw [hr.current] at hl
    rw [hr.instructions, List.mem_append] at hx
    rcases hx with hx | hx
    · exact h.opened hh l hl x hx
    · split at hx
      · rw [List.mem_singleton] at hx
        rw [hx]
        exact he hh
      · cases hx

/-- Steps that keep what is settled before the first instruction. -/
structure SameSetup (b b' : MethodBuilder) : Prop where
  handlers : b'.handlers = b.handlers
  setting : b'.setting = b.setting
  entry : b'.entry = b.entry

theorem SameSetup.trans {b'' : MethodBuilder} (h : b.SameSetup b') (h' : b'.SameSetup b'') :
    b.SameSetup b'' :=
  ⟨h'.handlers.trans h.handlers, h'.setting.trans h.setting, h'.entry.trans h.entry⟩

theorem Extends.sameSetup (h : b.Extends b') : b.SameSetup b' := ⟨h.handlers, h.setting, h.entry⟩

/-- The start of an instruction leaves a block open. -/
theorem Coherent.startInstruction (h : b.Coherent) {offset : Nat}
    (start : startInstruction b = .ok offset b') :
    b'.Coherent ∧ (∃ block, b'.current = some block) ∧ b.SameSetup b' := by
  obtain ⟨-, ⟨block, hb, rfl⟩ | ⟨-, hsplit⟩⟩ := startInstruction_ok start
  · exact ⟨h, ⟨block, hb⟩, rfl, rfl, rfl⟩
  · obtain ⟨h1, h2, h3, h4, h5, -⟩ := h.toArranged.splitBlock hsplit
    exact ⟨h1, h2, h3, h4, h5⟩

/-- An instruction is recorded in the block that is open when it starts. -/
theorem records_ok {written recorded done : MethodBuilder} {effect : Except ClassError Effect}
    (hf : b.setting.compute.frames = true) (hcurrent : b.current = some block)
    (write : b.Extends written)
    (record : MethodBuilder.record b.code.size effect written = .ok () recorded)
    (finish : recorded.Extends done) (grows : b.code.size < done.code.size) :
    b.SameSetup done ∧ ∃ e, effect = .ok e ∧ Records b done block e := by
  obtain ⟨e, rfl, hrecord⟩ := record_ok (by rw [write.setting, hf]) record
  obtain rfl := hrecord block (by rw [write.current, hcurrent])
  have hdone : b.SameSetup done := by
    refine ⟨?_, ?_, ?_⟩
    · rw [finish.handlers, write.handlers]
    · rw [finish.setting, write.setting]
    · rw [finish.entry, write.entry]
  refine ⟨hdone, e, rfl, hcurrent, write.layout.trans finish.layout, grows, hdone.handlers, ?_,
    fun l => ?_⟩
  · rw [finish.current, write.current]
  · rw [finish.instructionsOf, instructionsOf_record written.blocks block l rfl, write.blocks]
    rfl

/-- An instruction keeps blocks coherent. -/
theorem Coherent.instruction (h : b.Coherent) (hf : b.setting.compute.frames = true)
    {event : MethodEvent} (hi : Instruction event b b') : b'.Coherent ∧ b.SameSetup b' := by
  obtain @⟨offset, effect, started, written, recorded, done, start, write, record, jumps, grows,
    ends, -, -, -, -, -⟩ := hi
  obtain ⟨hstarted, ⟨block, hcurrent⟩, hsetup⟩ := h.startInstruction start
  obtain ⟨rfl, -⟩ := startInstruction_ok start
  obtain ⟨hdone, e, rfl, hr⟩ := records_ok (by rw [hsetup.setting, hf]) hcurrent write.extends record
    (jumpToAll_ok jumps).1 grows
  by_cases hstore : e.isStore = true ∧ done.handlers.isEmpty = false
  · have hsplit := ends.store e rfl hstore.1
    simp only [splitAfterStore, Step.bind_ok, Step.get_ok] at hsplit
    obtain ⟨_, _, ⟨rfl, rfl⟩, hsplit⟩ := hsplit
    have hframes : done.setting.compute.frames = true := by
      rw [hdone.setting, hsetup.setting, hf]
    rw [if_pos (by simp [hframes, hstore.2])] at hsplit
    obtain ⟨h1, -, h3, h4, h5, -⟩ := (hr.arranged hstarted).splitBlock hsplit
    exact ⟨h1, hsetup.trans (hdone.trans ⟨h3, h4, h5⟩)⟩
  · have hplain : started.handlers.isEmpty = false → e.isStore = false := by
      intro hh
      rw [← hdone.handlers] at hh
      by_contra hs
      exact hstore ⟨by simpa using hs, hh⟩
    have hcoherent := hr.coherent hstarted hplain
    rcases ends.cases with rfl | rfl | hsplit
    · exact ⟨hcoherent, hsetup.trans hdone⟩
    · refine ⟨⟨⟨hcoherent.tiled, ?_, hcoherent.chained, hcoherent.located, hcoherent.stores⟩, ?_⟩,
        hsetup.trans ⟨hdone.handlers, hdone.setting, hdone.entry⟩⟩
      · intro block hb
        cases hb
      · intro _ block hb
        cases hb
    · obtain ⟨h1, -, h3, h4, h5, -⟩ := hcoherent.toArranged.splitBlock hsplit
      exact ⟨h1, hsetup.trans (hdone.trans ⟨h3, h4, h5⟩)⟩

/-- Events that write an instruction. -/
def isInstruction : MethodEvent → Bool
  | .plain .. | .intOperand .. | .access .. | .typeOperand .. | .field .. | .method ..
  | .invokeDynamic .. | .jump .. | .load .. | .increment .. | .tableSwitch .. | .lookupSwitch ..
  | .newMultiArray .. => true
  | _ => false

theorem stage_of_isInstruction {event : MethodEvent} (hi : isInstruction event = true) :
    event.stage = some 2 := by
  cases event <;> first | rfl | cases hi

theorem instruction_feed {event : MethodEvent} (hi : isInstruction event = true)
    (hok : feed event b = .ok u b') : Instruction event b b' := by
  cases event with
  | plain op => exact instruction_plain hok
  | intOperand op operand => exact instruction_intOperand hok
  | access op slot => exact instruction_access hok
  | typeOperand op name => exact instruction_typeOperand hok
  | field op owner name descriptor => exact instruction_field hok
  | method op owner name descriptor ownerIsInterface => exact instruction_method hok
  | invokeDynamic name descriptor bootstrap arguments => exact instruction_invokeDynamic hok
  | jump op target => exact instruction_jump hok
  | load value => exact instruction_load hok
  | increment slot amount => exact instruction_increment hok
  | tableSwitch low high fallback targets => exact instruction_tableSwitch hok
  | lookupSwitch fallback keys targets => exact instruction_lookupSwitch hok
  | newMultiArray descriptor dimensions => exact instruction_newMultiArray hok
  | _ => cases hi

/-- Events that neither write instructions nor tell about labels and handlers. -/
def isQuiet : MethodEvent → Bool
  | .annotated .. | .attribute .. | .frame .. | .lineNumber .. | .localVariable ..
  | .codeAttribute .. => true
  | _ => false

theorem quiet_feed {event : MethodEvent} (hq : isQuiet event = true)
    (hok : feed event b = .ok u b') : b.Quiet b' := by
  cases event with
  | annotated a visible =>
    obtain rfl := Step.modify_ok.1 hok
    exact ⟨rfl, rfl, rfl, rfl, rfl, rfl, Nat.le_refl _, Nat.le_refl _⟩
  | «attribute» a =>
    simp only [feed, Step.bind_ok, Step.get_ok, Step.of_ok, Step.modify_ok] at hok
    obtain ⟨_, _, ⟨rfl, rfl⟩, _, _, ⟨-, rfl⟩, rfl⟩ := hok
    exact ⟨rfl, rfl, rfl, rfl, rfl, rfl, Nat.le_refl _, Nat.le_refl _⟩
  | frame locals stack =>
    simp only [feed, frame, Step.bind_ok, Step.get_ok] at hok
    obtain ⟨_, _, ⟨rfl, rfl⟩, hok⟩ := hok
    rw [Step.guard_ok] at hok
    obtain ⟨-, hok⟩ := hok
    split at hok
    · rw [Step.guard_ok] at hok
      obtain rfl := Step.modify_ok.1 hok.2
      exact ⟨rfl, rfl, rfl, rfl, rfl, rfl, Nat.le_refl _, Nat.le_refl _⟩
    · obtain ⟨-, rfl⟩ := Step.pure_ok.1 hok
      exact .refl b
  | lineNumber line start =>
    obtain rfl := Step.modify_ok.1 hok
    exact ⟨rfl, rfl, rfl, rfl, rfl, rfl, Nat.le_refl _, Nat.le_refl _⟩
  | localVariable name descriptor start stop slot =>
    simp only [feed, localVariable, Step.bind_ok, Step.modify_ok] at hok
    obtain ⟨_, mid, htouch, rfl⟩ := hok
    exact (touchLocal_ok htouch).1.trans
      ⟨rfl, rfl, rfl, rfl, rfl, rfl, Nat.le_refl _, Nat.le_refl _⟩
  | codeAttribute a =>
    simp only [feed, Step.bind_ok, Step.get_ok, Step.of_ok, Step.modify_ok] at hok
    obtain ⟨_, _, ⟨rfl, rfl⟩, _, _, ⟨-, rfl⟩, rfl⟩ := hok
    exact ⟨rfl, rfl, rfl, rfl, rfl, rfl, Nat.le_refl _, Nat.le_refl _⟩
  | _ => cases hq

/-- What holds of a method under construction when events of a stage may come. -/
structure Prepared (stage : Nat) (b : MethodBuilder) : Prop where
  coherent : b.Coherent
  blank : stage ≤ 1 → ∀ block, b.instructionsOf block = []
  unstarted : stage = 0 → b.code.size = 0 ∧ b.graph.chain = #[] ∧ b.current = none

theorem prepared_ofSetting (setting : MethodSetting) (pool : ConstantPool) :
    Prepared 0 (ofSetting setting pool) where
  coherent :=
    { tiled := LabelGraph.Tiled.empty
      current := by
        intro block hb
        cases hb
      chained := by
        intro block hb
        exact absurd (by simp [instructionsOf, ofSetting]) hb
      located := by
        intro block x hx
        simp [instructionsOf, ofSetting] at hx
      stores := by
        intro hh
        cases hh
      opened := by
        intro hh
        cases hh }
  blank := by
    intro _ block
    simp [instructionsOf, ofSetting]
  unstarted _ := ⟨rfl, rfl, rfl⟩

/-- The first block starts at the beginning of the code. -/
theorem Prepared.beginCode (h : Prepared 0 b) (hok : beginCode b = .ok u b') :
    Prepared 1 b' ∧ b'.setting = b.setting := by
  obtain ⟨hsize, hchain, hcurrent⟩ := h.unstarted rfl
  simp only [MethodBuilder.beginCode, newLabel, Step.bind_ok, Step.get_ok, Step.modify_ok,
    Step.pure_ok, onGraph, Step.on_ok] at hok
  obtain ⟨entry, _, ⟨_, _, ⟨rfl, rfl⟩, _, _, rfl, rfl, rfl⟩, starts, _, ⟨g, hg, rfl⟩, rfl⟩ := hok
  have hplace := LabelGraph.placing hg
  have ht := h.coherent.tiled.addLabel
  rw [hsize] at ht
  cases starts with
  | false =>
    obtain ⟨-, leader, hback, -⟩ := ht.joins hplace
    rw [show b.graph.addLabel.chain = #[] from hchain] at hback
    cases hback
  | true =>
    obtain ⟨ht', hchain', -, hend, -⟩ := ht.starts hplace
    have hblank := h.blank (by omega)
    refine ⟨⟨⟨⟨?_, ?_, ?_, ?_, ?_⟩, ?_⟩, fun _ => hblank, by simp⟩, rfl⟩
    · show g.Tiled b.code.size
      rw [hsize]
      exact ht'
    · intro block hb
      cases hb
      show g.chain.back? = _
      rw [hchain', Array.back?_push]
    · exact fun block hb => absurd (hblank block) hb
    · intro block x hx
      change x ∈ b.instructionsOf block at hx
      rw [hblank] at hx
      cases hx
    · intro _ block front x rest hi
      change b.instructionsOf block = _ at hi
      rw [hblank] at hi
      simp at hi
    · intro _ block _ x hx
      change x ∈ b.instructionsOf block at hx
      rw [hblank] at hx
      cases hx

theorem prepared_of_coherent {stage : Nat} (h : b.Coherent) (hs : 2 ≤ stage) :
    Prepared stage b where
  coherent := h
  blank hle := by omega
  unstarted he := by omega

/-- Any handlers may be given before the first instruction. -/
theorem Prepared.withHandlers {stage : Nat} (h : Prepared stage b) (hs : stage ≤ 1)
    (handlers : Array ExceptionHandler) : Prepared 1 { b with handlers } where
  coherent :=
    { tiled := h.coherent.tiled
      current := h.coherent.current
      chained := h.coherent.chained
      located := h.coherent.located
      stores := by
        intro _ block front x rest hi
        change b.instructionsOf block = _ at hi
        rw [h.blank hs] at hi
        simp at hi
      opened := by
        intro _ block _ x hx
        change x ∈ b.instructionsOf block at hx
        rw [h.blank hs] at hx
        cases hx }
  blank _ := h.blank hs
  unstarted he := by omega

/-- An event that may come at any time. -/
theorem Prepared.feed_side {stage : Nat} {event : MethodEvent} (h : Prepared stage b)
    (hs : event.stage = none) (hok : feed event b = .ok u b') :
    Prepared stage b' ∧ b'.setting = b.setting := by
  cases event with
  | annotated a visible =>
    obtain rfl := Step.modify_ok.1 hok
    refine ⟨⟨h.coherent.extends ?_, h.blank, h.unstarted⟩, rfl⟩
    exact ⟨rfl, rfl, rfl, rfl, rfl, .refl _, Nat.le_refl _, Nat.le_refl _⟩
  | «attribute» a =>
    simp only [feed, Step.bind_ok, Step.get_ok, Step.of_ok, Step.modify_ok] at hok
    obtain ⟨_, _, ⟨rfl, rfl⟩, _, _, ⟨-, rfl⟩, rfl⟩ := hok
    refine ⟨⟨h.coherent.extends ?_, h.blank, h.unstarted⟩, rfl⟩
    exact ⟨rfl, rfl, rfl, rfl, rfl, .refl _, Nat.le_refl _, Nat.le_refl _⟩
  | newLabels count =>
    obtain rfl := Step.modify_ok.1 hok
    refine ⟨⟨h.coherent.addLabels count, h.blank, fun he => ?_⟩, rfl⟩
    obtain ⟨h1, h2, h3⟩ := h.unstarted he
    exact ⟨h1, (LabelGraph.chain_addLabels _ _).trans h2, h3⟩
  | _ => cases hs

/-- An event of a stage. -/
theorem Prepared.feed_stage {stage next : Nat} {event : MethodEvent} (h : Prepared stage b)
    (hf : b.setting.compute.frames = true) (hs : event.stage = some next) (hle : stage ≤ next)
    (hnext : next ≤ 3) (hok : feed event b = .ok u b') :
    Prepared (stageAfter next) b' ∧ b'.setting = b.setting := by
  have hbody : event.stage = some 2 ∨ event.stage = some 3 → b'.Coherent ∧
      b'.setting = b.setting → Prepared (stageAfter next) b' ∧ b'.setting = b.setting := by
    rintro hn ⟨hc, hsetting⟩
    refine ⟨prepared_of_coherent hc ?_, hsetting⟩
    rcases hn with hn | hn
    · rw [hn] at hs
      cases hs
      decide
    · rw [hn] at hs
      cases hs
      decide
  by_cases hi : isInstruction event = true
  · obtain ⟨hc, hsetup⟩ := h.coherent.instruction hf (instruction_feed hi hok)
    exact hbody (Or.inl (stage_of_isInstruction hi)) ⟨hc, hsetup.setting⟩
  · cases event with
    | code =>
      cases hs
      obtain rfl := Nat.le_zero.1 hle
      exact h.beginCode hok
    | handler start stop handler catchType =>
      cases hs
      obtain rfl := Step.modify_ok.1 hok
      exact ⟨h.withHandlers hle _, rfl⟩
    | label label =>
      obtain ⟨hc, -, -, hsetting, -⟩ := h.coherent.toArranged.placeLabel hok
      exact hbody (Or.inl rfl) ⟨hc, hsetting⟩
    | frame | lineNumber =>
      have he := (quiet_feed rfl hok).extends
      exact hbody (Or.inl rfl) ⟨h.coherent.extends he, he.setting⟩
    | localVariable | codeAttribute =>
      have he := (quiet_feed rfl hok).extends
      exact hbody (Or.inr rfl) ⟨h.coherent.extends he, he.setting⟩
    | maxs stack locals =>
      cases hs
      omega
    | finish =>
      cases hs
      omega
    | annotated a visible => cases hs
    | «attribute» a => cases hs
    | newLabels count => cases hs
    | _ => exact absurd rfl hi

/-- The next event of a run in order. -/
theorem Prepared.next {stage : Nat} {event : MethodEvent} {rest : List MethodEvent}
    (h : Prepared stage b) (hf : b.setting.compute.frames = true)
    (horder : inOrder stage (event :: rest) = true)
    (hlast : ∀ n, event.stage = some n → n ≤ 3) (hok : feed event b = .ok u b') :
    ∃ next, stage ≤ next ∧ (isInstruction event = true → 2 ≤ next) ∧ Prepared next b' ∧
      b'.setting = b.setting ∧ inOrder next rest = true := by
  unfold inOrder at horder
  cases hs : event.stage with
  | none =>
    rw [hs] at horder
    obtain ⟨hp, hsetting⟩ := h.feed_side hs hok
    refine ⟨stage, Nat.le_refl _, fun hi => ?_, hp, hsetting, horder⟩
    rw [stage_of_isInstruction hi] at hs
    cases hs
  | some n =>
    rw [hs] at horder
    simp only [Bool.and_eq_true, decide_eq_true_eq] at horder
    obtain ⟨hp, hsetting⟩ := h.feed_stage hf hs horder.1 (hlast n hs) hok
    have hafter : n ≤ stageAfter n := by
      unfold stageAfter
      split <;> omega
    refine ⟨stageAfter n, by omega, fun hi => ?_, hp, hsetting, horder.2⟩
    rw [stage_of_isInstruction hi] at hs
    cases hs
    exact hafter

/-- A run in the order of stages up to the end of the code keeps blocks coherent. -/
theorem Prepared.run {stage : Nat} {events : List MethodEvent} (h : Prepared stage b)
    (hf : b.setting.compute.frames = true) (horder : inOrder stage events = true)
    (hlast : ∀ event ∈ events, ∀ n, event.stage = some n → n ≤ 3)
    (hok : ClassBuilder.feedMethod events b = .ok u b') :
    b'.Coherent ∧ b'.setting = b.setting := by
  induction events generalizing b stage with
  | nil =>
    obtain ⟨-, rfl⟩ := Step.pure_ok.1 hok
    exact ⟨h.coherent, rfl⟩
  | cons event rest ih =>
    obtain ⟨_, mid, h1, h2⟩ := Step.bind_ok.1 hok
    obtain ⟨next, -, -, hp, hsetting, horder'⟩ :=
      h.next hf horder (hlast event List.mem_cons_self) h1
    obtain ⟨hc, hsetting'⟩ := ih hp (by rw [hsetting, hf]) horder'
      (fun e he => hlast e (List.mem_cons_of_mem event he)) h2
    exact ⟨hc, hsetting'.trans hsetting⟩

end MethodBuilder

/-- What comes before the end of the code in order belongs to earlier stages. -/
theorem inOrder_append_maxs {stage : Nat} {events : List MethodEvent} {stack locals : UInt16}
    (h : inOrder stage (events ++ [.maxs stack locals]) = true) :
    stage ≤ 4 ∧ inOrder stage events = true ∧
      ∀ event ∈ events, ∀ n, event.stage = some n → n ≤ 3 := by
  induction events generalizing stage with
  | nil =>
    simp only [List.nil_append, inOrder, MethodEvent.stage, Bool.and_true,
      decide_eq_true_eq] at h
    exact ⟨h, rfl, by simp⟩
  | cons event rest ih =>
    rw [List.cons_append] at h
    unfold inOrder at h ⊢
    cases hs : event.stage with
    | none =>
      rw [hs] at h
      obtain ⟨h1, h2, h3⟩ := ih h
      refine ⟨h1, h2, fun e he n hn => ?_⟩
      rcases List.mem_cons.1 he with rfl | he
      · rw [hs] at hn
        cases hn
      · exact h3 e he n hn
    | some next =>
      rw [hs] at h
      simp only [Bool.and_eq_true, decide_eq_true_eq] at h ⊢
      obtain ⟨h1, h2, h3⟩ := ih h.2
      have hafter : next ≤ stageAfter next ∧ (next = 4 ∨ next = 5 → next < stageAfter next) := by
        unfold stageAfter
        split
        · omega
        · rename_i hne
          simp only [Bool.or_eq_true, decide_eq_true_eq] at hne
          omega
      refine ⟨by omega, ⟨h.1, h2⟩, fun e he n hn => ?_⟩
      rcases List.mem_cons.1 he with rfl | he
      · rw [hs] at hn
        cases hn
        omega
      · exact h3 e he n hn

end JvmClass
