import JvmClass.Proofs.Assembly.Decoding
import JvmClass.Proofs.Flow.Marks

/-!
# Marks in a body under construction

While a body is taken up, the targets of every jump are marked, and so is the block that starts
where an instruction has passed control on (`MethodBuilder.Leads`). `MethodBuilder.Marks` says what
one instruction does to marks, and `MethodBuilder.Marking` what a run does.
-/

namespace JvmClass

namespace MethodBuilder

variable {b b' b'' : MethodBuilder} {u : Unit} {known : Prop}

/-- What a step does to the control flow. Edges keep to marked blocks if jumps are to labels that
have been made. -/
structure Traces (known : Prop) (b b' : MethodBuilder) : Prop where
  advances : b.graph.Advances b'.graph
  unreached : b.graph.Unreached → b'.graph.Unreached
  marked : known → b.graph.Marked → b'.graph.Marked

namespace Traces

theorem of_eq (h : b'.graph = b.graph) : Traces known b b' :=
  ⟨h ▸ .refl _, fun hu => h ▸ hu, fun _ hm => h ▸ hm⟩

theorem trans (h : Traces known b b') (h' : Traces known b' b'') : Traces known b b'' :=
  ⟨h.advances.trans h'.advances, fun hu => h'.unreached (h.unreached hu),
    fun hk hm => h'.marked hk (h.marked hk hm)⟩

theorem imp {known' : Prop} (h : Traces known b b') (hk : known' → known) : Traces known' b b' :=
  ⟨h.advances, h.unreached, fun hk' => h.marked (hk hk')⟩

theorem addLabels (b : MethodBuilder) (count : Nat) :
    Traces known b { b with graph := b.graph.addLabels count } :=
  ⟨LabelGraph.advances_addLabels _ _, (·.addLabels count), fun _ hm => hm.addLabels count⟩

end Traces

theorem Arranged.traces_placeLabel (h : b.Arranged) {label : Label}
    (hok : MethodBuilder.placeLabel label b = .ok u b') : Traces known b b' := by
  obtain ⟨g, ⟨hplace, rfl⟩ | ⟨hplace, g', hg', rfl⟩⟩ := placeLabel_ok hok
  · exact ⟨LabelGraph.advances_place h.tiled hplace, (·.place hplace),
      fun _ hm => hm.place h.tiled hplace⟩
  · have ha := LabelGraph.advances_place h.tiled hplace
    rcases hg' with ⟨previous, hprevious, hedge⟩ | ⟨-, rfl⟩
    · refine ⟨ha.trans (LabelGraph.advances_addEdge hedge),
        fun hu => (hu.place hplace).addEdge hedge, fun _ hm => (hm.place h.tiled hplace).fall hedge ?_⟩
      -- The block that was open is the last one, and the label starts the next.
      obtain ⟨ht, hchain, -⟩ := h.tiled.starts (LabelGraph.placing hplace)
      have hlast := LabelGraph.chain_of_back (h.current previous hprevious)
      have hi := (Array.getElem?_eq_some_iff.1 hlast).1
      have hlast' := ha.chain _ _ hlast
      refine ⟨_, (ht.blockOf_leader hlast').symm ▸ hlast', ?_⟩
      rw [hchain, Nat.sub_add_cancel (by omega), Array.getElem?_push, if_pos rfl]
    · exact ⟨ha.trans (LabelGraph.advances_setFlags _ _ _),
        fun hu => (hu.place hplace).markTarget _, fun _ hm => (hm.place h.tiled hplace).setFlags _ _⟩

theorem Arranged.traces_splitBlock (h : b.Arranged) (hok : MethodBuilder.splitBlock b = .ok u b') :
    Traces known b b' := by
  simp only [MethodBuilder.splitBlock, newLabel, Step.bind_ok, Step.get_ok, Step.modify_ok,
    Step.pure_ok] at hok
  obtain ⟨label, _, ⟨_, _, ⟨rfl, rfl⟩, _, _, rfl, rfl, rfl⟩, hplace⟩ := hok
  exact (Traces.addLabels b 1).trans ((h.addLabels 1).traces_placeLabel hplace)

theorem Coherent.traces_startInstruction (h : b.Coherent) {offset : Nat}
    (hok : MethodBuilder.startInstruction b = .ok offset b') : Traces known b b' := by
  obtain ⟨-, ⟨block, hb, rfl⟩ | ⟨-, hsplit⟩⟩ := startInstruction_ok hok
  · exact .of_eq rfl
  · exact h.toArranged.traces_splitBlock hsplit

/-- Jumps to labels that have been made mark them. -/
theorem traces_jumpToAll {targets : List Label} {size : Nat} (ht : b.graph.Tiled size)
    (hknown : known → ∀ target ∈ targets, target.number < b.graph.size)
    (hok : jumpToAll targets b = .ok u b') :
    Traces known b b' ∧ (known → ∀ target ∈ targets, (b'.graph.flags target).target = true) := by
  induction targets generalizing b with
  | nil =>
    obtain ⟨-, rfl⟩ := Step.pure_ok.1 hok
    exact ⟨.of_eq rfl, fun _ target hm => nomatch hm⟩
  | cons target rest ih =>
    obtain ⟨_, mid, hjump, hrest⟩ := Step.bind_ok.1 hok
    have hfirst : Traces known b mid ∧ mid.graph.Tiled size ∧
        (known → (mid.graph.flags target).target = true) := by
      obtain ⟨g, ⟨-, rfl⟩ | ⟨block, -, hedge⟩, rfl⟩ := jumpTo_graph hjump
      · exact ⟨⟨LabelGraph.advances_setFlags _ _ _, (·.markTarget _), fun _ hm => hm.setFlags _ _⟩,
          ht.sameLayout (LabelGraph.sameLayout_setFlags _ _ _),
          fun hk => LabelGraph.flagged_markTarget ht (hknown hk target List.mem_cons_self)⟩
      · have ha := LabelGraph.advances_addEdge hedge
        have ht' := ht.sameLayout (LabelGraph.sameLayout_addEdge hedge)
        refine ⟨⟨ha.trans (LabelGraph.advances_setFlags _ _ _),
          fun hu => (hu.addEdge hedge).markTarget _,
          fun hk hm => hm.jump ht hedge (hknown hk target List.mem_cons_self)⟩,
          ht'.sameLayout (LabelGraph.sameLayout_setFlags _ _ _), fun hk => ?_⟩
        exact LabelGraph.flagged_markTarget ht'
          (Nat.lt_of_lt_of_le (hknown hk target List.mem_cons_self) ha.size)
    obtain ⟨hmid, ht', hflag⟩ := hfirst
    obtain ⟨htrace, hflags⟩ := ih ht' (fun hk l hl =>
      Nat.lt_of_lt_of_le (hknown hk l (List.mem_cons_of_mem _ hl)) hmid.advances.size) hrest
    refine ⟨hmid.trans htrace, fun hk l hl => ?_⟩
    rcases List.mem_cons.1 hl with rfl | hl
    · exact htrace.advances.flagged _ (hflag hk)
    · exact hflags hk l hl

/-- The next instruction starts a marked block: there is none open and none that starts at the end
of the code, or the one that starts there is marked. -/
def Leads (b : MethodBuilder) : Prop :=
  (b.current = none ∧
      ∀ (i : Nat) l, b.graph.chain[i]? = some l → b.graph.position? l ≠ some b.code.size) ∨
    b.graph.MarkedAt b.code.size

theorem Leads.placeLabel (hl : b.Leads) (h : b.Arranged) {label : Label}
    (hok : MethodBuilder.placeLabel label b = .ok u b') : b'.graph.MarkedAt b.code.size := by
  rcases hl with ⟨hnone, hfree⟩ | hmarked
  · obtain ⟨g, ⟨hplace, -⟩ | ⟨hplace, g', hg', rfl⟩⟩ := placeLabel_ok hok
    · obtain ⟨-, leader, hback, -, -, hend, -⟩ := h.tiled.joins (LabelGraph.placing hplace)
      exact absurd hend (hfree _ _ (LabelGraph.chain_of_back hback))
    · rcases hg' with ⟨previous, hprevious, -⟩ | ⟨-, rfl⟩
      · rw [hnone] at hprevious
        cases hprevious
      · obtain ⟨ht, -, -, hend, -⟩ := h.tiled.starts (LabelGraph.placing hplace)
        have hl := LabelGraph.sameLayout_setFlags g label ⟨true, false⟩
        exact (ht.sameLayout hl).markedAt (by rw [hl.position?, hend])
          (LabelGraph.flagged_markTarget ht (LabelGraph.lt_size_of_position hend))
  · have htrace : Traces True b b' := h.traces_placeLabel hok
    exact hmarked.advances htrace.advances

theorem Leads.addLabels (hl : b.Leads) (count : Nat) :
    Leads { b with graph := b.graph.addLabels count } := by
  refine hl.imp (fun ⟨hnone, hfree⟩ => ⟨hnone, fun i l hi => ?_⟩)
    (·.advances (LabelGraph.advances_addLabels _ _))
  rw [LabelGraph.position?_addLabels]
  exact hfree i l (by rwa [LabelGraph.chain_addLabels] at hi)

theorem Leads.startInstruction (hl : b.Leads) (h : b.Coherent) {offset : Nat}
    (hok : MethodBuilder.startInstruction b = .ok offset b') :
    b'.graph.MarkedAt b.code.size := by
  obtain ⟨-, ⟨block, hb, rfl⟩ | ⟨-, hsplit⟩⟩ := startInstruction_ok hok
  · rcases hl with ⟨hnone, -⟩ | hmarked
    · rw [hnone] at hb
      cases hb
    · exact hmarked
  · simp only [MethodBuilder.splitBlock, newLabel, Step.bind_ok, Step.get_ok, Step.modify_ok,
      Step.pure_ok] at hsplit
    obtain ⟨label, _, ⟨_, _, ⟨rfl, rfl⟩, _, _, rfl, rfl, rfl⟩, hplace⟩ := hsplit
    exact (hl.addLabels 1).placeLabel (h.toArranged.addLabels 1) hplace

/-- What an instruction does to marks. -/
structure Marks (event : MethodEvent) (b b' : MethodBuilder) : Prop where
  traces : Traces (∀ target ∈ event.targets, target.number < b.graph.size) b b'
  targets : (∀ target ∈ event.targets, target.number < b.graph.size) →
    ∀ target ∈ event.targets, (b'.graph.flags target).target = true
  led : b.Leads → b'.graph.MarkedAt b.code.size
  leads : event.transfers = true → b'.Leads

theorem Coherent.marks (h : b.Coherent) (hf : b.setting.compute.frames = true)
    {event : MethodEvent} (hi : Instruction event b b') : Marks event b b' := by
  obtain @⟨offset, effect, started, written, recorded, done, start, write, record, jumps, grows,
    ends, leaves, -, -, -, -⟩ := hi
  obtain ⟨hstarted, ⟨block, hcurrent⟩, hsetup⟩ := h.startInstruction start
  have hstart : Traces (∀ target ∈ event.targets, target.number < b.graph.size) b started :=
    h.traces_startInstruction start
  have hled := fun hl : b.Leads => hl.startInstruction h start
  obtain ⟨rfl, -⟩ := startInstruction_ok start
  obtain ⟨-, e, -, hr⟩ := records_ok (by rw [hsetup.setting, hf]) hcurrent write.extends record
    (jumpToAll_ok jumps).1 grows
  have hdone := hr.arranged hstarted
  have hgraph : recorded.graph = started.graph := by
    obtain ⟨blocks, rfl⟩ := record_eq record
    exact write.graph
  have htiled : recorded.graph.Tiled started.code.size := hgraph ▸ hstarted.tiled
  have hknown : (∀ target ∈ event.targets, target.number < b.graph.size) →
      ∀ target ∈ event.targets, target.number < recorded.graph.size :=
    fun hk target ht => hgraph ▸ Nat.lt_of_lt_of_le (hk target ht) hstart.advances.size
  obtain ⟨hjumps, htargets⟩ := traces_jumpToAll htiled hknown jumps
  have hlast : Traces (∀ target ∈ event.targets, target.number < b.graph.size) done b' := by
    rcases ends.cases with rfl | rfl | hsplit
    · exact .of_eq rfl
    · exact .of_eq rfl
    · exact hdone.traces_splitBlock hsplit
  have hrest := ((Traces.of_eq hgraph).trans hjumps).trans hlast
  refine ⟨hstart.trans hrest, fun hk target ht => ?_, fun hl => ?_, fun ht => ?_⟩
  · exact hlast.advances.flagged _ (htargets hk target ht)
  · exact (hled hl).advances hrest.advances
  · -- All blocks start at or before the instruction, which is not empty.
    obtain rfl := Step.modify_ok.1 (leaves ht)
    refine Or.inl ⟨rfl, fun i l hi hp => ?_⟩
    change done.graph.chain[i]? = some l at hi
    change done.graph.position? l = some done.code.size at hp
    rw [hr.layout.chain] at hi
    rw [hr.layout.position?] at hp
    obtain ⟨p, hle, hp'⟩ := hstarted.tiled.position hi
    rw [hp] at hp'
    cases hp'
    omega

end MethodBuilder

/-- The entry of the exception table that an event gives. -/
def MethodEvent.handler? : MethodEvent → Option ExceptionHandler
  | .handler start stop place catchType => some ⟨start, stop, place, catchType⟩
  | _ => none

/-- The entries of the exception table that events give, in order. -/
def toldHandlers (events : List MethodEvent) : Handlers := events.filterMap MethodEvent.handler?

namespace MethodBuilder

/-- The body starts with the first block. -/
def Begins (b : MethodBuilder) : Prop :=
  ∀ entry, b.entry = some entry → b.graph.chain[0]? = some entry

/-- The labels that a step places stand where the code ends, before or after it. -/
def PlacesAtEnd (b b' : MethodBuilder) : Prop :=
  ∀ label p, b'.graph.position? label = some p →
    b.graph.position? label = some p ∨ p = b.code.size ∨ p = b'.code.size

theorem placesAtEnd_of_eq (h : b'.graph = b.graph) : PlacesAtEnd b b' :=
  fun _ _ hp => Or.inl (h ▸ hp)

theorem placesAtEnd_placeLabel {label : Label} (h : placeLabel label b = .ok u b') :
    PlacesAtEnd b b' := by
  intro l p hp
  rw [position?_placeLabel h] at hp
  split at hp
  · cases hp
    exact Or.inr (Or.inl rfl)
  · exact Or.inl hp

theorem placesAtEnd_splitBlock (h : splitBlock b = .ok u b') : PlacesAtEnd b b' := by
  simp only [splitBlock, newLabel, Step.bind_ok, Step.get_ok, Step.modify_ok, Step.pure_ok] at h
  obtain ⟨label, _, ⟨_, _, ⟨rfl, rfl⟩, _, _, rfl, rfl, rfl⟩, hplace⟩ := h
  intro l p hp
  refine (placesAtEnd_placeLabel hplace l p hp).imp_left fun hold => ?_
  rwa [LabelGraph.position?_addLabel] at hold

theorem Instruction.placesAtEnd {event : MethodEvent} (h : Instruction event b b') :
    PlacesAtEnd b b' := by
  obtain @⟨offset, effect, started, written, recorded, done, start, write, record, jumps, grows,
    ends, -, -, -, -, -⟩ := h
  have hstart : started.code = b.code ∧ PlacesAtEnd b started := by
    refine ⟨(appends_startInstruction start).2.code, ?_⟩
    rcases (startInstruction_ok start).2 with ⟨-, -, rfl⟩ | ⟨-, hsplit⟩
    · exact placesAtEnd_of_eq rfl
    · exact placesAtEnd_splitBlock hsplit
  have hend : b'.code = done.code ∧ PlacesAtEnd done b' := by
    rcases ends.cases with rfl | rfl | hsplit
    · exact ⟨rfl, placesAtEnd_of_eq rfl⟩
    · exact ⟨rfl, placesAtEnd_of_eq rfl⟩
    · exact ⟨(appends_splitBlock hsplit).code, placesAtEnd_splitBlock hsplit⟩
  have hbetween : ∀ l, done.graph.position? l = started.graph.position? l := by
    intro l
    obtain ⟨blocks, rfl⟩ := record_eq record
    rw [(jumpToAll_ok jumps).1.layout.position?, ← write.graph]
  intro l p hp
  rcases hend.2 l p hp with hp | hp
  · rw [hbetween] at hp
    rcases hstart.2 l p hp with hp | hp | hp
    · exact Or.inl hp
    · exact Or.inr (Or.inl hp)
    · exact Or.inr (Or.inl (hp.trans (congrArg Array.size hstart.1)))
  · exact Or.inr (Or.inr (hp.elim (fun h => h.trans (congrArg Array.size hend.1).symm) id))

/-- What an event does to the control flow, the exception table and the first block. -/
structure Passes (event : MethodEvent) (b b' : MethodBuilder) : Prop where
  traces : Traces (∀ target ∈ event.targets, target.number < b.graph.size) b b'
  places : PlacesAtEnd b b'
  handlers : b'.handlers.toList = b.handlers.toList ++ event.handler?.toList
  begins : b.Begins → b'.Begins

theorem Passes.of_setup {event : MethodEvent} (hevent : event.handler? = none)
    (htrace : Traces (∀ target ∈ event.targets, target.number < b.graph.size) b b')
    (hplaces : PlacesAtEnd b b') (hsetup : b.SameSetup b') : Passes event b b' where
  traces := htrace
  places := hplaces
  handlers := by rw [hevent, hsetup.handlers, Option.toList_none, List.append_nil]
  begins hb entry he := htrace.advances.chain _ _ (hb entry (hsetup.entry ▸ he))

theorem Prepared.passes {stage : Nat} {event : MethodEvent} (h : Prepared stage b)
    (hf : b.setting.compute.frames = true) (hstage : ∀ n, event.stage = some n → stage ≤ n ∧ n ≤ 3)
    (hok : feed event b = .ok u b') : Passes event b b' := by
  by_cases hi : isInstruction event = true
  · have hevent : event.handler? = none := by cases event <;> first | rfl | cases hi
    have hinstruction := instruction_feed hi hok
    exact .of_setup hevent (h.coherent.marks hf hinstruction).traces hinstruction.placesAtEnd
      (h.coherent.instruction hf hinstruction).2
  by_cases hq : isQuiet event = true
  · have hevent : event.handler? = none := by cases event <;> first | rfl | cases hq
    have hquiet := quiet_feed hq hok
    exact .of_setup hevent (.of_eq hquiet.graph) (placesAtEnd_of_eq hquiet.graph)
      hquiet.extends.sameSetup
  cases event with
  | newLabels count =>
    obtain rfl := Step.modify_ok.1 hok
    refine .of_setup rfl (.addLabels b count) (fun l p hp => Or.inl ?_) ⟨rfl, rfl, rfl⟩
    rwa [← LabelGraph.position?_addLabels b.graph count l]
  | label label =>
    obtain ⟨-, -, hhandlers, hsetting, hentry, -⟩ := h.coherent.toArranged.placeLabel hok
    exact .of_setup rfl (h.coherent.traces_placeLabel hok) (placesAtEnd_placeLabel hok)
      ⟨hhandlers, hsetting, hentry⟩
  | handler start stop handler catchType =>
    obtain rfl := Step.modify_ok.1 hok
    exact ⟨.of_eq rfl, placesAtEnd_of_eq rfl, Array.toList_push, id⟩
  | code =>
    obtain rfl := Nat.le_zero.1 (hstage 0 rfl).1
    obtain ⟨hsize, hchain, -⟩ := h.unstarted rfl
    simp only [feed, MethodBuilder.beginCode, newLabel, Step.bind_ok, Step.get_ok, Step.modify_ok,
      Step.pure_ok, onGraph, Step.on_ok] at hok
    obtain ⟨entry, _, ⟨_, _, ⟨rfl, rfl⟩, _, _, rfl, rfl, rfl⟩, starts, _, ⟨g, hg, rfl⟩, rfl⟩ := hok
    have ht := h.coherent.tiled.addLabel
    have htrace := LabelGraph.advances_place ht hg
    refine ⟨⟨(LabelGraph.advances_addLabel _).trans htrace, fun hu => hu.addLabel.place hg,
      fun _ hm => hm.addLabel.place ht hg⟩, fun l p hp => ?_, (List.append_nil _).symm,
      fun _ entry he => ?_⟩
    · change g.position? l = some p at hp
      rw [position?_placing (LabelGraph.placing hg)] at hp
      split at hp
      · cases hp
        exact Or.inr (Or.inl hsize.symm)
      · rw [LabelGraph.position?_addLabel] at hp
        exact Or.inl hp
    cases he
    obtain ⟨d, hd, hnone, ⟨-, hpush, -⟩ | ⟨-, -, leader, hback, -⟩⟩ := LabelGraph.place_ok hg
    · show g.chain[0]? = _
      rw [hpush, show b.graph.addLabel.chain = #[] from hchain]
      rfl
    · rw [show b.graph.addLabel.chain = #[] from hchain] at hback
      cases hback
  | maxs stack locals => exact absurd (hstage 4 rfl).2 (by decide)
  | finish => exact absurd (hstage 5 rfl).2 (by decide)
  | annotated | «attribute» | frame | lineNumber | localVariable | codeAttribute =>
    exact absurd rfl hq
  | _ => exact absurd rfl hi

/-- An event between two instructions. -/
theorem Prepared.leads {stage : Nat} {event : MethodEvent} (h : Prepared stage b)
    (hs : 2 ≤ stage) (hi : isInstruction event = false)
    (hstage : ∀ n, event.stage = some n → stage ≤ n ∧ n ≤ 3) (hok : feed event b = .ok u b')
    (hl : b.Leads) : b'.Leads := by
  by_cases hq : isQuiet event = true
  · have hquiet := quiet_feed hq hok
    have hcode : b'.code = b.code := (appends_feed hi (fun n hn => (hstage n hn).2) hok).code
    unfold Leads
    rw [hquiet.current, hquiet.graph, hcode]
    exact hl
  cases event with
  | newLabels count =>
    obtain rfl := Step.modify_ok.1 hok
    exact hl.addLabels count
  | label label =>
    obtain ⟨-, -, -, -, -, hcode⟩ := h.coherent.toArranged.placeLabel hok
    exact Or.inr (hcode ▸ hl.placeLabel h.coherent.toArranged hok)
  | handler start stop handler catchType =>
    have := (hstage 1 rfl).1
    omega
  | code =>
    have := (hstage 0 rfl).1
    omega
  | maxs stack locals => exact absurd (hstage 4 rfl).2 (by decide)
  | finish => exact absurd (hstage 5 rfl).2 (by decide)
  | annotated | «attribute» | frame | lineNumber | localVariable | codeAttribute =>
    exact absurd rfl hq
  | _ => cases hi

/-- The labels to which instructions jump have been made before. -/
def LabelsMade : List MethodEvent → MethodBuilder → Prop
  | [], _ => True
  | event :: rest, b =>
    (∀ target ∈ event.targets, target.number < b.graph.size) ∧
      match feed event b with
      | .error _ _ => True
      | .ok _ b' => LabelsMade rest b'

theorem labelsMade_cons {event : MethodEvent} {rest : List MethodEvent}
    (h : feed event b = .ok u b') : LabelsMade (event :: rest) b ↔
      (∀ target ∈ event.targets, target.number < b.graph.size) ∧ LabelsMade rest b' := by
  rw [LabelsMade, h]

/-- What a run does to the control flow: labels are placed where instructions start, the targets of
its jumps are marked, and so are the blocks that start where an instruction has passed control on. -/
structure Marking (stage : Nat) (events : List MethodEvent) (b b' : MethodBuilder) : Prop where
  traces : Traces (LabelsMade events b) b b'
  first : (∃ event, (b.code.size, event) ∈ told events b) ∨ b.code.size = b'.code.size
  placed : ∀ label p, b'.graph.position? label = some p → b.graph.position? label = some p ∨
    (∃ event, (p, event) ∈ told events b) ∨ p = b'.code.size
  handlers : b'.handlers.toList = b.handlers.toList ++ toldHandlers events
  begins : b.Begins → b'.Begins
  targets : LabelsMade events b → ∀ x ∈ told events b, ∀ target ∈ x.2.targets,
    (b'.graph.flags target).target = true
  led : 2 ≤ stage → b.Leads → ∀ x ∈ (told events b).head?, b'.graph.MarkedAt x.1
  leads : (told events b).IsChain fun x y => x.2.transfers = true → b'.graph.MarkedAt y.1

theorem toldHandlers_cons (event : MethodEvent) (rest : List MethodEvent) :
    toldHandlers (event :: rest) = event.handler?.toList ++ toldHandlers rest := by
  unfold toldHandlers
  rw [List.filterMap_cons]
  cases event.handler? <;> rfl

namespace Marking

variable {stage next : Nat} {event : MethodEvent} {rest : List MethodEvent} {mid : MethodBuilder}

theorem traces_cons (hm : Marking next rest mid b') (hpasses : Passes event b mid)
    (hfeed : feed event b = .ok u mid) : Traces (LabelsMade (event :: rest) b) b b' :=
  (hpasses.traces.imp fun hk => ((labelsMade_cons hfeed).1 hk).1).trans
    (hm.traces.imp fun hk => ((labelsMade_cons hfeed).1 hk).2)

theorem handlers_cons (hm : Marking next rest mid b') (hpasses : Passes event b mid) :
    b'.handlers.toList = b.handlers.toList ++ toldHandlers (event :: rest) := by
  rw [hm.handlers, hpasses.handlers, toldHandlers_cons, List.append_assoc]

/-- What is placed at the end of the code stands where the next instruction comes, if any. -/
theorem placed_cons (hm : Marking next rest mid b') (hpasses : Passes event b mid)
    (hlater : ∀ x ∈ told rest mid, x ∈ told (event :: rest) b)
    (hfirst : (∃ e, (b.code.size, e) ∈ told (event :: rest) b) ∨ b.code.size = b'.code.size)
    {label : Label} {p : Nat} (hp : b'.graph.position? label = some p) :
    b.graph.position? label = some p ∨ (∃ e, (p, e) ∈ told (event :: rest) b) ∨
      p = b'.code.size := by
  rcases hm.placed label p hp with hp | ⟨e, he⟩ | hp
  · rcases hpasses.places label p hp with hp | rfl | rfl
    · exact Or.inl hp
    · exact Or.inr hfirst
    · exact Or.inr (hm.first.imp_left (Exists.imp fun e => hlater _))
  · exact Or.inr (Or.inl ⟨e, hlater _ he⟩)
  · exact Or.inr (Or.inr hp)

/-- A run that starts with an instruction. -/
theorem of_instruction (hm : Marking next rest mid b') (hnext : 2 ≤ next)
    (hpasses : Passes event b mid) (hmarks : Marks event b mid) (hi : isInstruction event = true)
    (hfeed : feed event b = .ok u mid) : Marking stage (event :: rest) b b' := by
  have htold : told (event :: rest) b = (b.code.size, event) :: told rest mid := by
    rw [told_cons hfeed, if_pos hi]
  have hfirst : (b.code.size, event) ∈ told (event :: rest) b := htold ▸ List.mem_cons_self
  refine ⟨hm.traces_cons hpasses hfeed, Or.inl ⟨_, hfirst⟩, fun l p hp => ?_,
    hm.handlers_cons hpasses, fun hb => hm.begins (hpasses.begins hb), fun hk x hx => ?_,
    fun _ hl x hx => ?_, ?_⟩
  · exact hm.placed_cons hpasses (fun x hx => htold ▸ List.mem_cons_of_mem _ hx)
      (Or.inl ⟨_, hfirst⟩) hp
  · obtain ⟨hknown, hmade⟩ := (labelsMade_cons hfeed).1 hk
    rw [htold] at hx
    rcases List.mem_cons.1 hx with rfl | hx
    · exact fun target ht => hm.traces.advances.flagged _ (hmarks.targets hknown target ht)
    · exact hm.targets hmade x hx
  · rw [htold] at hx
    cases hx
    exact (hmarks.led hl).advances hm.traces.advances
  · rw [htold]
    exact List.isChain_cons.2
      ⟨fun x hx ht => hm.led hnext (hmarks.leads ht) x hx, hm.leads⟩

/-- A run that starts with something that is no instruction. -/
theorem of_between (hm : Marking next rest mid b') (hnext : stage ≤ next)
    (hpasses : Passes event b mid) (hleads : 2 ≤ stage → b.Leads → mid.Leads)
    (hi : isInstruction event = false) (hcode : mid.code = b.code)
    (hfeed : feed event b = .ok u mid) : Marking stage (event :: rest) b b' := by
  have htold : told (event :: rest) b = told rest mid := by
    rw [told_cons hfeed, if_neg (by simp [hi])]
  have hfirst : (∃ e, (b.code.size, e) ∈ told (event :: rest) b) ∨
      b.code.size = b'.code.size := by
    rw [htold, ← hcode]
    exact hm.first
  refine ⟨hm.traces_cons hpasses hfeed, hfirst, fun l p hp => ?_, hm.handlers_cons hpasses,
    fun hb => hm.begins (hpasses.begins hb), fun hk => ?_, fun hs hl => ?_, htold ▸ hm.leads⟩
  · exact hm.placed_cons hpasses (fun x hx => htold ▸ hx) hfirst hp
  · exact htold ▸ hm.targets ((labelsMade_cons hfeed).1 hk).2
  · rw [htold]
    exact hm.led (Nat.le_trans hs hnext) (hleads hs hl)

end Marking

theorem Prepared.marking {stage : Nat} {events : List MethodEvent} (h : Prepared stage b)
    (hf : b.setting.compute.frames = true) (horder : inOrder stage events = true)
    (hlast : ∀ event ∈ events, ∀ n, event.stage = some n → n ≤ 3)
    (hok : ClassBuilder.feedMethod events b = .ok u b') : Marking stage events b b' := by
  induction events generalizing b stage with
  | nil =>
    obtain ⟨-, rfl⟩ := Step.pure_ok.1 hok
    exact ⟨.of_eq rfl, Or.inr rfl, fun l p hp => Or.inl hp, (List.append_nil _).symm, id,
      (fun _ x hx => nomatch hx), (fun _ _ x hx => nomatch hx), List.IsChain.nil⟩
  | cons event rest ih =>
    obtain ⟨_, mid, hfeed, hrest⟩ := Step.bind_ok.1 hok
    have hearly := hlast event List.mem_cons_self
    obtain ⟨next, hnext, hinstruction, hp, hsetting, horder'⟩ := h.next hf horder hearly hfeed
    have hm := ih hp (by rw [hsetting, hf]) horder' (fun e he => hlast e (List.mem_cons_of_mem _ he))
      hrest
    have hstage : ∀ n, event.stage = some n → stage ≤ n ∧ n ≤ 3 := by
      intro n hn
      unfold inOrder at horder
      rw [hn] at horder
      simp only [Bool.and_eq_true, decide_eq_true_eq] at horder
      exact ⟨horder.1, hearly n hn⟩
    have hpasses := h.passes hf hstage hfeed
    cases hi : isInstruction event with
    | true =>
      exact hm.of_instruction (hinstruction hi) hpasses
        (h.coherent.marks hf (instruction_feed hi hfeed)) hi hfeed
    | false =>
      have hcode := (appends_feed hi (fun n hn => (hstage n hn).2) hfeed).code
      exact hm.of_between hnext hpasses (fun hs => h.leads hs hi hstage hfeed) hi hcode hfeed

end MethodBuilder

end JvmClass
