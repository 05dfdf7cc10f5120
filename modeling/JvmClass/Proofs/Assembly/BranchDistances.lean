import JvmClass.Proofs.Assembly.Decoding
import JvmClass.Proofs.Assembly.Settling
import JvmClass.Proofs.Assembly.Storing

/-!
# Branches that do not fit

A jump is written before the distance to its target is known, unless the target comes first. A
conditional jump always gets a distance of sixteen bits, and a `goto` or `jsr` gets one of
thirty-two bits if its target is known to lie too far back. When the body ends, distances of sixteen
bits that are too large are an error, and nothing else is reported as one
(`MethodBuilder.branchOverflow_iff`).
-/

namespace JvmClass

open Opcode (goto goto_w jsr jsr_w)

/-- A jump of a run, as it came. -/
structure Branch where
  /-- Where the jump starts, from which its distance counts. -/
  source : Nat
  op : UInt8
  target : Label
  /-- Where the target had its place before, if it had one. -/
  known : Option Nat

namespace Branch

/-- The distance has sixteen bits wherever the target may come to lie: the jump is conditional, or
it is a `goto` or `jsr` whose target has no place yet. -/
def isNarrow (x : Branch) : Bool :=
  Opcode.isConditionalJump x.op || (x.op == goto || x.op == jsr) && x.known.isNone

/-- The target lies further away than sixteen bits reach. -/
def Overflows (g : LabelGraph) (x : Branch) : Prop :=
  ∃ place, g.position? x.target = some place ∧ ¬ Near x.source place

/-- The jump is written with a distance of thirty-two bits. -/
def isWide (x : Branch) : Bool :=
  x.op == goto_w || x.op == jsr_w ||
    (x.op == goto || x.op == jsr) && x.known.any (· + 0x8000 < x.source)

/-- The room that is left for the distance, after the code of the jump. -/
def fixup (x : Branch) : Fixup := ⟨x.source, x.source + 1, x.target, x.isWide⟩

/-- What holds of a jump that a run has written: its code is that of a jump, and where its target
was known to be, it still is, before the jump. -/
structure Written (body : MethodBuilder) (x : Branch) : Prop where
  jumps : (Opcode.isSubroutineCall x.op || Opcode.isGoto x.op ||
    Opcode.isConditionalJump x.op) = true
  begun : body.entry.isSome = true
  known : ∀ p, x.known = some p → body.graph.position? x.target = some p ∧ p ≤ x.source

/-- No conditional jump is a `goto` or a subroutine call. -/
theorem conditional_ne {op : UInt8} (h : Opcode.isConditionalJump op = true) :
    op ≠ goto ∧ op ≠ jsr ∧ op ≠ goto_w ∧ op ≠ jsr_w := by
  refine ⟨?_, ?_, ?_, ?_⟩ <;> rintro rfl <;> exact absurd h (by decide)

theorem isWide_of_isNarrow {x : Branch} (h : x.isNarrow = true) : x.isWide = false := by
  unfold isNarrow at h
  unfold isWide
  cases hc : Opcode.isConditionalJump x.op with
  | true =>
    obtain ⟨h1, h2, h3, h4⟩ := conditional_ne hc
    simp [h1, h2, h3, h4]
  | false =>
    simp only [hc, Bool.false_or, Bool.and_eq_true, Bool.or_eq_true, beq_iff_eq,
      Option.isNone_iff_eq_none] at h
    obtain ⟨hop, hknown⟩ := h
    rcases hop with hop | hop <;> simp [hop, hknown] <;> decide

/-- A jump of sixteen bits that does not fit was written before its target, or is conditional: back
to a target that is known, sixteen bits are only chosen where they reach. -/
theorem Written.isNarrow {body : MethodBuilder} {x : Branch} (h : x.Written body)
    (hwide : x.isWide = false) (ho : x.Overflows body.graph) : x.isNarrow = true := by
  unfold Branch.isNarrow
  cases hc : Opcode.isConditionalJump x.op with
  | true => rfl
  | false =>
    have hjumps := h.jumps
    simp only [isWide, Bool.or_eq_false_iff, Bool.and_eq_false_iff, beq_eq_false_iff_ne] at hwide
    obtain ⟨⟨hgoto, hjsr⟩, hfar⟩ := hwide
    have hop : (x.op == goto || x.op == jsr) = true := by
      simpa [hc, Opcode.isSubroutineCall, Opcode.isGoto, hgoto, hjsr, or_comm] using hjumps
    rw [hop, Bool.false_or, Bool.true_and]
    cases hk : x.known with
    | none => rfl
    | some p =>
      obtain ⟨hp, hle⟩ := h.known p hk
      obtain ⟨place, hplace, hnear⟩ := ho
      rw [hp] at hplace
      cases hplace
      refine absurd ?_ hnear
      have hnot : ¬ p + 0x8000 < x.source := by
        rw [hk] at hfar
        simp only [Bool.or_eq_true, beq_iff_eq] at hop
        rcases hfar with hne | hfar
        · exact absurd hop (by simpa using hne)
        · simpa using hfar
      unfold Near
      omega

end Branch

/-- The jump that an event tells, if it does. -/
def MethodEvent.branch? (b : MethodBuilder) : MethodEvent → Option Branch
  | .jump op target => some ⟨b.code.size, op, target, b.graph.position? target⟩
  | _ => none

namespace MethodEvent

theorem branch?_eq_some {b : MethodBuilder} {event : MethodEvent} {x : Branch} :
    event.branch? b = some x ↔ ∃ op target,
      event = .jump op target ∧ x = ⟨b.code.size, op, target, b.graph.position? target⟩ := by
  cases event <;> simp [branch?, eq_comm]

/-- Only jumps leave room for distances of sixteen bits. -/
theorem wide_of_leaves {b : MethodBuilder} {event : MethodEvent} {fixup : Fixup}
    (h : event.Leaves fixup) (hx : event.branch? b = none) : fixup.wide = true := by
  cases event with
  | jump op target => cases hx
  | _ => exact h.2

/-- Room is left for distances to targets of the event. -/
theorem target_of_leaves {event : MethodEvent} {fixup : Fixup} (h : event.Leaves fixup) :
    fixup.target ∈ event.targets := by
  cases event with
  | jump op target => exact List.mem_singleton.2 h
  | _ => exact h.1

end MethodEvent

namespace MethodBuilder

variable {b b' body : MethodBuilder} {u : Unit}

/-- The jumps of a run, as they come. -/
def branches : List MethodEvent → MethodBuilder → List Branch
  | [], _ => []
  | event :: rest, b =>
    match feed event b with
    | .error _ _ => []
    | .ok _ b' => (event.branch? b).toList ++ branches rest b'

theorem branches_cons {event : MethodEvent} {rest : List MethodEvent}
    (h : feed event b = .ok u b') :
    branches (event :: rest) b = (event.branch? b).toList ++ branches rest b' := by
  rw [branches, h]

/-- The room that is left for distances of sixteen bits. -/
def narrowFixups (b : MethodBuilder) : List Fixup := b.fixups.toList.filter (!·.wide)

section Jumps

/-- A block that is started for an instruction has its label at the end of the code. -/
theorem position?_splitBlock (h : splitBlock b = .ok u b') (l : Label) :
    b'.graph.position? l =
      if l = b.graph.nextLabel then some b.code.size else b.graph.position? l := by
  simp only [splitBlock, newLabel, Step.bind_ok, Step.get_ok, Step.modify_ok, Step.pure_ok] at h
  obtain ⟨label, _, ⟨_, _, ⟨rfl, rfl⟩, _, _, rfl, rfl, rfl⟩, hplace⟩ := h
  rw [position?_placeLabel hplace, LabelGraph.position?_addLabel]

/-- Starting a block for a jump does not matter for its form. -/
theorem jumpForm_started {op : UInt8} {target : Label} {offset : Nat}
    (h : startInstruction b = .ok offset b') :
    b'.jumpForm op b.code.size target = b.jumpForm op b.code.size target := by
  obtain ⟨-, ⟨block, -, rfl⟩ | ⟨-, hsplit⟩⟩ := startInstruction_ok h
  · rfl
  · have hnew : b.graph.position? b.graph.nextLabel = none := by
      simp [LabelGraph.position?, LabelGraph.data?, LabelGraph.nextLabel]
    unfold jumpForm
    rw [position?_splitBlock hsplit]
    split
    · rename_i heq
      split at heq
      · cases heq
      · rw [heq]
    · rename_i p heq
      split at heq
      · rename_i hl
        cases heq
        rw [hl, hnew]
        simp
      · rw [heq]

/-- The form of a jump decides how many bits its distance has. -/
theorem isWide_jumpForm (op : UInt8) (target : Label) :
    (b.jumpForm op b.code.size target == goto_w || b.jumpForm op b.code.size target == jsr_w) =
      (⟨b.code.size, op, target, b.graph.position? target⟩ : Branch).isWide := by
  unfold jumpForm Branch.isWide
  cases hp : b.graph.position? target with
  | none => simp
  | some p =>
    simp only [Option.any_some]
    by_cases hfar : p + 0x8000 < b.code.size
    · rw [if_pos hfar]
      by_cases hgoto : op = goto
      · subst hgoto
        simp [hfar]
      · by_cases hjsr : op = jsr
        · subst hjsr
          rw [if_neg hgoto, if_pos rfl]
          simp [hfar]
        · simp [hgoto, hjsr]
    · simp [hfar]

/-- A jump is written at the end of the code, with room for its distance. -/
theorem jump_ok {op : UInt8} {target : Label} (h : jump op target b = .ok u b') :
    (Opcode.isSubroutineCall op || Opcode.isGoto op || Opcode.isConditionalJump op) = true ∧
      b.entry.isSome = true ∧ b.code.size < b'.code.size ∧
      b'.fixups.toList = b.fixups.toList ++
        [(⟨b.code.size, op, target, b.graph.position? target⟩ : Branch).fixup] := by
  simp only [jump, Step.bind_ok, Step.get_ok] at h
  obtain ⟨offset, started, h1, _, _, ⟨rfl, rfl⟩, h⟩ := h
  rw [Step.guard_ok] at h
  obtain ⟨-, h⟩ := h
  rw [Step.guard_ok] at h
  obtain ⟨hop, h⟩ := h
  simp only [Step.bind_ok, Step.get_ok] at h
  obtain ⟨_, _, ⟨rfl, rfl⟩, _, _, h2, _, fixed, h3, _, recorded, h4, _, jumped, h5, h6⟩ := h
  obtain rfl := write_ok h2
  obtain ⟨graph, hl, rfl⟩ := jumpTo_eq h5
  obtain ⟨rfl, hstart⟩ := appends_startInstruction h1
  have hjumped : Appends [] recorded { recorded with graph } := .of_eq rfl rfl rfl rfl hl.position?
  have hlast : Appends [] { recorded with graph } b' := by
    split at h6
    · exact appends_endBlock h6
    · exact appends_splitBlock h6
  have hall := ((hstart.trans ((appends_bytes started [_]).trans (appends_putFixup h3))).andThen
    (appends_record h4)).andThen (hjumped.andThen hlast)
  refine ⟨not_not.1 (by simpa using hop), ?_, ?_, ?_⟩
  · simp only [startInstruction, Step.bind_ok, Step.get_ok] at h1
    obtain ⟨_, _, ⟨rfl, rfl⟩, h1⟩ := h1
    rw [Step.guard_ok] at h1
    simpa [Option.isSome_iff_ne_none] using h1.1
  · rw [hall.code, Bytes.size_putAll]
    simp [Piece.blank]
  · rw [hall.fixups, Branch.fixup, ← isWide_jumpForm, jumpForm_started h1]
    rfl

end Jumps

section Runs

/-- An event leaves room for the distance of its jump, and for no other one of sixteen bits. -/
theorem narrowFixups_feed {stage : Nat} {event : MethodEvent} (hempty : stage = 0 → b.code.size = 0)
    (hstage : ∀ n, event.stage = some n → stage ≤ n ∧ n ≤ 3) (h : feed event b = .ok u b') :
    b'.narrowFixups =
      b.narrowFixups ++ ((event.branch? b).toList.filter (!·.isWide)).map Branch.fixup := by
  unfold narrowFixups
  cases hx : event.branch? b with
  | none =>
    have hchanges := (changes_of_event hempty hstage).1
    rw [h] at hchanges
    obtain ⟨added, hadded, hleaves⟩ := hchanges.fixups
    have hwide : added.filter (!·.wide) = [] :=
      List.filter_eq_nil_iff.2 fun fixup hf => by
        simp [MethodEvent.wide_of_leaves (hleaves fixup hf) hx]
    rw [show b'.fixups.toList = _ from hadded, List.filter_append, hwide]
    rfl
  | some x =>
    obtain ⟨op, target, rfl, rfl⟩ := MethodEvent.branch?_eq_some.1 hx
    obtain ⟨-, -, -, hfixups⟩ := jump_ok h
    rw [hfixups, List.filter_append, Option.toList_some]
    cases hw : (⟨b.code.size, op, target, b.graph.position? target⟩ : Branch).isWide <;>
      simp [Branch.fixup, hw]

theorem Sequenced.position_le (h : b.Sequenced) {label : Label} {p : Nat}
    (hp : b.graph.position? label = some p) : p ≤ b.code.size := by
  obtain ⟨⟨i, hi⟩, hq⟩ := h.tiled.placed label p hp
  exact h.tiled.position_le hi hq

/-- A run in order leaves room for the distances of its jumps one after another. -/
theorem branches_of_run {stage : Nat} {events : List MethodEvent} (hb : b.Sequenced)
    (hempty : stage = 0 → b.code.size = 0) (horder : inOrder stage events = true)
    (hlast : ∀ event ∈ events, ∀ n, event.stage = some n → n ≤ 3)
    (hok : ClassBuilder.feedMethod events b = .ok u body) :
    body.narrowFixups =
        b.narrowFixups ++ ((branches events b).filter (!·.isWide)).map Branch.fixup ∧
      (∀ x ∈ branches events b, x.Written body ∧ b.code.size ≤ x.source) ∧
      ((branches events b).map Branch.source).Pairwise (· < ·) := by
  induction events generalizing b stage with
  | nil =>
    obtain ⟨-, rfl⟩ := Step.pure_ok.1 hok
    simp [branches]
  | cons event rest ih =>
    obtain ⟨_, mid, hfeed, hrest⟩ := Step.bind_ok.1 hok
    obtain ⟨hstage, horder⟩ := inOrder_cons.1 horder
    have hnext : ∀ n, event.stage = some n → stage ≤ n ∧ n ≤ 3 := fun n hn =>
      ⟨hstage n hn, hlast event List.mem_cons_self n hn⟩
    have hlater : ∀ e ∈ rest, ∀ n, e.stage = some n → n ≤ 3 := fun e he =>
      hlast e (List.mem_cons_of_mem _ he)
    obtain ⟨hchanges, hempty'⟩ := changes_of_event hempty hnext
    simp only [hfeed, Step.left] at hchanges hempty'
    obtain ⟨hnarrow, hwritten, hsources⟩ :=
      ih (hb.changes hchanges) hempty' horder hlater hrest
    have hafter := changes_of_run hempty' horder hlater
    rw [leftAfter_of_ok hrest] at hafter
    have hsize : b.code.size ≤ mid.code.size := hchanges.size_le
    rw [branches_cons hfeed]
    refine ⟨?_, ?_, ?_⟩
    · rw [hnarrow, narrowFixups_feed hempty hnext hfeed, List.filter_append, List.map_append,
        List.append_assoc]
    · intro x hx
      rcases List.mem_append.1 hx with hx | hx
      · obtain ⟨op, target, rfl, rfl⟩ :=
          MethodEvent.branch?_eq_some.1 (Option.mem_toList.1 hx)
        obtain ⟨hop, hentry, -, -⟩ := jump_ok hfeed
        refine ⟨⟨hop, hafter.begun (hchanges.begun hentry), fun p hp => ?_⟩, Nat.le_refl _⟩
        exact ⟨hafter.position? (hchanges.position? hp), hb.position_le hp⟩
      · obtain ⟨hw, hle⟩ := hwritten x hx
        exact ⟨hw, Nat.le_trans hsize hle⟩
    · rw [List.map_append, List.pairwise_append]
      refine ⟨?_, hsources, fun p hp q hq => ?_⟩
      · cases event.branch? b <;> simp
      · obtain ⟨x, hx, rfl⟩ := List.mem_map.1 hp
        obtain ⟨y, hy, rfl⟩ := List.mem_map.1 hq
        obtain ⟨op, target, rfl, rfl⟩ :=
          MethodEvent.branch?_eq_some.1 (Option.mem_toList.1 hx)
        exact Nat.lt_of_lt_of_le (jump_ok hfeed).2.2.1 (hwritten y hy).2

end Runs

section Ends

/-- A distance that does not fit is the only reason why none can be filled in. -/
theorem bytes_error {fixup : Fixup} {place : Nat} {e : ClassError}
    (h : fixup.bytes place = .error e) :
    fixup.wide = false ∧ ¬ Near fixup.source place ∧
      e = .branchOffsetOverflow fixup.source place := by
  unfold Fixup.bytes at h
  simp only at h
  split at h
  · cases h
  · rename_i hw
    split at h
    · cases h
    · rename_i hd
      cases h
      exact ⟨by simpa using hw, by simpa [Near] using hd, rfl⟩

theorem patch_cons {fixup : Fixup} {rest : List Fixup} {place : Nat}
    (hp : b.graph.offset fixup.target = .ok place) :
    patch (fixup :: rest) b =
      match fixup.bytes place with
      | .ok bytes => patch rest { b with code := b.code.overwrite fixup.place bytes }
      | .error e => .error e b := by
  simp only [patch, bind, EStateM.bind, Step.get_run, hp, Step.of, pure, EStateM.pure]
  cases fixup.bytes place <;> rfl

/-- If all targets have their offsets, then either every distance fits, or the first one that does
not is reported. -/
theorem patch_cases {fixups : List Fixup}
    (hall : ∀ fixup ∈ fixups, ∃ place, b.graph.offset fixup.target = .ok place) :
    ((∃ b', patch fixups b = .ok () b') ∧ ∀ fixup ∈ fixups, fixup.wide = false →
        ∀ place, b.graph.offset fixup.target = .ok place → Near fixup.source place) ∨
      ∃ fixup ∈ fixups, fixup.wide = false ∧ ∃ place b',
        b.graph.offset fixup.target = .ok place ∧ ¬ Near fixup.source place ∧
          patch fixups b = .error (.branchOffsetOverflow fixup.source place) b' := by
  induction fixups generalizing b with
  | nil => exact Or.inl ⟨⟨b, rfl⟩, by simp⟩
  | cons fixup rest ih =>
    obtain ⟨⟨place, hp⟩, hrest⟩ := List.forall_mem_cons.1 hall
    rw [patch_cons hp]
    cases hbytes : fixup.bytes place with
    | error e =>
      obtain ⟨hw, hnear, rfl⟩ := bytes_error hbytes
      exact Or.inr ⟨fixup, List.mem_cons_self, hw, place, b, hp, hnear, rfl⟩
    | ok bytes =>
      rcases @ih { b with code := b.code.overwrite fixup.place bytes } hrest with
        ⟨hok, hfits⟩ | ⟨f, hf, hfails⟩
      · refine Or.inl ⟨hok, List.forall_mem_cons.2 ⟨fun hw place' hp' => ?_, hfits⟩⟩
        rw [hp] at hp'
        cases hp'
        exact (Fixup.bytes_short hw hbytes).1
      · exact Or.inr ⟨f, List.mem_cons_of_mem _ hf, hfails⟩

theorem isOfStoring_of_overflow {e : ClassError} (h : e.isBranchOverflow = true) :
    e.isOfStoring = false := by
  cases e <;> first | rfl | cases h

/-- Settling a body that has begun and fits starts with the distances of its branches. -/
theorem settleBody_eq {entry : Label} (stack locals : UInt16) (hentry : b.entry = some entry)
    (hsize : b.code.size < 65536) :
    settleBody stack locals b =
      (do
        patch b.fixups.toList
        handOver entry stack locals) { b with graph := b.graph.resolve } := by
  generalize hresolved : ({ b with graph := b.graph.resolve } : MethodBuilder) = resolved
  simp only [settleBody, bind, EStateM.bind, Step.get_run, hentry]
  rw [if_neg (by omega), ← hresolved]
  rfl

/-- A branch that does not fit is only reported while distances are filled in. -/
theorem patch_of_finishBody {stack locals : UInt16} {e : ClassError} (hb : b.Sequenced)
    (hsize : b.code.size < 65536) (he : e.isBranchOverflow = true)
    (h : finishBody stack locals b = .error e b') :
    patch b.fixups.toList { b with graph := b.graph.resolve } = .error e b' := by
  rw [finishBody_eq] at h
  rcases Step.bind_error.1 h with h | ⟨handover, t, -, h⟩
  · rcases Option.eq_none_or_eq_some b.entry with hentry | ⟨entry, hentry⟩
    · simp only [settleBody, bind, EStateM.bind, Step.get_run, hentry] at h
      cases h
      cases he
    · rw [settleBody_eq stack locals hentry hsize] at h
      rcases Step.bind_error.1 h with h | ⟨_, patched, hpatch, h⟩
      · exact h
      · have hresolved : Sized b.code.size { b with graph := b.graph.resolve } :=
          ⟨hb.relayout (LabelGraph.sameLayout_resolve _), rfl⟩
        have hends := settling_handOver entry stack locals patched
          ((upholds_patch _).ok hresolved hpatch)
        rw [h] at hends
        exact absurd (hends.2.symm.trans he) Bool.false_ne_true
  · have hends := ((storing_storeFrames handover).bind storing_completeBody) t trivial
    rw [h] at hends
    exact absurd ((isOfStoring_of_overflow he).symm.trans hends.2) Bool.false_ne_true

theorem finishBody_of_patch {stack locals : UInt16} {e : ClassError}
    (hentry : b.entry.isSome = true) (hsize : b.code.size < 65536)
    (h : patch b.fixups.toList { b with graph := b.graph.resolve } = .error e b') :
    finishBody stack locals b = .error e b' := by
  obtain ⟨entry, hentry⟩ := Option.isSome_iff_exists.1 hentry
  rw [finishBody_eq]
  refine Step.bind_error.2 (Or.inl ?_)
  rw [settleBody_eq stack locals hentry hsize]
  exact Step.bind_error.2 (Or.inl h)

/-- Either no jump of sixteen bits overflows, and no branch is reported, or one that does is. -/
theorem finishBody_cases {setting : MethodSetting} {pool : ConstantPool}
    {events : List MethodEvent} (stack locals : UInt16) (hevents : inOrder 0 events = true)
    (hearly : ∀ event ∈ events, ∀ n, event.stage = some n → n ≤ 3)
    (hok : ClassBuilder.feedMethod events (ofSetting setting pool) = .ok u body)
    (hplaced : ∀ event ∈ events, ∀ target ∈ event.targets,
      ∃ place, body.graph.position? target = some place)
    (hsize : body.code.size < 65536) :
    (∀ e b', finishBody stack locals body = .error e b' → e.isBranchOverflow = false) ∧
        (∀ x ∈ branches events (ofSetting setting pool), x.isNarrow = true →
          ¬ x.Overflows body.graph) ∨
      ∃ x ∈ branches events (ofSetting setting pool), x.isNarrow = true ∧ ∃ place b',
        body.graph.position? x.target = some place ∧ ¬ Near x.source place ∧
          finishBody stack locals body = .error (.branchOffsetOverflow x.source place) b' := by
  have hstart := sequenced_ofSetting setting pool
  have hchanges := changes_of_run (b := ofSetting setting pool) (fun _ => rfl) hevents hearly
  rw [leftAfter_of_ok hok] at hchanges
  have hbody := hstart.changes hchanges
  obtain ⟨hnarrow, hwritten, -⟩ := branches_of_run hstart (fun _ => rfl) hevents hearly hok
  have hoffset : ∀ label place, body.graph.resolve.offset label = .ok place ↔
      body.graph.position? label = some place := by
    intro label place
    rw [LabelGraph.offset_resolve]
    cases body.graph.position? label <;> simp
  -- Room of sixteen bits is that of jumps.
  have hmem : ∀ fixup, (fixup ∈ body.fixups.toList ∧ fixup.wide = false) ↔
      ∃ x ∈ branches events (ofSetting setting pool), x.isWide = false ∧ x.fixup = fixup := by
    intro fixup
    have hiff := Iff.of_eq (congrArg (fixup ∈ ·) hnarrow)
    simpa [narrowFixups, ofSetting, and_assoc] using hiff
  have htargets : ∀ fixup ∈ body.fixups.toList,
      ∃ place, body.graph.resolve.offset fixup.target = .ok place := by
    intro fixup hf
    obtain ⟨added, hadded, hleaves⟩ := hchanges.fixups
    rw [show body.fixups.toList = added from hadded] at hf
    obtain ⟨event, hevent, hleave⟩ := hleaves fixup hf
    obtain ⟨place, hp⟩ := hplaced event hevent _ (MethodEvent.target_of_leaves hleave)
    exact ⟨place, (hoffset _ _).2 hp⟩
  rcases @patch_cases { body with graph := body.graph.resolve } _ htargets with
    ⟨⟨b', hpatch⟩, hfits⟩ | ⟨fixup, hf, hw, place, b', hp, hnear, hpatch⟩
  · refine Or.inl ⟨fun e b'' h => ?_, ?_⟩
    · by_contra he
      have herror := patch_of_finishBody hbody hsize (by simpa using he) h
      rw [hpatch] at herror
      cases herror
    · rintro x hx hn ⟨place, hp, hnear⟩
      have hwide := Branch.isWide_of_isNarrow hn
      obtain ⟨hf, -⟩ := (hmem x.fixup).2 ⟨x, hx, hwide, rfl⟩
      exact hnear (hfits x.fixup hf hwide place ((hoffset _ _).2 hp))
  · obtain ⟨x, hx, hwide, rfl⟩ := (hmem fixup).1 ⟨hf, hw⟩
    have hp := (hoffset _ _).1 hp
    obtain ⟨hx', -⟩ := hwritten x hx
    exact Or.inr ⟨x, hx, hx'.isNarrow hwide ⟨place, hp, hnear⟩, place, b', hp, hnear,
      finishBody_of_patch hx'.begun hsize hpatch⟩

end Ends

/-- **Branch overflow is exact.** After a run in order of at most 65535 bytes of code in which every
target has its place, ending the body reports that a branch does not fit exactly if some conditional
jump, or some `goto` or `jsr` whose target had no place when it came, lies too far from its target
for sixteen bits. It is such a jump that is reported, and never a `goto` or `jsr` back to a label
that had its place. -/
theorem branchOverflow_iff {setting : MethodSetting} {pool : ConstantPool}
    {events : List MethodEvent} {stack locals : UInt16}
    (horder : inOrder 0 (events ++ [.maxs stack locals]) = true)
    (hok : ClassBuilder.feedMethod events (ofSetting setting pool) = .ok u body)
    (hplaced : ∀ event ∈ events, ∀ target ∈ event.targets,
      ∃ place, body.graph.position? target = some place)
    (hsize : body.code.size ≤ 65535) :
    ((∃ source target left,
        finishBody stack locals body = .error (.branchOffsetOverflow source target) left) ↔
      ∃ x ∈ branches events (ofSetting setting pool),
        x.isNarrow = true ∧ x.Overflows body.graph) ∧
    ∀ source target left,
      finishBody stack locals body = .error (.branchOffsetOverflow source target) left →
        (∃ x ∈ branches events (ofSetting setting pool), x.isNarrow = true ∧
          x.source = source ∧ body.graph.position? x.target = some target ∧
            ¬ Near source target) ∧
        ∀ x ∈ branches events (ofSetting setting pool), (x.op = goto ∨ x.op = jsr) →
          x.known.isSome = true → x.source ≠ source := by
  obtain ⟨-, hevents, hearly⟩ := inOrder_append_maxs horder
  obtain ⟨-, -, hsources⟩ :=
    branches_of_run (sequenced_ofSetting setting pool) (fun _ => rfl) hevents hearly hok
  rcases finishBody_cases stack locals hevents hearly hok hplaced (Nat.lt_succ_of_le hsize) with
    ⟨hnone, hfits⟩ | ⟨x, hx, hn, place, b', hp, hnear, hfails⟩
  · refine ⟨⟨?_, fun ⟨x, hx, hn, ho⟩ => absurd ho (hfits x hx hn)⟩,
      fun _ _ _ h => nomatch hnone _ _ h⟩
    rintro ⟨_, _, _, h⟩
    exact nomatch hnone _ _ h
  · refine ⟨⟨fun _ => ⟨x, hx, hn, place, hp, hnear⟩, fun _ => ⟨_, _, _, hfails⟩⟩,
      fun source target left h => ?_⟩
    rw [hfails] at h
    cases h
    refine ⟨⟨x, hx, hn, rfl, hp, hnear⟩, fun y hy hop hknown hsame => ?_⟩
    -- No two jumps start at one place, and the one that is reported has no target that is known.
    have hyx : y = x := List.inj_on_of_nodup_map hsources.nodup hy hx hsame
    subst hyx
    have hcond : Opcode.isConditionalJump y.op = false := by
      rcases hop with hop | hop <;> rw [hop] <;> rfl
    simp only [Branch.isNarrow, hcond, Bool.false_or, Bool.and_eq_true,
      Option.isNone_iff_eq_none] at hn
    rw [hn.2] at hknown
    cases hknown

section Nops

open Opcode (nop return_void)

/-- A `goto` to a label past instructions that do nothing: one, and a number of others. -/
def gotoOver (count : Nat) : List MethodEvent :=
  [.newLabels 1, .code, .jump goto ⟨0⟩, .plain nop] ++
    (List.replicate count (.plain nop) ++ [.label ⟨0⟩, .plain return_void])

theorem inOrder_gotoOver (count : Nat) : inOrder 0 (gotoOver count ++ [.maxs 0 0]) = true := by
  have hnops : inOrder 2 (List.replicate count (.plain nop) ++
      [.label ⟨0⟩, .plain return_void, .maxs 0 0]) = true := by
    induction count with
    | zero => rfl
    | succ count ih => exact ih
  rw [gotoOver, List.append_assoc, List.append_assoc]
  exact hnops

theorem feed_nop {block : Label} (hc : b.setting.compute.computesMaxs = false)
    (he : b.entry.isNone = false) (hb : b.current = some block) :
    feed (.plain nop) b = .ok () { b with code := b.code.putU8 nop } := by
  have hstart : startInstruction b = .ok b.code.size b := by
    simp [startInstruction, bind, EStateM.bind, Step.get_run, he, hb, pure, EStateM.pure]
  have hplain : plain nop b = .ok () { b with code := b.code.putU8 nop } := by
    simp only [plain, Step.bind_ok]
    refine ⟨_, _, hstart, (), _, rfl, (), _, ?_, rfl⟩
    simp [record, bind, EStateM.bind, Step.get_run, hc]
    rfl
  exact hplain

theorem feedMethod_nops (count : Nat) {block : Label}
    (hc : b.setting.compute.computesMaxs = false) (he : b.entry.isNone = false)
    (hb : b.current = some block) :
    ClassBuilder.feedMethod (List.replicate count (.plain nop)) b =
      .ok () { b with code := b.code.putAll (List.replicate count nop) } := by
  induction count generalizing b with
  | zero => rfl
  | succ count ih =>
    rw [List.replicate_succ]
    exact Step.bind_ok.2
      ⟨(), _, feed_nop hc he hb, @ih { b with code := b.code.putU8 nop } hc he hb⟩

/-- The run ends with its label past the instructions that do nothing. -/
theorem gotoOver_runs (count : Nat) :
    ∃ body, ClassBuilder.feedMethod (gotoOver count) (ofSetting uncomputed .empty) = .ok () body ∧
      body.graph.position? ⟨0⟩ = some (count + 4) ∧ body.code.size = count + 5 := by
  obtain ⟨started, hstarted, hc, he, hb, hsize, hlabel⟩ : ∃ started,
      ClassBuilder.feedMethod [.newLabels 1, .code, .jump goto ⟨0⟩, .plain nop]
        (ofSetting uncomputed .empty) = .ok () started ∧
      started.setting.compute.computesMaxs = false ∧ started.entry.isNone = false ∧
      started.current = some ⟨2⟩ ∧ started.code.size = 4 ∧
      ∀ code : Bytes, code.size = count + 4 → ∃ body,
        ClassBuilder.feedMethod [.label ⟨0⟩, .plain return_void] { started with code } =
          .ok () body ∧ body.graph.position? ⟨0⟩ = some (count + 4) ∧
        body.code = code.putU8 return_void := by
    refine ⟨_, rfl, rfl, rfl, rfl, rfl, fun code hcode => ?_⟩
    simp only [ClassBuilder.feedMethod, feed, placeLabel, bind, EStateM.bind, Step.get_run]
    rw [hcode]
    exact ⟨_, rfl, rfl, rfl⟩
  have hcode : (started.code.putAll (List.replicate count nop)).size = count + 4 := by
    rw [Bytes.size_putAll, hsize, List.length_replicate, Nat.add_comm]
  obtain ⟨body, hbody, hplace, hends⟩ := hlabel _ hcode
  refine ⟨body, ?_, hplace, by rw [hends, Bytes.size_putU8, hcode]⟩
  exact ClassBuilder.feedMethod_append.2 ⟨started, hstarted,
    ClassBuilder.feedMethod_append.2 ⟨_, feedMethod_nops count hc he hb, hbody⟩⟩

theorem branches_eq_nil {events : List MethodEvent}
    (h : ∀ event ∈ events, ∀ b, event.branch? b = none) (b : MethodBuilder) :
    branches events b = [] := by
  induction events generalizing b with
  | nil => rfl
  | cons event rest ih =>
    unfold branches
    split
    · rfl
    · rw [h event List.mem_cons_self b, ih fun e he => h e (List.mem_cons_of_mem _ he)]
      rfl

/-- The only jump of the run is its first instruction. -/
theorem branches_gotoOver (count : Nat) :
    branches (gotoOver count) (ofSetting uncomputed .empty) = [⟨0, goto, ⟨0⟩, none⟩] := by
  obtain ⟨labelled, begun, jumped, hlabelled, hbegun, hjumped, hx⟩ : ∃ labelled begun jumped,
      feed (.newLabels 1) (ofSetting uncomputed .empty) = .ok () labelled ∧
      feed .code labelled = .ok () begun ∧ feed (.jump goto ⟨0⟩) begun = .ok () jumped ∧
      MethodEvent.branch? begun (.jump goto ⟨0⟩) = some ⟨0, goto, ⟨0⟩, none⟩ :=
    ⟨_, _, _, rfl, rfl, rfl, rfl⟩
  have hrest : ∀ event ∈ .plain nop :: (List.replicate count (.plain nop) ++
      [.label ⟨0⟩, .plain return_void]), ∀ b, MethodEvent.branch? b event = none := by
    intro event he b
    simp only [List.mem_cons, List.mem_append, List.mem_replicate, List.not_mem_nil, or_false] at he
    rcases he with rfl | ⟨-, rfl⟩ | rfl | rfl <;> rfl
  show branches (.newLabels 1 :: .code :: .jump goto ⟨0⟩ :: .plain nop ::
    (List.replicate count (.plain nop) ++ _)) _ = _
  rw [branches_cons hlabelled, branches_cons hbegun, branches_cons hjumped, hx,
    branches_eq_nil hrest]
  rfl

/-- A `goto` past 40000 bytes does not fit. -/
theorem branchOverflow_iff_gotoOver :
    inOrder 0 (gotoOver 39999 ++ [.maxs 0 0]) = true ∧
      ∃ body, ClassBuilder.feedMethod (gotoOver 39999) (ofSetting uncomputed .empty) =
          .ok () body ∧
        (∀ event ∈ gotoOver 39999, ∀ target ∈ event.targets,
          ∃ place, body.graph.position? target = some place) ∧
        body.code.size ≤ 65535 ∧
        ∃ left, finishBody 0 0 body = .error (.branchOffsetOverflow 0 40003) left := by
  have horder := inOrder_gotoOver 39999
  obtain ⟨body, hbody, hplace, hsize⟩ := gotoOver_runs 39999
  have htargets : ∀ event ∈ gotoOver 39999, ∀ target ∈ event.targets,
      ∃ place, body.graph.position? target = some place := by
    intro event he target ht
    simp only [gotoOver, List.mem_cons, List.mem_append, List.mem_replicate, List.not_mem_nil,
      or_false] at he
    rcases he with (rfl | rfl | rfl | rfl) | ⟨-, rfl⟩ | rfl | rfl <;>
      simp only [MethodEvent.targets, List.mem_singleton, List.not_mem_nil] at ht
    exact ⟨_, ht ▸ hplace⟩
  have hfits : body.code.size ≤ 65535 := by omega
  obtain ⟨hiff, hreported⟩ := branchOverflow_iff horder hbody htargets hfits
  rw [branches_gotoOver] at hiff hreported
  obtain ⟨source, target, left, hfails⟩ := hiff.2 ⟨_, List.mem_singleton_self _, by decide, 40003,
    hplace, fun hnear => absurd hnear.2 (by decide)⟩
  obtain ⟨⟨x, hx, -, hsource, htarget, -⟩, -⟩ := hreported source target left hfails
  obtain rfl := List.mem_singleton.1 hx
  rw [hplace] at htarget
  cases hsource
  cases htarget
  exact ⟨horder, body, hbody, htargets, hfits, left, hfails⟩

end Nops

end MethodBuilder

end JvmClass
