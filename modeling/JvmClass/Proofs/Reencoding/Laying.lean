import JvmClass.Proofs.Assembly.Changes
import JvmClass.Proofs.Reencoding.Written

/-!
# Labels, lines and frames of rows

The labels of the rows that a body has taken up are placed where the rows were written, and the
lines and frames that were told before them are the lines and frames of the body
(`ClassImage.Wrote.laid`).
-/

namespace JvmClass

open ClassBuilder (feedMethod feedMethod_append)

namespace MethodBuilder

variable {b b' : MethodBuilder} {u : Unit}

/-- Any labels can be said to stand for one offset. -/
theorem exists_same (labels : List Label) (o : Nat) : ∃ g places,
    (∀ l ∈ labels, Same g places l ⟨0⟩) ∧ ∀ l p, g.offset l = .ok p → p = o := by
  have hbound : ∃ n, ∀ l ∈ labels, l.number < n := by
    induction labels with
    | nil => exact ⟨0, nofun⟩
    | cons first rest ih =>
      obtain ⟨n, hn⟩ := ih
      refine ⟨max n (first.number + 1), List.forall_mem_cons.2 ⟨by omega, fun l hl => ?_⟩⟩
      have := hn l hl
      omega
  obtain ⟨n, hn⟩ := hbound
  refine ⟨⟨Array.replicate n { offset := some o }, #[]⟩, ⟨(∅ : Std.HashMap Nat Label).insert o ⟨0⟩⟩,
    fun l hl => ⟨o, ?_, ?_⟩, fun l p hp => ?_⟩
  · simp [LabelGraph.offset, LabelGraph.data?, hn l hl]
  · simp [Places.get?]
  · by_cases hl : l.number < n
    · simpa [LabelGraph.offset, LabelGraph.data?, hl, eq_comm] using hp
    · simp [LabelGraph.offset, LabelGraph.data?, hl] at hp

/-- Every instruction can be told again. -/
theorem exists_retells {event : MethodEvent} (h : isInstruction event = true) (b : MethodBuilder) :
    ∃ g places event', Retells g places b event event' := by
  obtain ⟨g, places, hsame, honly⟩ := exists_same event.targets b.code.size
  have htargets {targets : List Label} (h : ∀ l ∈ targets, Same g places l ⟨0⟩) :
      List.Forall₂ (Same g places) targets (targets.map fun _ => ⟨0⟩) :=
    List.forall₂_map_right_iff.2 (List.forall₂_same.2 h)
  cases event with
  | plain op => exact ⟨g, places, _, .plain op⟩
  | intOperand op operand => exact ⟨g, places, _, .intOperand op operand⟩
  | access op slot => exact ⟨g, places, _, .access op slot⟩
  | typeOperand op name => exact ⟨g, places, _, .typeOperand op name⟩
  | field op owner name descriptor => exact ⟨g, places, _, .field op owner name descriptor⟩
  | method op owner name descriptor ownerIsInterface =>
    exact ⟨g, places, _, .method op owner name descriptor ownerIsInterface⟩
  | invokeDynamic name descriptor bootstrap arguments =>
    exact ⟨g, places, _, .invokeDynamic name descriptor bootstrap arguments⟩
  | jump op target =>
    refine ⟨g, places, _, .jump op (hsame target (List.mem_singleton.2 rfl)) fun _ o ho => ?_⟩
    have := honly target o ho
    omega
  | load value => exact ⟨g, places, _, .load value⟩
  | increment slot amount => exact ⟨g, places, _, .increment slot amount⟩
  | tableSwitch low high fallback targets =>
    obtain ⟨hfallback, hrest⟩ := List.forall_mem_cons.1 hsame
    exact ⟨g, places, _, .tableSwitch low high hfallback (htargets hrest)⟩
  | lookupSwitch fallback keys targets =>
    obtain ⟨hfallback, hrest⟩ := List.forall_mem_cons.1 hsame
    exact ⟨g, places, _, .lookupSwitch keys hfallback (htargets hrest)⟩
  | newMultiArray descriptor dimensions => exact ⟨g, places, _,
    .newMultiArray descriptor dimensions⟩
  | _ => cases h

/-- An instruction changes only the code, the pool and the control flow. -/
theorem proceeds_feed {event : MethodEvent} (h : isInstruction event = true)
    (hrun : feed event b = .ok u b') : b.Proceeds b' := by
  obtain ⟨g, places, event', hretells⟩ := exists_retells h b
  exact (hretells.follows b'.pool hrun).1

/-- A label stays where it is placed. -/
theorem position?_feed {event : MethodEvent} (hcode : event ≠ .code)
    (hlast : ∀ n, event.stage = some n → n ≤ 3) (hrun : feed event b = .ok u b') {label : Label}
    {p : Nat} (hp : b.graph.position? label = some p) : b'.graph.position? label = some p := by
  have hchanging : Changing event.Leaves b (feed event) := changing_feed hcode hlast
  exact (hchanging.ok .refl hrun).position? hp

/-- A label stays where it is placed when another one is placed. -/
theorem position?_label {placed : Label} (hrun : feed (.label placed) b = .ok u b') {label : Label}
    {p : Nat} (hp : b.graph.position? label = some p) : b'.graph.position? label = some p := by
  have hcode : MethodEvent.label placed ≠ .code := by rintro ⟨⟩
  exact position?_feed hcode (by rintro n ⟨⟩; decide) hrun hp

end MethodBuilder

namespace ClassImage

open MethodBuilder

variable {image : ClassImage} {named : NamedBody} {b b' : MethodBuilder} {u : Unit}
  {instructions : List (Nat × Instruction Label)} {rows : List Row}

/-- The lines of a row, each with the label of the row. -/
def Row.lines (named : NamedBody) (row : Row) : List (UInt16 × Label) :=
  match named.places.get? row.place with
  | none => []
  | some label => (linesAt named row.place).map (·, label)

/-- The frame of a row. -/
def Row.frames (named : NamedBody) (row : Row) : List (Nat × Layout LabelledType) :=
  (frameAt named row.place).toList.map (row.offset, ·)

theorem Wrote.places (h : Wrote image named b instructions rows b') :
    rows.map Row.place = instructions.map Prod.fst := by
  induction h with
  | nil => rfl
  | cons _ _ _ _ ih => rw [List.map_cons, List.map_cons, ih]

/-- What the events before a row change. -/
structure Describes (named : NamedBody) (row : Row) (b b' : MethodBuilder) : Prop where
  outer : b'.outer = { b.outer with
    lines := b.lines ++ (row.lines named).toArray
    givenFrames := b.givenFrames ++ (row.frames named).toArray }
  placed : ∀ label, named.places.get? row.place = some label →
    b'.graph.position? label = some row.offset
  stays : ∀ label p, b.graph.position? label = some p → b'.graph.position? label = some p
  setting : b'.setting = b.setting

theorem describes_before (event : MethodEvent) {p : Nat}
    (hplainly : b.setting.compute = ⟨false, false⟩)
    (hrun : feedMethod (eventsBefore named p) b = .ok u b') :
    Describes named ⟨p, event, b'⟩ b b' := by
  rcases feed_before_ok hplainly hrun with ⟨hp, rfl⟩ | ⟨label, mid, hp, hplace, rfl⟩
  · obtain ⟨-, -, hframe⟩ := eventsBefore_of_none hp
    refine ⟨?_, fun label hl => ?_, fun _ _ h => h, rfl⟩
    · simp [MethodBuilder.outer, MethodBuilder.data, Row.lines, Row.frames, hp, hframe]
    · cases hp.symm.trans hl
  · have hdata := eq_of_data (data_placeLabel hplace)
    have hposition := position?_placeLabel hplace
    have hgraph : (described named p label mid).graph = mid.graph := by
      unfold described
      cases frameAt named p <;> rfl
    have hcode : (described named p label mid).code = mid.code := by
      unfold described
      cases frameAt named p <;> rfl
    have hmid : mid.code = b.code := by rw [hdata]
    refine ⟨?_, fun l hl => ?_, fun l q hq => ?_, ?_⟩
    · have hsize : Row.offset ⟨p, event, described named p label mid⟩ = mid.code.size :=
        congrArg Array.size hcode
      simp only [Row.lines, hp, Row.frames, hsize]
      unfold described
      cases frameAt named p <;> rw [hdata] <;>
        simp [withLines, withFrame, MethodBuilder.outer, MethodBuilder.data]
    · cases hp.symm.trans hl
      rw [hgraph, hposition, if_pos rfl, Row.offset, hcode, hmid]
    · rw [hgraph]
      exact position?_label hplace hq
    · unfold described
      cases frameAt named p <;> rw [hdata] <;> rfl

/-- What rows change, and where their labels are. -/
structure Laid (named : NamedBody) (rows : List Row) (b b' : MethodBuilder) : Prop where
  outer : b'.outer = { b.outer with
    lines := b.lines ++ (rows.flatMap (Row.lines named)).toArray
    givenFrames := b.givenFrames ++ (rows.flatMap (Row.frames named)).toArray }
  placed : ∀ row ∈ rows, ∀ label, named.places.get? row.place = some label →
    b'.graph.position? label = some row.offset
  stays : ∀ label p, b.graph.position? label = some p → b'.graph.position? label = some p

theorem Wrote.laid (h : Wrote image named b instructions rows b')
    (hplainly : b.setting.compute = ⟨false, false⟩) : Laid named rows b b' := by
  induction h with
  | nil b => 
    exact ⟨by simp [MethodBuilder.outer, MethodBuilder.data], fun _ h => (List.not_mem_nil h).elim,
      fun _ _ h => h⟩
  | @cons b mid next b' p i event rest rows before tells run _ ih =>
    have hinstruction := (instructionEvent_ok tells).1
    have hbefore := describes_before event hplainly before
    have hproceeds := proceeds_feed hinstruction run
    have hnext : next.setting.compute = ⟨false, false⟩ := by
      have hsetting := congrArg MethodBuilder.setting hproceeds.outer
      rw [show next.setting = mid.setting from hsetting, hbefore.setting, hplainly]
    have hrest := ih hnext
    have hstay : ∀ label p, mid.graph.position? label = some p →
        next.graph.position? label = some p := fun label p => by
      refine position?_feed (fun he => ?_) (fun n hn => ?_) run
      · rw [he] at hinstruction
        cases hinstruction
      · rw [stage_of_isInstruction hinstruction] at hn
        cases hn
        decide
    refine ⟨?_, fun row hrow label hl => ?_, fun label p hp => ?_⟩
    · have hlines := congrArg MethodBuilder.lines hproceeds.outer
      have hframes := congrArg MethodBuilder.givenFrames hproceeds.outer
      have hmid := congrArg MethodBuilder.lines hbefore.outer
      have hmid' := congrArg MethodBuilder.givenFrames hbefore.outer
      change next.lines = mid.lines at hlines
      change next.givenFrames = mid.givenFrames at hframes
      change mid.lines = b.lines ++ (Row.lines named ⟨p, event, mid⟩).toArray at hmid
      change mid.givenFrames = b.givenFrames ++ (Row.frames named ⟨p, event, mid⟩).toArray at hmid'
      rw [hrest.outer, hproceeds.outer, hbefore.outer, hlines, hframes, hmid, hmid']
      simp [Array.append_assoc]
    · rcases List.mem_cons.1 hrow with rfl | hrow
      · exact hrest.stays _ _ (hstay _ _ (hbefore.placed label hl))
      · exact hrest.placed row hrow label hl
    · exact hrest.stays _ _ (hstay _ _ (hbefore.stays label p hp))

end ClassImage

end JvmClass
