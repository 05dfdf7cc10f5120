import JvmClass.Proofs.Reencoding.Course
import JvmClass.Proofs.Reencoding.Matching

/-!
# A body that is read back and told again

Where a closed body was stored, a body is read whose places are those of the labels that were told
(`ClassImage.ReadBack`), so that all its places can be named. Told again, it goes the same course
and completes with the same attribute.
-/

namespace JvmClass

open ClassBuilder (feedMethod feedMethod_append)

/-- The places of an instruction are the offsets of the labels of its event. -/
theorem MethodEvent.Tells.target {g : LabelGraph} {pool : ConstantPool} {event : MethodEvent}
    {i : Instruction Nat} (h : event.Tells g pool i) {p : Nat} (hp : p ∈ i.places) :
    ∃ label ∈ event.targets, g.offset label = .ok p := by
  have hlist {targets : List Label} {places : List Nat} (hplaces : targets.mapM g.offset =
    .ok places)
      (hp : p ∈ places) : ∃ label ∈ targets, g.offset label = .ok p :=
    exists_of_forall₂ (forall₂_of_mapM hplaces) hp
  cases event with
  | plain op =>
    obtain rfl := h
    unfold Instruction.plainForm at hp
    split at hp
    · cases hp
    · split at hp <;> cases hp
  | jump op target =>
    obtain ⟨place, form, hplace, rfl, -⟩ := h
    obtain rfl := List.mem_singleton.1 hp
    exact ⟨target, List.mem_singleton_self _, hplace⟩
  | tableSwitch low high fallback targets =>
    obtain ⟨place, places, hplace, hplaces, rfl⟩ := h
    rcases List.mem_cons.1 hp with rfl | hp
    · exact ⟨fallback, List.mem_cons_self, hplace⟩
    · exact (hlist hplaces hp).imp fun _ => And.imp_left (List.mem_cons_of_mem _)
  | lookupSwitch fallback keys targets =>
    obtain ⟨place, places, hplace, hplaces, rfl⟩ := h
    rcases List.mem_cons.1 hp with rfl | hp
    · exact ⟨fallback, List.mem_cons_self, hplace⟩
    · exact (hlist hplaces hp).imp fun _ => And.imp_left (List.mem_cons_of_mem _)
  | intOperand | access | increment =>
    obtain rfl := h
    cases hp
  | typeOperand | field | method | invokeDynamic | load | newMultiArray =>
    obtain ⟨_, -, rfl⟩ := h
    cases hp
  | _ => exact h.elim

namespace ClassImage

open MethodBuilder

variable {image image' : ClassImage} {named : NamedBody} {rows : List Row}
  {b written closed : MethodBuilder} {pool : ConstantPool} {frames : List (Nat × Layout NamedType)}
  {body body' : StoredBody} {tables tables' : BodyTables}

/-- Each row has the event of its instruction. -/
theorem Wrote.tells {instructions : List (Nat × Instruction Label)} {b b' : MethodBuilder}
    (h : Wrote image named b instructions rows b') : ∀ row ∈ rows, ∃ i,
      (row.place, i) ∈ instructions ∧ image.instructionEvent i = .ok row.event := by
  induction h with
  | nil => exact fun _ hrow => (List.not_mem_nil hrow).elim
  | cons _ tells _ _ ih =>
    refine List.forall_mem_cons.2 ⟨⟨_, List.mem_cons_self, tells⟩, fun row hrow => ?_⟩
    exact (ih row hrow).imp fun i => And.imp_left (List.mem_cons_of_mem _)

/-- A closed body, and the body that is read where it was stored. -/
structure ReadBack (image : ClassImage) (rows : List Row) (closed : MethodBuilder)
    (pool : ConstantPool) (stack locals : UInt16) (frames : List (Nat × Layout NamedType))
    (body : StoredBody) (tables : BodyTables) : Prop where
  rereads : image.Rereads closed closed.graph.resolve stack locals frames body.instructions
    closed.code.size body tables
  instructions : List.Forall₂ (fun row i => i.1 = row.offset ∧
    row.ReadsAs closed.graph.resolve pool i.2) rows body.instructions.toList
  frames : closed.storedFrames closed.graph.resolve = .ok frames
  ascending : (body.starts ++ [body.size]).Pairwise (· < ·)

variable {stack locals : UInt16}

namespace ReadBack

variable (h : image'.ReadBack rows closed pool stack locals frames body' tables')

include h

theorem offsets : body'.instructions.toList.map Prod.fst = rows.map Row.offset := by
  have hall := h.instructions
  clear h
  generalize body'.instructions.toList = is at hall
  induction hall with
  | nil => rfl
  | cons hfirst _ ih => rw [List.map_cons, List.map_cons, hfirst.1, ih]

theorem starts {p : Nat} (hp : p ∈ rows.map Row.offset) : body'.Starts p ∧ p < body'.size := by
  rw [← h.offsets] at hp
  obtain ⟨x, hx, rfl⟩ := List.mem_map.1 hp
  refine ⟨⟨x.2, Array.mem_toList_iff.1 hx⟩, ?_⟩
  exact (List.pairwise_append.1 h.ascending).2.2 x.1 (List.mem_map_of_mem hx) _
    (List.mem_singleton_self _)

theorem ordered : body'.Ordered := List.pairwise_map.1 (List.pairwise_append.1 h.ascending).1

/-- The offsets of labels that are placed at rows or at the end are admitted. -/
theorem admits {label : Label} {p q : Nat} (hposition : closed.graph.position? label = some q)
    (hq : q ∈ rows.map Row.offset ∨ q = closed.code.size)
    (hp : closed.graph.resolve.offset label = .ok p) : body'.Admits p := by
  rw [LabelGraph.offset_resolve, hposition] at hp
  cases hp
  exact hq.imp (fun hq => (h.starts hq).1) fun hq => hq.trans h.rereads.size.symm

end ReadBack

/-- Labels that were told are placed at rows or at the end of the code, and rows refer to no
others. -/
structure Sited (named : NamedBody) (rows : List Row) (closed : MethodBuilder) : Prop where
  labels : ∀ o label, named.places.get? o = some label → ∃ p,
    closed.graph.position? label = some p ∧ (p ∈ rows.map Row.offset ∨ p = closed.code.size)
  targets : ∀ row ∈ rows, ∀ label ∈ row.event.targets, ∃ o, named.places.get? o = some label

theorem Wrote.targets {b' : MethodBuilder} (h : Wrote image named b named.instructions rows b')
    (hnamed : Named named body tables) :
    ∀ row ∈ rows, ∀ label ∈ row.event.targets, ∃ o, named.places.get? o = some label := by
  intro row hrow label hlabel
  obtain ⟨i, hi, hevent⟩ := h.tells row hrow
  rw [(instructionEvent_ok hevent).2] at hlabel
  obtain ⟨y, -, -, hplaces⟩ := exists_of_forall₂ hnamed.instructions hi
  obtain ⟨o, -, ho⟩ := exists_of_forall₂ hplaces hlabel
  exact ⟨o, ho⟩

/-- The labels of a frame that is told are those of places. -/
theorem Named.frame_label (hnamed : Named named body tables) {p : Nat} {layout :
    Layout LabelledType} (h : frameAt named p = some layout) {label : Label}
    (hlabel : .uninitialized label ∈ layout.locals ++ layout.stack) :
    ∃ o, named.places.get? o = some label := by
  obtain ⟨_, -, hlayout⟩ := Option.bind_eq_some_iff.1 h
  obtain ⟨frame, -, -, hlocals, hstack⟩ := hnamed.frames p layout hlayout
  rcases List.mem_append.1 hlabel with hmem | hmem
  · obtain ⟨t, -, ht⟩ := exists_of_forall₂ hlocals hmem
    obtain ⟨o, -, ho⟩ := ht label rfl
    exact ⟨o, ho⟩
  · obtain ⟨t, -, ht⟩ := exists_of_forall₂ hstack hmem
    obtain ⟨o, -, ho⟩ := ht label rfl
    exact ⟨o, ho⟩

theorem uninitialized_of_mapM {g : LabelGraph} {types : List LabelledType} {found : List NamedType}
    (h : (types.mapM fun t => t.mapM pure g.offset : Except ClassError (List NamedType)) =
    .ok found) {p : Nat} (hp : .uninitialized p ∈ found) :
    ∃ label, .uninitialized label ∈ types ∧ g.offset label = .ok p := by
  obtain ⟨t, ht, htype⟩ := exists_of_forall₂ (forall₂_of_mapM h) hp
  cases t with
  | uninitialized label =>
    obtain ⟨o, ho, htype⟩ := Step.except_bind_ok.1 htype
    cases htype
    exact ⟨label, ht, ho⟩
  | object name => cases htype
  | _ => cases htype

/-- All that the body refers to can be looked up. -/
theorem ReadBack.callable (h : image'.ReadBack rows closed pool stack locals frames body' tables')
    (hcloses : Closes named rows b written closed) (hnamed : Named named body tables)
    (hsited : Sited named rows closed) : image'.Callable body' tables' := by
  have hadmits {o p : Nat} {label : Label} (hl : named.places.get? o = some label)
      (hp : closed.graph.resolve.offset label = .ok p) : body'.Admits p :=
    let ⟨q, hposition, hq⟩ := hsited.labels o label hl
    h.admits hposition hq hp
  constructor
  case targets =>
    intro x hx p hp
    obtain ⟨row, hrow, -, hreads⟩ := exists_of_forall₂ h.instructions hx
    obtain ⟨label, hlabel, hoffset⟩ := hreads.tells.target hp
    obtain ⟨o, ho⟩ := hsited.targets row hrow label hlabel
    exact hadmits ho hoffset
  case handlers =>
    intro entry hentry
    obtain ⟨handler, hhandler, hstored⟩ := exists_of_forall₂ h.rereads.handlers hentry
    have hmem := (List.mem_filter.1 hhandler).1
    rw [hcloses.handlers] at hmem
    obtain ⟨range, hrange, rfl⟩ := List.mem_map.1 hmem
    obtain ⟨original, -, hstart, hstop, htarget⟩ := exists_of_forall₂ hnamed.handlers hrange
    exact ⟨hadmits hstart hstored.start, hadmits hstop hstored.stop,
      hadmits htarget hstored.handler, _, hstored.catchType⟩
  case lines =>
    intro x hx
    obtain ⟨line, hline, hstart, -⟩ := exists_of_forall₂ h.rereads.lines hx
    rw [hcloses.lines] at hline
    obtain ⟨row, -, hline⟩ := List.mem_flatMap.1 hline
    unfold Row.lines at hline
    split at hline
    · cases hline
    · rename_i label hlabel
      obtain ⟨_, -, rfl⟩ := List.mem_map.1 hline
      exact hadmits hlabel hstart
  case vars =>
    intro v hv
    obtain ⟨range, hrange, hread⟩ := exists_of_forall₂ h.rereads.vars hv
    rw [hcloses.vars] at hrange
    obtain ⟨original, -, -, hstart, hstop⟩ := exists_of_forall₂ hnamed.vars hrange
    exact ⟨hadmits hstart hread.start, hadmits hstop hread.stop, ⟨_, hread.name⟩, _,
      hread.descriptor⟩
  case frames =>
    intro frame hframe
    rw [h.rereads.stackMap] at hframe
    obtain ⟨stored, hstored, rfl⟩ := List.mem_map.1 hframe
    have hall := forall₂_of_mapM h.frames
    rw [hcloses.frames] at hall
    obtain ⟨given, hgiven, hlayout⟩ := exists_of_forall₂ hall hstored
    obtain ⟨row, hrow, hgiven⟩ := List.mem_flatMap.1 hgiven
    obtain ⟨layout, hlayout', rfl⟩ := List.mem_map.1 hgiven
    obtain ⟨locals', hlocals, hlayout⟩ := Step.except_bind_ok.1 hlayout
    obtain ⟨stack', hstack, hlayout⟩ := Step.except_bind_ok.1 hlayout
    cases hlayout
    obtain ⟨hstarts, hlt⟩ := h.starts (List.mem_map_of_mem hrow)
    refine ⟨hstarts, hlt, fun p hp => ?_⟩
    obtain ⟨label, hmem, hoffset⟩ : ∃ label, .uninitialized label ∈ layout.locals ++ layout.stack ∧
        closed.graph.resolve.offset label = .ok p := by
      rcases List.mem_append.1 hp with hp | hp
      · obtain ⟨label, hmem, hoffset⟩ := uninitialized_of_mapM hlocals hp
        exact ⟨label, List.mem_append_left _ hmem, hoffset⟩
      · obtain ⟨label, hmem, hoffset⟩ := uninitialized_of_mapM hstack hp
        exact ⟨label, List.mem_append_right _ hmem, hoffset⟩
    obtain ⟨o, ho⟩ := hnamed.frame_label (Option.mem_toList.1 hlayout') hmem
    exact hadmits ho hoffset

end ClassImage

end JvmClass
