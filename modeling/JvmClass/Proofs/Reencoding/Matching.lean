import JvmClass.Proofs.Reencoding.Calling
import JvmClass.Proofs.Reencoding.Laying
import JvmClass.Proofs.Reencoding.Rereading

/-!
# Instructions told again

An instruction that a row reads back as, with labels for its places, is told by an event that does
what the event of the row did (`ClassImage.Row.ReadsAs.retells`). The lines and the frame that are
told before it are those of the row (`ClassImage.Describe.rowSame`).
-/

namespace JvmClass

theorem forall₂_comp {α β γ : Type} {R : α → β → Prop} {S : β → γ → Prop} {as : List α}
    {bs : List β} {cs : List γ} (h : List.Forall₂ R as bs) (h' : List.Forall₂ S bs cs) :
    List.Forall₂ (fun a c => ∃ b, R a b ∧ S b c) as cs := by
  induction h generalizing cs with
  | nil =>
    cases h'
    exact .nil
  | cons hfirst _ ih =>
    obtain _ | ⟨hfirst', hrest'⟩ := h'
    exact .cons ⟨_, hfirst, hfirst'⟩ (ih hrest')

namespace ClassImage

open MethodBuilder

variable {g : LabelGraph} {image : ClassImage} {row : Row} {pool : ConstantPool} {t : Places}

theorem same_nameAt {label : Label} {p : Nat} (h : g.offset label = .ok p) (hcalls : t.Calls p) :
    Same g t label (t.nameAt p) := ⟨p, h, hcalls⟩

theorem same_targets {targets : List Label} {places : List Nat}
    (h : targets.mapM g.offset = .ok places) (hcalls : ∀ p ∈ places, t.Calls p) :
    List.Forall₂ (Same g t) targets (places.map t.nameAt) := by
  have hoffsets := forall₂_of_mapM h
  clear h
  induction hoffsets with
  | nil => exact .nil
  | cons hfirst _ ih =>
    obtain ⟨hcall, hcalls⟩ := List.forall_mem_cons.1 hcalls
    exact .cons (same_nameAt hfirst hcall) (ih hcalls)

theorem invokeDynamic_told {name descriptor : String} {bootstrap : Handle}
    {arguments : List Loadable} {site : PoolIndex} (hi : image.Holds pool)
    (h : ConstantPool.invokeDynamic name descriptor bootstrap arguments pool = .ok site pool) :
    image.instructionEvent (.invokeDynamic site) =
      .ok (.invokeDynamic name descriptor bootstrap.stored (storedAll arguments)) := by
  obtain ⟨position, p₁, h₁, h⟩ := Step.bind_ok.1 h
  obtain ⟨member, p₂, h₂, h₃⟩ := Step.bind_ok.1 h
  have hi₂ := hi.of_grows (ConstantPool.intern_ok h₃).1
  have hi₁ := hi₂.of_grows (ConstantPool.stable_nameAndType _ _ _ _ _ h₂).1.grows
  simp only [instructionEvent, constant_intern h₃ hi, nameAndType_back _ _ h₂ hi₂,
    bootstrap_back _ _ h₁ hi₁, bind, Except.bind]
  rfl

/-- What a row reads back as is told as its event was. -/
theorem Row.ReadsAs.retells {i : Instruction Nat} (h : row.ReadsAs g pool i) (hi : image.Holds pool)
    (hcalls : ∀ p ∈ i.places, t.Calls p) : ∃ event,
      image.instructionEvent (i.map t.nameAt) = .ok event ∧
      Retells g t row.before row.event event := by
  obtain ⟨htells, hplain, hjump⟩ := h
  obtain ⟨place, event, before⟩ := row
  simp only at htells hplain
  cases event with
  | plain op =>
    obtain rfl := hplain op rfl
    exact ⟨_, rfl, .plain op⟩
  | intOperand op operand =>
    obtain rfl := htells
    exact ⟨_, rfl, .intOperand op operand⟩
  | access op slot =>
    obtain rfl := htells
    exact ⟨_, rfl, .access op slot⟩
  | typeOperand op name =>
    obtain ⟨cls, hcls, rfl⟩ := htells
    exact ⟨_, Step.except_bind_ok.2 ⟨name, cls_back name hcls hi, rfl⟩, .typeOperand op name⟩
  | field op owner name descriptor =>
    obtain ⟨member, hmember, rfl⟩ := htells
    exact ⟨_, Step.except_bind_ok.2 ⟨_, fieldRef_back owner name descriptor hmember hi, rfl⟩,
      .field op owner name descriptor⟩
  | method op owner name descriptor ownerIsInterface =>
    obtain ⟨member, hmember, rfl⟩ := htells
    exact ⟨_, Step.except_bind_ok.2
      ⟨_, methodRef_back owner name descriptor ownerIsInterface hmember hi, rfl⟩,
      .method op owner name descriptor ownerIsInterface⟩
  | invokeDynamic name descriptor bootstrap arguments =>
    obtain ⟨site, hsite, rfl⟩ := htells
    exact ⟨_, invokeDynamic_told hi hsite, .invokeDynamic name descriptor bootstrap arguments⟩
  | jump op target =>
    obtain ⟨place, hplace, rfl, hnear⟩ := hjump op target rfl
    refine ⟨_, rfl, .jump op (same_nameAt hplace (hcalls place List.mem_cons_self)) ?_⟩
    intro hform o ho
    cases hplace.symm.trans ho
    exact hnear hform
  | load value =>
    obtain ⟨index, hindex, rfl⟩ := htells
    exact ⟨_, Step.except_bind_ok.2 ⟨_, loadable_back value hindex hi, rfl⟩, .load value⟩
  | increment slot amount =>
    obtain rfl := htells
    exact ⟨_, rfl, .increment slot amount⟩
  | tableSwitch low high fallback targets =>
    obtain ⟨place, places, hplace, hplaces, rfl⟩ := htells
    obtain ⟨hcall, hcalls⟩ := List.forall_mem_cons.1 hcalls
    exact ⟨_, rfl, .tableSwitch low high (same_nameAt hplace hcall) (same_targets hplaces hcalls)⟩
  | lookupSwitch fallback keys targets =>
    obtain ⟨place, places, hplace, hplaces, rfl⟩ := htells
    obtain ⟨hcall, hcalls⟩ := List.forall_mem_cons.1 hcalls
    exact ⟨_, rfl, .lookupSwitch keys (same_nameAt hplace hcall) (same_targets hplaces hcalls)⟩
  | newMultiArray descriptor dimensions =>
    obtain ⟨cls, hcls, rfl⟩ := htells
    exact ⟨_, Step.except_bind_ok.2 ⟨descriptor, cls_back descriptor hcls hi, rfl⟩,
      .newMultiArray descriptor dimensions⟩
  | _ => exact htells.elim

section Described

variable {named named' : NamedBody} {rows : List Row} {body : StoredBody} {tables : BodyTables}

theorem keys_frames (named : NamedBody) (rows : List Row) :
    ((rows.flatMap (Row.frames named)).map Prod.fst).Sublist (rows.map Row.offset) := by
  induction rows with
  | nil => exact List.Sublist.refl _
  | cons row rest ih =>
    rw [List.flatMap_cons, List.map_append, List.map_cons]
    unfold Row.frames at ih ⊢
    cases frameAt named row.place with
    | none => exact ih.cons _
    | some layout => exact ih.cons_cons _

/-- The lines and frames of a body are stored as those of its rows. -/
structure Describe (named : NamedBody) (g : LabelGraph) (rows : List Row) (tables : BodyTables) :
    Prop where
  placed : ∀ row ∈ rows, ∀ label, named.places.get? row.place = some label →
    g.offset label = .ok row.offset
  distinct : (rows.map Row.offset).Nodup
  lines : List.Forall₂ (fun x s => g.offset x.2 = .ok s.1 ∧ s.2 = x.1)
    (rows.flatMap (Row.lines named)) tables.lines.toList
  frames : List.Forall₂ (fun x frame => givenLayout g x = .ok (frame.offset, frame.layout))
    (rows.flatMap (Row.frames named)) tables.stackMap

theorem lines_of_forall₂ (hplaced : ∀ row ∈ rows, ∀ label,
    named.places.get? row.place = some label → g.offset label = .ok row.offset)
    {stored : List (Nat × UInt16)} (h : List.Forall₂
      (fun (x : UInt16 × Label) (s : Nat × UInt16) => g.offset x.2 = .ok s.1 ∧ s.2 = x.1)
      (rows.flatMap (Row.lines named)) stored) :
    stored = rows.flatMap fun row => (linesAt named row.place).map (row.offset, ·) := by
  induction rows generalizing stored with
  | nil =>
    cases h
    rfl
  | cons row rest ih =>
    rw [List.flatMap_cons] at h ⊢
    obtain ⟨hrow, hrest⟩ := List.forall_mem_cons.1 hplaced
    have hfirst := List.forall₂_take_append _ _ _ h.flip
    have hothers := List.forall₂_drop_append _ _ _ h.flip
    rw [← List.take_append_drop (row.lines named).length stored, ih hrest hothers.flip]
    congr 1
    unfold Row.lines at hfirst ⊢
    generalize stored.take _ = front at hfirst
    cases hp : named.places.get? row.place with
    | none =>
      rw [hp] at hfirst
      cases hfirst
      rw [(eventsBefore_of_none hp).2.1]
      rfl
    | some label =>
      simp only [hp] at hfirst
      have hoffset := hrow label hp
      clear h hothers
      generalize linesAt named row.place = lines at hfirst
      induction lines generalizing front with
      | nil =>
        cases hfirst
        rfl
      | cons line lines ih =>
        cases hfirst with | @cons s _ front _ hfirst hlines =>
        obtain ⟨hstart, hline⟩ := hfirst
        rw [hoffset] at hstart
        have hs : s = (row.offset, line) := Prod.ext (Except.ok.inj hstart).symm hline
        rw [List.map_cons, ← ih _ hlines, hs]

/-- The lines that are stored for a row are those of the row. -/
theorem Describe.linesOf (h : Describe named g rows tables) {row : Row} (hrow : row ∈ rows) :
    (tables.lines.toList.filter (·.1 == row.offset)).map Prod.snd = linesAt named row.place := by
  rw [lines_of_forall₂ h.placed h.lines]
  have hnodup := h.distinct
  have hnone {others : List Row} (hothers : row.offset ∉ others.map Row.offset) :
      (others.flatMap fun row => (linesAt named row.place).map (row.offset, ·)).filter
        (·.1 == row.offset) = [] := by
    refine List.filter_eq_nil_iff.2 fun x hx => ?_
    obtain ⟨other, hother, hx⟩ := List.mem_flatMap.1 hx
    obtain ⟨line, -, rfl⟩ := List.mem_map.1 hx
    simp only [beq_iff_eq]
    exact fun he => hothers (List.mem_map.2 ⟨other, hother, he⟩)
  have hall : ((linesAt named row.place).map (row.offset, ·)).filter (·.1 == row.offset) =
      (linesAt named row.place).map (row.offset, ·) := by
    refine List.filter_eq_self.2 fun x hx => ?_
    obtain ⟨line, -, rfl⟩ := List.mem_map.1 hx
    exact beq_self_eq_true _
  clear h
  obtain ⟨front, rest, rfl⟩ := List.append_of_mem hrow
  rw [List.map_append, List.map_cons] at hnodup
  obtain ⟨-, hback, hdisjoint⟩ := List.nodup_append.1 hnodup
  have hfront : row.offset ∉ front.map Row.offset := fun hmem =>
    hdisjoint _ hmem _ List.mem_cons_self rfl
  rw [List.flatMap_append, List.flatMap_cons, List.filter_append, List.filter_append, hnone hfront,
    hnone (List.nodup_cons.1 hback).1, hall, List.nil_append, List.append_nil, List.map_map]
  exact List.map_id' _

theorem linesAt_called {o : Nat} (h : image.Called body tables named) :
    linesAt named o = (tables.lines.toList.filter (·.1 == o)).map Prod.snd := by
  unfold linesAt
  rw [← h.lines o]
  cases ho : named.places.get? o with
  | some label => rfl
  | none =>
    rw [h.lines o]
    refine (List.map_eq_nil_iff.2 (List.filter_eq_nil_iff.2 fun x hx he => ?_)).symm
    have hcalls := h.linesNamed x hx
    rw [eq_of_beq he, Places.Calls, ho] at hcalls
    cases hcalls

/-- The frame that is read back for a row is the frame of the row. -/
theorem Describe.frameOf (h : Describe named g rows tables) (hcalled :
    image.Called body tables named') {row : Row} (hrow : row ∈ rows) :
    Option.Rel (LayoutSame g named'.places) (frameAt named row.place)
      (frameAt named' row.offset) := by
  obtain ⟨pairs, hpairs, hall⟩ := hcalled.frames
  -- The frames of the rows and the frames that are read back, with their offsets.
  have hframes : List.Forall₂ (fun x pair => pair.1 = x.1 ∧ named'.places.Calls x.1 ∧
      LayoutSame g named'.places x.2 pair.2) (rows.flatMap (Row.frames named)) pairs := by
    refine (forall₂_comp h.frames hall).imp ?_
    rintro x pair ⟨frame, hx, hpair⟩
    have hoffset : frame.offset = x.1 := by
      obtain ⟨_, -, hx⟩ := Step.except_bind_ok.1 hx
      obtain ⟨_, -, hx⟩ := Step.except_bind_ok.1 hx
      exact (congrArg Prod.fst (Except.ok.inj hx)).symm
    exact ⟨hpair.offset.trans hoffset, hoffset ▸ hpair.named, hpair.layout g x hx⟩
  have hkeys : pairs.map Prod.fst = (rows.flatMap (Row.frames named)).map Prod.fst := by
    clear hpairs hall
    generalize rows.flatMap (Row.frames named) = given at hframes
    induction hframes with
    | nil => rfl
    | cons hfirst _ ih => rw [List.map_cons, List.map_cons, hfirst.1, ih]
  have hdistinct : (pairs.map Prod.fst).Nodup := by
    rw [hkeys]
    exact h.distinct.sublist (keys_frames named rows)
  have hlookup {o : Nat} {layout : Layout LabelledType} (hmem : (o, layout) ∈ pairs) :
      named'.frames[o]? = some layout := by
    rw [hpairs]
    refine Std.HashMap.getElem?_ofList_of_mem (beq_self_eq_true o) ?_ hmem
    exact (List.pairwise_map.1 hdistinct).imp fun hne => beq_eq_false_iff_ne.2 hne
  cases hframe : frameAt named row.place with
  | some layout =>
    obtain ⟨pair, hmem, hoffset, hcalls, hsame⟩ := exists_of_forall₂ hframes.flip
      (List.mem_flatMap.2 ⟨row, hrow, by
        rw [Row.frames, hframe]
        exact List.mem_singleton_self _⟩)
    obtain ⟨o, layout'⟩ := pair
    obtain rfl : o = row.offset := hoffset
    rw [frameAt, show named'.places.get? row.offset = _ from hcalls, Option.bind_some, hlookup hmem]
    exact .some hsame
  | none =>
    suffices hnone : frameAt named' row.offset = none by
      rw [hnone]
      exact .none
    have hnot : row.offset ∉ pairs.map Prod.fst := by
      rw [hkeys]
      intro hmem
      obtain ⟨x, hx, hoffset⟩ := List.mem_map.1 hmem
      obtain ⟨other, hother, hx⟩ := List.mem_flatMap.1 hx
      obtain ⟨layout, hlayout, rfl⟩ := List.mem_map.1 hx
      obtain rfl := List.inj_on_of_nodup_map h.distinct hother hrow hoffset
      rw [hframe] at hlayout
      cases hlayout
    unfold frameAt
    rw [hpairs, Std.HashMap.getElem?_ofList_of_contains_eq_false (by simpa using hnot)]
    cases named'.places.get? row.offset <;> rfl

/-- **What comes before a row is told again.** -/
theorem Describe.rowSame (h : Describe named g rows tables)
    (hcalled : image.Called body tables named') {row : Row} (hrow : row ∈ rows) :
    RowSame g named named' row.place row.offset where
  lines := by rw [linesAt_called hcalled, h.linesOf hrow]
  frame := h.frameOf hcalled hrow
  label := h.placed row hrow

end Described

end ClassImage

end JvmClass
