import JvmClass.Proofs.Assembly.Blocks
import JvmClass.Proofs.Code.Tiling
import JvmClass.Proofs.Image.Places

/-!
# Labels of a body that is read

Naming the places of a body numbers its labels through and gives each of them to one offset
(`Places.Sound`); whatever the body refers to gets the label of the offset that it gives
(`NamedBody.Names`). Telling goes through the instructions in the order of their offsets and through
the end of the code, and tells at each of these offsets the label that it has. So every label is
visited once, in the order of the code, and where the references to it say (`ClassImage.Labelled`).
-/

namespace JvmClass

open MethodBuilder (isInstruction)

namespace Places

variable {p q r : Places} {body : StoredBody}

/-- What one mapping names, another one names alike. -/
def Extends (p q : Places) : Prop := ∀ offset label, p.get? offset = some label →
  q.get? offset = some label

theorem Extends.refl (p : Places) : p.Extends p := fun _ _ h => h

theorem Extends.trans (h : p.Extends q) (h' : q.Extends r) : p.Extends r :=
  fun offset label hl => h' offset label (h offset label hl)

/-- Labels are numbered through, each belongs to one offset, and the body admits that offset. -/
structure Sound (body : StoredBody) (p : Places) : Prop where
  bounded : ∀ offset label, p.get? offset = some label → label.number < p.count
  injective : ∀ offset offset' label, p.get? offset = some label →
    p.get? offset' = some label → offset = offset'
  onto : ∀ k < p.count, ∃ offset, p.get? offset = some ⟨k⟩
  admitted : ∀ offset label, p.get? offset = some label → body.Admits offset

theorem sound_empty (body : StoredBody) : Sound body empty := by
  have hnone (offset : Nat) (label : Label) : empty.get? offset ≠ some label := by
    simp [get?, empty]
  have hcount : empty.count = 0 := Std.HashMap.size_empty
  refine ⟨fun o l h => absurd h (hnone o l), fun o _ l h => absurd h (hnone o l), ?_,
    fun o l h => absurd h (hnone o l)⟩
  intro k hk
  rw [hcount] at hk
  exact absurd hk (Nat.not_lt_zero k)

/-- The label of an offset that has none yet is the next one. -/
theorem get?_insert (p : Places) (label : Label) (offset o : Nat) :
    get? ⟨p.labels.insert offset label⟩ o = if offset = o then some label else p.get? o := by
  unfold get?
  rw [Std.HashMap.getElem?_insert]
  simp only [beq_iff_eq]

theorem count_insert {offset : Nat} (h : p.get? offset = none) (label : Label) :
    count ⟨p.labels.insert offset label⟩ = p.count + 1 := by
  unfold count
  rw [Std.HashMap.size_insert, if_neg]
  rw [Std.HashMap.mem_iff_isSome_getElem?]
  unfold get? at h
  rw [h]
  simp

theorem Sound.insert (h : p.Sound body) {offset : Nat} (hnone : p.get? offset = none)
    (hadmits : body.Admits offset) :
    Sound body ⟨p.labels.insert offset ⟨p.count⟩⟩ := by
  have hfresh {o : Nat} : p.get? o ≠ some ⟨p.count⟩ := fun ho =>
    Nat.lt_irrefl _ (h.bounded o _ ho)
  constructor
  case bounded =>
    intro o label ho
    rw [get?_insert] at ho
    rw [count_insert hnone]
    split at ho
    · cases ho
      exact Nat.lt_succ_self _
    · exact Nat.lt_succ_of_lt (h.bounded o label ho)
  case injective =>
    intro o o' label ho ho'
    rw [get?_insert] at ho ho'
    split at ho <;> split at ho'
    · rename_i h1 h2
      exact h1.symm.trans h2
    · cases ho
      exact absurd ho' hfresh
    · cases ho'
      exact absurd ho hfresh
    · exact h.injective o o' label ho ho'
  case onto =>
    intro k hk
    rw [count_insert hnone] at hk
    rcases Nat.lt_succ_iff_lt_or_eq.1 hk with hk | rfl
    · obtain ⟨o, ho⟩ := h.onto k hk
      refine ⟨o, ?_⟩
      rw [get?_insert, if_neg, ho]
      rintro rfl
      rw [hnone] at ho
      cases ho
    · exact ⟨offset, by rw [get?_insert, if_pos rfl]⟩
  case admitted =>
    intro o label ho
    rw [get?_insert] at ho
    split at ho
    · rename_i ho'
      exact ho' ▸ hadmits
    · exact h.admitted o label ho

end Places

/-- A step that names places: labels that were given stay, and what it answers is good with whatever
labels are given later. -/
def Naming {α : Type} (body : StoredBody) (m : Step Places α) (good : Places → α → Prop) : Prop :=
  ∀ s a s', m s = .ok a s' → s.Sound body → s'.Sound body ∧ s.Extends s' ∧
    ∀ t, s'.Extends t → good t a

namespace Naming

variable {α β : Type} {body : StoredBody} {m : Step Places α} {k : α → Step Places β}
  {good good' : Places → α → Prop}

theorem pure (a : α) : Naming body (pure a) fun _ b => b = a := by
  intro s b s' h hs
  obtain ⟨rfl, rfl⟩ := Step.pure_ok.1 h
  exact ⟨hs, .refl s, fun _ _ => rfl⟩

theorem throw (e : ClassError) : Naming body (throw e) good := by
  intro s a s' h
  exact (Step.throw_ok.1 h).elim

theorem of (x : Except ClassError α) : Naming body (Step.of x) fun _ _ => True := by
  intro s a s' h hs
  obtain ⟨-, rfl⟩ := Step.of_ok.1 h
  exact ⟨hs, .refl s, fun _ _ => trivial⟩

theorem mono (h : Naming body m good) (hgood : ∀ t a, good t a → good' t a) :
    Naming body m good' := by
  intro s a s' hm hs
  obtain ⟨hsound, hextends, ha⟩ := h s a s' hm hs
  exact ⟨hsound, hextends, fun t ht => hgood t a (ha t ht)⟩

theorem bind {good' : α → Places → β → Prop} (h : Naming body m good)
    (hk : ∀ a, Naming body (k a) (good' a)) :
    Naming body (m >>= k) fun t b => ∃ a, good t a ∧ good' a t b := by
  intro s b s' hb hs
  obtain ⟨a, mid, ha, hb⟩ := Step.bind_ok.1 hb
  obtain ⟨hmid, hextends, hgood⟩ := h s a mid ha hs
  obtain ⟨hsound, hextends', hgood'⟩ := hk a mid b s' hb hmid
  exact ⟨hsound, hextends.trans hextends', fun t ht =>
    ⟨a, hgood t (hextends'.trans ht), hgood' t ht⟩⟩

theorem map {f : α → β} (h : Naming body m good) :
    Naming body (do return f (← m)) fun t b => ∃ a, good t a ∧ b = f a :=
  h.bind fun a => pure (f a)

/-- The same for each of some things, in order. -/
theorem mapM {f : α → Step Places β} {good : α → Places → β → Prop}
    (h : ∀ a, Naming body (f a) (good a)) (items : List α) :
    Naming body (items.mapM f) fun t bs => List.Forall₂ (fun a b => good a t b) items bs := by
  induction items with
  | nil =>
    rw [List.mapM_nil]
    exact (pure []).mono fun t bs hb => hb ▸ .nil
  | cons a rest ih =>
    rw [List.mapM_cons]
    refine ((h a).bind fun b => ih.bind fun bs => pure (b :: bs)).mono ?_
    rintro t _ ⟨b, hb, bs, hbs, rfl⟩
    exact .cons hb hbs

end Naming

/-- A type of a frame after its places have been named. -/
def TypeNamed (named : Nat → Label → Prop) (t : NamedType) (t' : LabelledType) : Prop :=
  ∀ label, t' = .uninitialized label → ∃ p, t = .uninitialized p ∧ named p label

namespace ClassImage

variable {image : ClassImage} {body : StoredBody} {tables : BodyTables}

theorem naming_namePlace (body : StoredBody) (offset : Nat) :
    Naming body (namePlace body offset) fun t label => t.get? offset = some label := by
  intro s label s' h hs
  have hadmits := admits_of_namePlace h
  unfold namePlace at h
  split at h
  · unfold Places.name at h
    split at h
    · rename_i found hfound
      cases h
      exact ⟨hs, .refl s, fun t ht => ht _ _ hfound⟩
    · rename_i hnone
      cases h
      have hnone : s.get? offset = none := hnone
      refine ⟨hs.insert hnone hadmits, fun o l hl => ?_, fun t ht => ht _ _ ?_⟩
      · rw [Places.get?_insert, if_neg, hl]
        rintro rfl
        rw [hnone] at hl
        cases hl
      · rw [Places.get?_insert, if_pos rfl]
  · exact (Step.throw_ok.1 h).elim

theorem naming_instruction (body : StoredBody) (i : Instruction Nat) :
    Naming body (i.mapM (namePlace body)) fun t j =>
      List.Forall₂ (fun p label => t.get? p = some label) i.places j.places := by
  have hplaces (places : List Nat) := Naming.mapM (naming_namePlace body) places
  cases i with
  | jump op target =>
    refine (naming_namePlace body target).map.mono ?_
    rintro t _ ⟨label, hlabel, rfl⟩
    exact .cons hlabel .nil
  | tableSwitch low high fallback targets =>
    refine ((naming_namePlace body fallback).bind fun _ => (hplaces targets).map).mono ?_
    rintro t _ ⟨label, hlabel, labels, hlabels, rfl⟩
    exact .cons hlabel hlabels
  | lookupSwitch fallback keys targets =>
    refine ((naming_namePlace body fallback).bind fun _ => (hplaces targets).map).mono ?_
    rintro t _ ⟨label, hlabel, labels, hlabels, rfl⟩
    exact .cons hlabel hlabels
  | _ =>
    refine (Naming.pure _).mono ?_
    rintro t _ rfl
    exact .nil

/-- The handler of an entry of the exception table, by the labels of its places. -/
def HandlerNamed (named : Nat → Label → Prop) (entry : TableEntry) (start stop handler : Label) :
    Prop :=
  named entry.start.toNat start ∧ named entry.stop.toNat stop ∧
    named entry.handler.toNat handler

theorem naming_nameHandler (body : StoredBody) (entry : TableEntry) :
    Naming body (image.nameHandler body entry) fun t range =>
      HandlerNamed (fun p label => t.get? p = some label) entry range.start range.stop
        range.handler := by
  refine ((naming_namePlace body _).bind fun _ => (naming_namePlace body _).bind fun _ =>
    (naming_namePlace body _).bind fun _ => (Naming.of _).map).mono ?_
  rintro t _ ⟨_, hstart, _, hstop, _, hhandler, _, -, rfl⟩
  exact ⟨hstart, hstop, hhandler⟩

theorem naming_nameVariable (body : StoredBody) (v : StoredVariable) :
    Naming body (image.nameVariable body v) fun t range => range.slot = v.slot ∧
      t.get? v.start = some range.start ∧ t.get? v.stop = some range.stop := by
  refine ((Naming.of _).bind fun _ => (Naming.of _).bind fun _ =>
    (naming_namePlace body _).bind fun _ => (naming_namePlace body _).map).mono ?_
  rintro t _ ⟨_, -, _, -, _, hstart, _, hstop, rfl⟩
  exact ⟨rfl, hstart, hstop⟩

theorem naming_type (body : StoredBody) (type : NamedType) :
    Naming body (type.mapM pure (namePlace body)) fun t type' =>
      TypeNamed (fun p label => t.get? p = some label) type type' := by
  cases type with
  | uninitialized p =>
    refine (naming_namePlace body p).map.mono ?_
    rintro t _ ⟨label, hlabel, rfl⟩ _ ⟨⟩
    exact ⟨p, rfl, hlabel⟩
  | object cls =>
    refine (Naming.pure cls).map.mono ?_
    rintro t _ ⟨_, -, rfl⟩ _ ⟨⟩
  | _ =>
    refine (Naming.pure _).mono ?_
    rintro t _ rfl _ ⟨⟩

/-- A frame stands at its offset, and its types have had their places named. -/
def FrameNamed (named : Nat → Label → Prop) (frame : PlacedFrame) (offset : Nat)
    (locals stack : List LabelledType) : Prop :=
  frame.offset = offset ∧ List.Forall₂ (TypeNamed named) frame.layout.locals locals ∧
    List.Forall₂ (TypeNamed named) frame.layout.stack stack

theorem naming_nameFrame (body : StoredBody) (frame : PlacedFrame) :
    Naming body (nameFrame body frame) fun t x =>
      FrameNamed (fun p label => t.get? p = some label) frame x.1 x.2.locals x.2.stack := by
  have htypes (types : List NamedType) := Naming.mapM (naming_type body) types
  have hrest : Naming body (do
      let _ ← namePlace body frame.offset
      let locals ← frame.layout.locals.mapM fun t => t.mapM pure (namePlace body)
      let stack ← frame.layout.stack.mapM fun t => t.mapM pure (namePlace body)
      return (frame.offset, (⟨locals, stack⟩ : Layout LabelledType))) fun t x =>
        FrameNamed (fun p label => t.get? p = some label) frame x.1 x.2.locals x.2.stack := by
    refine ((naming_namePlace body _).bind fun _ => (htypes frame.layout.locals).bind fun _ =>
      (htypes frame.layout.stack).map).mono ?_
    rintro t _ ⟨_, -, _, hlocals, _, hstack, rfl⟩
    exact ⟨rfl, hlocals, hstack⟩
  unfold nameFrame
  split
  · intro s x s' h
    obtain ⟨_, _, hthrow, -⟩ := Step.bind_ok.1 h
    exact (Step.throw_ok.1 hthrow).elim
  · exact hrest

/-- What a body names, with the labels of the places that it gives. -/
structure Named (named : NamedBody) (body : StoredBody) (tables : BodyTables) : Prop where
  sound : named.places.Sound body
  size : named.size = body.size
  maxs : named.maxStack = body.maxStack ∧ named.maxLocals = body.maxLocals
  instructions : List.Forall₂ (fun x y => y.1 = x.1 ∧
    List.Forall₂ (fun p label => named.places.get? p = some label) x.2.places y.2.places)
    body.instructions.toList named.instructions
  handlers : List.Forall₂ (fun entry range =>
    HandlerNamed (fun p label => named.places.get? p = some label) entry range.start range.stop
      range.handler) body.exceptionTable named.handlers
  vars : List.Forall₂ (fun v range => range.slot = v.slot ∧
    named.places.get? v.start = some range.start ∧ named.places.get? v.stop = some range.stop)
    tables.vars.toList named.vars
  lines : ∀ offset line, line ∈ (named.lines.getD offset #[]).toList →
    (offset, line) ∈ tables.lines.toList
  framePairs : ∃ pairs, named.frames = Std.HashMap.ofList pairs ∧
    List.Forall₂ (fun frame pair =>
      FrameNamed (fun p label => named.places.get? p = some label) frame pair.1 pair.2.locals
        pair.2.stack) tables.stackMap pairs

/-- The lines of an offset are entries of the table. -/
theorem mem_lines {entries : List (Nat × UInt16)} {lines : Std.HashMap Nat (Array UInt16)}
    {offset : Nat} {line : UInt16}
    (h : line ∈ ((entries.foldl (fun (lines : Std.HashMap Nat (Array UInt16)) (start, line) =>
      lines.insert start ((lines.getD start #[]).push line)) lines).getD offset #[]).toList) :
    line ∈ (lines.getD offset #[]).toList ∨ (offset, line) ∈ entries := by
  induction entries generalizing lines with
  | nil => exact Or.inl h
  | cons entry rest ih =>
    rcases ih h with hfirst | hrest
    · rw [Std.HashMap.getD_insert] at hfirst
      split at hfirst
      · rename_i heq
        obtain rfl := eq_of_beq heq
        rw [Array.toList_push] at hfirst
        rcases List.mem_append.1 hfirst with hbefore | hline
        · exact Or.inl hbefore
        · obtain rfl := List.mem_singleton.1 hline
          exact Or.inr List.mem_cons_self
      · exact Or.inl hfirst
    · exact Or.inr (List.mem_cons_of_mem _ hrest)

/-- What a map of pairs answers is one of the pairs. -/
theorem mem_insertMany {β : Type} {pairs : List (Nat × β)} {m : Std.HashMap Nat β} {key : Nat}
    {value : β} (h : (m.insertMany pairs)[key]? = some value) :
    m[key]? = some value ∨ (key, value) ∈ pairs := by
  induction pairs generalizing m with
  | nil =>
    rw [Std.HashMap.insertMany_nil] at h
    exact Or.inl h
  | cons pair rest ih =>
    obtain ⟨k, v⟩ := pair
    rw [Std.HashMap.insertMany_cons] at h
    rcases ih h with hfirst | hrest
    · rw [Std.HashMap.getElem?_insert] at hfirst
      split at hfirst
      · rename_i heq
        obtain rfl := eq_of_beq heq
        cases hfirst
        exact Or.inr List.mem_cons_self
      · exact Or.inl hfirst
    · exact Or.inr (List.mem_cons_of_mem _ hrest)

/-- A frame that is told was read. -/
theorem Named.frames {named : NamedBody} (h : Named named body tables) (offset : Nat)
    (layout : Layout LabelledType) (hlayout : named.frames[offset]? = some layout) :
    ∃ frame ∈ tables.stackMap, FrameNamed (fun p label => named.places.get? p = some label) frame
      offset layout.locals layout.stack := by
  obtain ⟨pairs, hpairs, hnamed⟩ := h.framePairs
  rw [hpairs, Std.HashMap.ofList_eq_insertMany_empty] at hlayout
  rcases mem_insertMany hlayout with hnone | hmem
  · simp at hnone
  · exact exists_of_forall₂ hnamed hmem

theorem named_of_nameBody {named : NamedBody} {s : Places}
    (h : image.nameBody body tables Places.empty = .ok named s) : Named named body tables := by
  have hinstruction (x : Nat × Instruction Nat) : Naming body (do
      return (x.1, ← x.2.mapM (namePlace body))) fun t y => y.1 = x.1 ∧
        List.Forall₂ (fun p label => t.get? p = some label) x.2.places y.2.places := by
    refine (naming_instruction body x.2).map.mono ?_
    rintro t _ ⟨j, hj, rfl⟩
    exact ⟨rfl, hj⟩
  obtain ⟨instructions, s1, hinstructions, h⟩ := Step.bind_ok.1 h
  obtain ⟨handlers, s2, hhandlers, h⟩ := Step.bind_ok.1 h
  obtain ⟨starts, s3, hlines, h⟩ := Step.bind_ok.1 h
  obtain ⟨vars, s4, hvars, h⟩ := Step.bind_ok.1 h
  obtain ⟨frames, s5, hframes, h⟩ := Step.bind_ok.1 h
  obtain ⟨_, _, hget, h⟩ := Step.bind_ok.1 h
  obtain ⟨rfl, rfl⟩ := Step.get_ok.1 hget
  obtain ⟨rfl, rfl⟩ := Step.pure_ok.1 h
  obtain ⟨hs1, -, hgood1⟩ := Naming.mapM hinstruction _ _ _ _ hinstructions
    (Places.sound_empty body)
  obtain ⟨hs2, he2, hgood2⟩ := Naming.mapM (naming_nameHandler body) _ _ _ _ hhandlers hs1
  obtain ⟨hs3, he3, -⟩ := Naming.mapM (fun line : Nat × UInt16 =>
    naming_namePlace body line.1) _ _ _ _ hlines hs2
  obtain ⟨hs4, he4, hgood4⟩ := Naming.mapM (naming_nameVariable body) _ _ _ _ hvars hs3
  obtain ⟨hs5, he5, hgood5⟩ := Naming.mapM (naming_nameFrame body) _ _ _ _ hframes hs4
  constructor
  case sound => exact hs5
  case size => rfl
  case maxs => exact ⟨rfl, rfl⟩
  case instructions => exact hgood1 _ (he2.trans (he3.trans (he4.trans he5)))
  case handlers => exact hgood2 _ (he3.trans (he4.trans he5))
  case vars => exact hgood4 _ he5
  case lines =>
    intro offset line hline
    rw [← Array.foldl_toList] at hline
    rcases mem_lines hline with hnone | hline
    · simp at hnone
    · exact hline
  case framePairs => exact ⟨frames, rfl, hgood5 _ (.refl _)⟩

end ClassImage

end JvmClass
