import JvmClass.Proofs.Image.ByPlace

/-!
# One body named twice

What is left out of a body is not named either, so that the labels of the rest are other ones. Two
steps that name places of one body, one of which may leave some out, are `Twins` if the second ends
whenever the first does, names no place that the first does not, and answers the same but for the
labels. Naming a whole body and naming it without what is left out are such twins
(`ClassImage.Renamed`).
-/

namespace JvmClass

namespace Places

/-- Every place that is named in one mapping is named in another one. -/
def Within (p q : Places) : Prop := ∀ offset label, p.get? offset = some label →
  ∃ label', q.get? offset = some label'

/-- The labels of the places of one mapping, given other names, are those of another one. -/
def Renames (name : Label → Label) (p q : Places) : Prop := ∀ offset label,
  p.get? offset = some label → q.get? offset = some (name label)

/-- Where every place of one mapping is named in another one, labels can be given the names that they
have there. -/
theorem Within.exists_renames {body : StoredBody} {p q : Places} (h : p.Within q)
    (hp : p.Sound body) : ∃ name, p.Renames name q := by
  have hname : ∀ label, ∃ label', ∀ offset, p.get? offset = some label →
      q.get? offset = some label' := by
    intro label
    by_cases hplace : ∃ offset, p.get? offset = some label
    · obtain ⟨offset, hoffset⟩ := hplace
      obtain ⟨label', hlabel'⟩ := h offset label hoffset
      exact ⟨label', fun other hother => hp.injective offset other label hoffset hother ▸ hlabel'⟩
    · exact ⟨label, fun offset hoffset => absurd ⟨offset, hoffset⟩ hplace⟩
  choose name hname using hname
  exact ⟨name, fun offset label hoffset => hname label offset hoffset⟩

end Places

open Places (Renames)

/-- Two steps of which the second ends whenever the first does, from places among those of the first.
What they answer is good with whatever places are named later. -/
def Twins {α β : Type} (body : StoredBody) (m : Step Places α) (n : Step Places β)
    (good : Places → (Label → Label) → α → β → Prop) : Prop :=
  ∀ s a s' t, m s = .ok a s' → s.Sound body → t.Sound body → t.Within s →
    (s'.Sound body ∧ s.Extends s') ∧ ∃ b t', n t = .ok b t' ∧
      (t'.Sound body ∧ t.Extends t') ∧ t'.Within s' ∧
      ∀ q p name, s'.Extends q → t'.Extends p → p.Renames name q → good p name a b

namespace Twins

variable {α β γ δ ι : Type} {body : StoredBody} {m : Step Places α} {n : Step Places β}
  {k : α → Step Places γ} {l : β → Step Places δ} {good good' : Places → (Label → Label) → α → β → Prop}

theorem pure (a : α) (b : β) :
    Twins body (pure a) (pure b) fun _ _ a' b' => a' = a ∧ b' = b := by
  intro s a' s' t h hs ht hwithin
  obtain ⟨rfl, rfl⟩ := Step.pure_ok.1 h
  exact ⟨⟨hs, .refl s⟩, b, t, rfl, ⟨ht, .refl t⟩, hwithin, fun _ _ _ _ _ _ => ⟨rfl, rfl⟩⟩

theorem throw (e : ClassError) : Twins body (throw e) n good := by
  intro s a s' t h
  exact (Step.throw_ok.1 h).elim

theorem of (x : Except ClassError α) :
    Twins body (Step.of x) (Step.of x) fun _ _ a b => a = b := by
  intro s a s' t h hs ht hwithin
  obtain ⟨hx, rfl⟩ := Step.of_ok.1 h
  exact ⟨⟨hs, .refl s⟩, a, t, Step.of_ok.2 ⟨hx, rfl⟩, ⟨ht, .refl t⟩, hwithin,
    fun _ _ _ _ _ _ => rfl⟩

theorem mono (h : Twins body m n good)
    (hgood : ∀ p name a b, good p name a b → good' p name a b) : Twins body m n good' := by
  intro s a s' t hm hs ht hwithin
  obtain ⟨hs', b, t', hn, ht', hwithin', hb⟩ := h s a s' t hm hs ht hwithin
  exact ⟨hs', b, t', hn, ht', hwithin', fun q p name hq hp hr => hgood p name a b
    (hb q p name hq hp hr)⟩

theorem bind {good' : α → β → Places → (Label → Label) → γ → δ → Prop} (h : Twins body m n good)
    (hk : ∀ a b, Twins body (k a) (l b) (good' a b)) :
    Twins body (m >>= k) (n >>= l) fun p name c d =>
      ∃ a b, good p name a b ∧ good' a b p name c d := by
  intro s c s' t hm hs ht hwithin
  obtain ⟨a, mid, ha, hc⟩ := Step.bind_ok.1 hm
  obtain ⟨⟨hmid, he⟩, b, mid', hb, ⟨hmid', he'⟩, hwithin, hgood⟩ := h s a mid t ha hs ht hwithin
  obtain ⟨⟨hs', hl⟩, d, t', hd, ⟨ht', hl'⟩, hwithin, hgood'⟩ :=
    hk a b mid c s' mid' hc hmid hmid' hwithin
  exact ⟨⟨hs', he.trans hl⟩, d, t', Step.bind_ok.2 ⟨b, mid', hb, hd⟩, ⟨ht', he'.trans hl'⟩, hwithin,
    fun q p name hq hp hr => ⟨a, b, hgood q p name (hl.trans hq) (hl'.trans hp) hr,
      hgood' q p name hq hp hr⟩⟩

theorem map {f : α → γ} {g : β → δ} (h : Twins body m n good) :
    Twins body (do return f (← m)) (do return g (← n)) fun p name c d =>
      ∃ a b, good p name a b ∧ c = f a ∧ d = g b :=
  h.bind fun a b => pure (f a) (g b)

/-- What the first names alone does not matter to the second. -/
theorem leave {named : Places → α → Prop} (h : Naming body m named) (b : β) :
    Twins body m (Pure.pure b) fun _ _ _ b' => b' = b := by
  intro s a s' t hm hs ht hwithin
  obtain ⟨hs', he, -⟩ := h s a s' hm hs
  refine ⟨⟨hs', he⟩, b, t, rfl, ⟨ht, .refl t⟩, fun offset label hlabel => ?_,
    fun _ _ _ _ _ _ => rfl⟩
  obtain ⟨label', hlabel'⟩ := hwithin offset label hlabel
  exact ⟨label', he offset label' hlabel'⟩

/-- The same for each of some things, in order. -/
theorem mapM {f : ι → Step Places α} {g : ι → Step Places β} {change : (Label → Label) → β → α}
    {fact : Places → ι → β → Prop}
    (h : ∀ i, Twins body (f i) (g i) fun p name a b => a = change name b ∧ fact p i b)
    (items : List ι) :
    Twins body (items.mapM f) (items.mapM g) fun p name as bs =>
      as = bs.map (change name) ∧ List.Forall₂ (fact p) items bs := by
  induction items with
  | nil =>
    rw [List.mapM_nil, List.mapM_nil]
    refine (pure [] []).mono ?_
    rintro p name _ _ ⟨rfl, rfl⟩
    exact ⟨rfl, .nil⟩
  | cons i rest ih =>
    rw [List.mapM_cons, List.mapM_cons]
    refine ((h i).bind fun a b => ih.bind fun as bs => pure (a :: as) (b :: bs)).mono ?_
    rintro p name _ _ ⟨a, b, ⟨rfl, hb⟩, as, bs, ⟨rfl, hbs⟩, rfl, rfl⟩
    exact ⟨rfl, .cons hb hbs⟩

end Twins

/-- An instruction whose places are given in another way. -/
def Instruction.map {P Q : Type} (f : P → Q) : Instruction P → Instruction Q
  | plain op => plain op
  | intOperand op operand => intOperand op operand
  | access op slot => access op slot
  | typeOperand op cls => typeOperand op cls
  | field op member => field op member
  | method op member => method op member
  | invokeDynamic site => invokeDynamic site
  | jump op target => jump op (f target)
  | load constant => load constant
  | increment slot amount => increment slot amount
  | tableSwitch low high fallback targets => tableSwitch low high (f fallback) (targets.map f)
  | lookupSwitch fallback keys targets => lookupSwitch (f fallback) keys (targets.map f)
  | newMultiArray cls dimensions => newMultiArray cls dimensions

namespace ClassImage

variable {image : ClassImage} {body : StoredBody}

/-- Naming a place names no other. -/
theorem get?_namePlace {s s' : Places} {offset o : Nat} {a label : Label}
    (h : namePlace body offset s = .ok a s') (hl : s'.get? o = some label) :
    s.get? o = some label ∨ o = offset := by
  unfold namePlace at h
  split at h
  · unfold Places.name at h
    split at h
    · cases h
      exact Or.inl hl
    · cases h
      rw [Places.get?_insert] at hl
      split at hl
      · rename_i he
        exact Or.inr he.symm
      · exact Or.inl hl
  · exact (Step.throw_ok.1 h).elim

theorem twins_namePlace (body : StoredBody) (offset : Nat) :
    Twins body (namePlace body offset) (namePlace body offset) fun p name a b =>
      a = name b ∧ p.get? offset = some b := by
  intro s a s' t h hs ht hwithin
  obtain ⟨hs', he, ha⟩ := naming_namePlace body offset s a s' h hs
  obtain ⟨b, t', hb⟩ : ∃ b t', namePlace body offset t = .ok b t' := by
    unfold namePlace at h ⊢
    split
    · unfold Places.name
      split <;> exact ⟨_, _, rfl⟩
    · rename_i hplace
      rw [if_neg hplace] at h
      exact (Step.throw_ok.1 h).elim
  obtain ⟨ht', he', hb'⟩ := naming_namePlace body offset t b t' hb ht
  refine ⟨⟨hs', he⟩, b, t', hb, ⟨ht', he'⟩, fun o l hl => ?_, fun q p name hq hp hr => ?_⟩
  · rcases get?_namePlace hb hl with hl | rfl
    · obtain ⟨l', hl'⟩ := hwithin o l hl
      exact ⟨l', he o l' hl'⟩
    · exact ⟨a, ha s' (.refl s')⟩
  · have hplace := hb' p hp
    exact ⟨Option.some.inj ((ha q hq).symm.trans (hr _ _ hplace)), hplace⟩

theorem twins_instruction (body : StoredBody) (i : Instruction Nat) :
    Twins body (i.mapM (namePlace body)) (i.mapM (namePlace body)) fun _ name a b =>
      a = b.map name := by
  have hplaces (places : List Nat) := Twins.mapM (twins_namePlace body) places
  cases i with
  | jump op target =>
    refine (twins_namePlace body target).map.mono ?_
    rintro p name _ _ ⟨a, b, ⟨rfl, -⟩, rfl, rfl⟩
    rfl
  | tableSwitch low high fallback targets =>
    refine ((twins_namePlace body fallback).bind fun _ _ => (hplaces targets).map).mono ?_
    rintro p name _ _ ⟨_, _, ⟨rfl, -⟩, _, _, ⟨rfl, -⟩, rfl, rfl⟩
    rfl
  | lookupSwitch fallback keys targets =>
    refine ((twins_namePlace body fallback).bind fun _ _ => (hplaces targets).map).mono ?_
    rintro p name _ _ ⟨_, _, ⟨rfl, -⟩, _, _, ⟨rfl, -⟩, rfl, rfl⟩
    rfl
  | _ =>
    refine (Twins.pure _ _).mono ?_
    rintro p name _ _ ⟨rfl, rfl⟩
    rfl

/-- A handler with other labels. -/
def relabelHandler (name : Label → Label) (h : HandlerRange) : HandlerRange :=
  ⟨name h.start, name h.stop, name h.handler, h.catchType⟩

theorem twins_nameHandler (body : StoredBody) (entry : TableEntry) :
    Twins body (image.nameHandler body entry) (image.nameHandler body entry) fun _ name a b =>
      a = relabelHandler name b ∧ True := by
  refine ((twins_namePlace body _).bind fun _ _ => (twins_namePlace body _).bind fun _ _ =>
    (twins_namePlace body _).bind fun _ _ => (Twins.of _).map).mono ?_
  rintro p name _ _ ⟨_, _, ⟨rfl, -⟩, _, _, ⟨rfl, -⟩, _, _, ⟨rfl, -⟩, _, _, rfl, rfl, rfl⟩
  exact ⟨rfl, trivial⟩

/-- The range of a local variable with other labels. -/
def relabelVariable (name : Label → Label) (v : VariableRange Label) : VariableRange Label :=
  ⟨v.name, v.descriptor, name v.start, name v.stop, v.slot⟩

theorem twins_nameVariable (body : StoredBody) (v : StoredVariable) :
    Twins body (image.nameVariable body v) (image.nameVariable body v) fun _ name a b =>
      a = relabelVariable name b ∧ True := by
  refine ((Twins.of _).bind fun _ _ => (Twins.of _).bind fun _ _ =>
    (twins_namePlace body _).bind fun _ _ => (twins_namePlace body _).map).mono ?_
  rintro p name _ _ ⟨_, _, rfl, _, _, rfl, _, _, ⟨rfl, -⟩, _, _, ⟨rfl, -⟩, rfl, rfl⟩
  exact ⟨rfl, trivial⟩

theorem twins_type (body : StoredBody) (type : NamedType) :
    Twins body (type.mapM pure (namePlace body)) (type.mapM pure (namePlace body)) fun _ name a b =>
      a = b.map id name ∧ True := by
  cases type with
  | uninitialized place =>
    refine (twins_namePlace body place).map.mono ?_
    rintro p name _ _ ⟨_, _, ⟨rfl, -⟩, rfl, rfl⟩
    exact ⟨rfl, trivial⟩
  | object cls =>
    refine (Twins.pure cls cls).map.mono ?_
    rintro p name _ _ ⟨_, _, ⟨rfl, rfl⟩, rfl, rfl⟩
    exact ⟨rfl, trivial⟩
  | _ =>
    refine (Twins.pure _ _).mono ?_
    rintro p name _ _ ⟨rfl, rfl⟩
    exact ⟨rfl, trivial⟩

/-- A frame with other labels. -/
def relabelLayout (name : Label → Label) (layout : Layout LabelledType) : Layout LabelledType :=
  ⟨layout.locals.map (·.map id name), layout.stack.map (·.map id name)⟩

theorem twins_nameFrame (body : StoredBody) (frame : PlacedFrame) :
    Twins body (nameFrame body frame) (nameFrame body frame) fun p name a b =>
      a = (b.1, relabelLayout name b.2) ∧
        b.1 = frame.offset ∧ ∃ label, p.get? frame.offset = some label := by
  have htypes (types : List NamedType) := Twins.mapM (twins_type body) types
  have hrest : Twins body (do
      let _ ← namePlace body frame.offset
      let locals ← frame.layout.locals.mapM fun t => t.mapM pure (namePlace body)
      let stack ← frame.layout.stack.mapM fun t => t.mapM pure (namePlace body)
      return (frame.offset, (⟨locals, stack⟩ : Layout LabelledType))) (do
      let _ ← namePlace body frame.offset
      let locals ← frame.layout.locals.mapM fun t => t.mapM pure (namePlace body)
      let stack ← frame.layout.stack.mapM fun t => t.mapM pure (namePlace body)
      return (frame.offset, (⟨locals, stack⟩ : Layout LabelledType))) fun p name a b =>
        a = (b.1, relabelLayout name b.2) ∧
          b.1 = frame.offset ∧ ∃ label, p.get? frame.offset = some label := by
    refine ((twins_namePlace body _).bind fun _ _ => (htypes frame.layout.locals).bind fun _ _ =>
      (htypes frame.layout.stack).map).mono ?_
    rintro p name _ _ ⟨_, label, ⟨-, hlabel⟩, _, _, ⟨rfl, -⟩, _, _, ⟨rfl, -⟩, rfl, rfl⟩
    exact ⟨rfl, rfl, label, hlabel⟩
  unfold nameFrame
  split
  · intro s x s' t h
    obtain ⟨_, _, hthrow, -⟩ := Step.bind_ok.1 h
    exact (Step.throw_ok.1 hthrow).elim
  · exact hrest

end ClassImage

/-- What a reader is asked to leave out besides what fields and methods hold. -/
def Skip.unflagged (skip : Skip) : Skip := { members := skip.members }

/-- Whether an attribute of a body is left out. -/
def Skip.leavesAttribute (skip : Skip) (a : RawAttribute) : Bool :=
  skip.debug && a.name == "LocalVariableTypeTable"

/-- The tables of a body without what is left out. -/
structure Trimmed (skip : Skip) (full part : BodyTables) : Prop where
  lines : part.lines = if skip.debug then #[] else full.lines
  vars : part.vars = if skip.debug then #[] else full.vars
  stackMap : part.stackMap = if skip.frames then [] else full.stackMap
  attributes : part.attributes.toList =
    full.attributes.toList.filter fun a => !skip.leavesAttribute a

namespace ClassImage

variable {image : ClassImage} {body : StoredBody} {skip : Skip} {full full' part : BodyTables}

/-- An attribute is read, or left out, without regard to what has been left out before. -/
theorem trimmed_addTable {d : MethodDeclaration} {span : AttributeSpan} (ht : Trimmed skip full part)
    (h : image.addTable skip.unflagged d full span = .ok full') :
    ∃ part', image.addTable skip d part span = .ok part' ∧ Trimmed skip full' part' := by
  unfold addTable at h ⊢
  simp only [Skip.unflagged, Bool.false_eq_true, if_false, Bool.and_false] at h
  by_cases hlines : (span.name == "LineNumberTable") = true
  · rw [if_pos hlines] at h ⊢
    obtain ⟨lines, hread, h⟩ := Step.except_bind_ok.1 h
    cases h
    cases hdebug : skip.debug with
    | true => exact ⟨part, rfl, by simp [ht.lines, hdebug], ht.vars, ht.stackMap, ht.attributes⟩
    | false =>
      exact ⟨_, Step.except_bind_ok.2 ⟨lines, hread, rfl⟩, by simp [ht.lines, hdebug], ht.vars,
        ht.stackMap, ht.attributes⟩
  rw [if_neg hlines] at h ⊢
  by_cases hvars : (span.name == "LocalVariableTable") = true
  · rw [if_pos hvars] at h ⊢
    obtain ⟨vars, hread, h⟩ := Step.except_bind_ok.1 h
    cases h
    cases hdebug : skip.debug with
    | true => exact ⟨part, rfl, ht.lines, by simp [ht.vars, hdebug], ht.stackMap, ht.attributes⟩
    | false =>
      exact ⟨_, Step.except_bind_ok.2 ⟨vars, hread, rfl⟩, ht.lines, by simp [ht.vars, hdebug],
        ht.stackMap, ht.attributes⟩
  rw [if_neg hvars] at h ⊢
  by_cases hframes : (span.name == "StackMapTable") = true
  · rw [if_pos hframes] at h ⊢
    obtain ⟨locals, hlocals, h⟩ := Step.except_bind_ok.1 h
    obtain ⟨stackMap, hread, h⟩ := Step.except_bind_ok.1 h
    cases h
    cases hskip : skip.frames with
    | true => exact ⟨part, rfl, ht.lines, ht.vars, by simp [ht.stackMap, hskip], ht.attributes⟩
    | false =>
      exact ⟨_, Step.except_bind_ok.2 ⟨locals, hlocals, Step.except_bind_ok.2
        ⟨stackMap, hread, rfl⟩⟩, ht.lines, ht.vars, by simp [hskip], ht.attributes⟩
  rw [if_neg hframes] at h ⊢
  cases h
  by_cases hleft : (span.name == "LocalVariableTypeTable" && skip.debug) = true
  · refine ⟨part, if_pos hleft, ht.lines, ht.vars, ht.stackMap, ?_⟩
    have hraw : skip.leavesAttribute (image.raw span) = true := (Bool.and_comm ..).trans hleft
    simp [ht.attributes, hraw]
  · refine ⟨_, if_neg hleft, ht.lines, ht.vars, ht.stackMap, ?_⟩
    have hraw : skip.leavesAttribute (image.raw span) = false :=
      (Bool.and_comm ..).trans (Bool.eq_false_iff.2 hleft)
    simp [ht.attributes, hraw]

theorem trimmed_foldlM {d : MethodDeclaration} {spans : List AttributeSpan}
    (ht : Trimmed skip full part)
    (h : spans.foldlM (image.addTable skip.unflagged d) full = .ok full') :
    ∃ part', spans.foldlM (image.addTable skip d) part = .ok part' ∧ Trimmed skip full' part' := by
  induction spans generalizing full part with
  | nil =>
    cases h
    exact ⟨part, rfl, ht⟩
  | cons span rest ih =>
    rw [List.foldlM_cons] at h
    obtain ⟨mid, hmid, h⟩ := Step.except_bind_ok.1 h
    obtain ⟨mid', hmid', ht'⟩ := trimmed_addTable ht hmid
    obtain ⟨part', hpart, ht''⟩ := ih ht' h
    exact ⟨part', Step.except_bind_ok.2 ⟨mid', hmid', hpart⟩, ht''⟩

/-- What a body without what is left out names, against what the whole body names. -/
structure Renamed (skip : Skip) (name : Label → Label) (full part : NamedBody) : Prop where
  places : part.places.Renames name full.places
  size : full.size = part.size
  maxs : full.maxStack = part.maxStack ∧ full.maxLocals = part.maxLocals
  instructions : full.instructions = part.instructions.map fun x => (x.1, x.2.map name)
  handlers : full.handlers = part.handlers.map (relabelHandler name)
  vars : if skip.debug then part.vars = [] else full.vars = part.vars.map (relabelVariable name)
  lines : ∀ offset, part.lines.getD offset #[] =
    if skip.debug then #[] else full.lines.getD offset #[]
  frames : ∀ offset : Nat, (part.frames[offset]?).map (relabelLayout name) =
    if skip.frames then none else full.frames[offset]?
  attributes : part.attributes = full.attributes.filter fun a => !skip.leavesAttribute a
  /-- Where there are lines or a frame, there is a label. -/
  linesNamed : ∀ offset, part.lines.getD offset #[] ≠ #[] →
    ∃ label, part.places.get? offset = some label
  framesNamed : ∀ (offset : Nat) layout, part.frames[offset]? = some layout →
    ∃ label, part.places.get? offset = some label

theorem ofList_map {β γ : Type} (f : β → γ) (pairs : List (Nat × β)) (key : Nat) :
    (Std.HashMap.ofList (pairs.map fun pair => (pair.1, f pair.2)))[key]? =
      (Std.HashMap.ofList pairs)[key]?.map f := by
  suffices h : ∀ (m : Std.HashMap Nat γ) (m' : Std.HashMap Nat β), m[key]? = m'[key]?.map f →
      (m.insertMany (pairs.map fun pair => (pair.1, f pair.2)))[key]? =
        (m'.insertMany pairs)[key]?.map f by
    simpa [Std.HashMap.ofList_eq_insertMany_empty] using h ∅ ∅ (by simp)
  induction pairs with
  | nil =>
    intro m m' h
    simpa [Std.HashMap.insertMany_nil] using h
  | cons pair rest ih =>
    intro m m' h
    rw [List.map_cons, Std.HashMap.insertMany_cons, Std.HashMap.insertMany_cons]
    refine ih _ _ ?_
    rw [Std.HashMap.getElem?_insert, Std.HashMap.getElem?_insert]
    split
    · rfl
    · exact h

theorem twins_lines (ht : Trimmed skip full part) :
    Twins body (full.lines.toList.mapM fun (start, _) => namePlace body start)
      (part.lines.toList.mapM fun (start, _) => namePlace body start) fun p _ _ _ =>
        ∀ x ∈ part.lines.toList, ∃ label, p.get? x.1 = some label := by
  have hlines (lines : List (Nat × UInt16)) :=
    Twins.mapM (fun x : Nat × UInt16 => twins_namePlace body x.1) lines
  rw [ht.lines]
  split
  · refine (Twins.leave (Naming.mapM (fun x : Nat × UInt16 => naming_namePlace body x.1) _) []).mono
      ?_
    intro p name _ _ _ x hx
    cases hx
  · refine (hlines _).mono ?_
    rintro p name _ _ ⟨-, hall⟩ x hx
    obtain ⟨label, -, hlabel⟩ := exists_of_forall₂ hall.flip hx
    exact ⟨label, hlabel⟩

theorem twins_vars (ht : Trimmed skip full part) :
    Twins body (full.vars.toList.mapM (image.nameVariable body))
      (part.vars.toList.mapM (image.nameVariable body)) fun _ name as bs =>
        if skip.debug then bs = [] else as = bs.map (relabelVariable name) := by
  rw [ht.vars]
  split
  · exact (Twins.leave (Naming.mapM (naming_nameVariable body) _) []).mono fun _ _ _ _ h => h
  · exact (Twins.mapM (twins_nameVariable body) _).mono fun _ _ _ _ h => h.1

theorem twins_frames (ht : Trimmed skip full part) :
    Twins body (full.stackMap.mapM (nameFrame body)) (part.stackMap.mapM (nameFrame body))
      fun p name as bs => (if skip.frames then bs = [] else
        as = bs.map fun b => (b.1, relabelLayout name b.2)) ∧
          ∀ b ∈ bs, ∃ label, p.get? b.1 = some label := by
  rw [ht.stackMap]
  split
  · refine (Twins.leave (Naming.mapM (naming_nameFrame body) _) []).mono ?_
    rintro p name _ _ rfl
    exact ⟨rfl, fun _ h => nomatch h⟩
  · refine (Twins.mapM (twins_nameFrame body) _).mono ?_
    rintro p name _ _ ⟨h, hall⟩
    refine ⟨h, fun b hb => ?_⟩
    obtain ⟨frame, -, hoffset, hlabel⟩ := exists_of_forall₂ hall hb
    rwa [hoffset]

/-- What is left out of a body can be left out of naming it. -/
theorem renamed_of_nameBody {named : NamedBody} {s : Places} (ht : Trimmed skip full part)
    (h : image.nameBody body full Places.empty = .ok named s) :
    ∃ named' s', image.nameBody body part Places.empty = .ok named' s' ∧
      ∃ name, Renamed skip name named named' := by
  have hinstruction (x : Nat × Instruction Nat) : Twins body
      (do return (x.1, ← x.2.mapM (namePlace body)))
      (do return (x.1, ← x.2.mapM (namePlace body)))
      fun _ name a b => a = (b.1, b.2.map name) ∧ True := by
    refine (twins_instruction body x.2).map.mono ?_
    rintro p name _ _ ⟨_, _, rfl, rfl, rfl⟩
    exact ⟨rfl, trivial⟩
  have hempty := Places.sound_empty body
  obtain ⟨instructions, s1, h1, h⟩ := Step.bind_ok.1 h
  obtain ⟨⟨hs, -⟩, instructions', t1, h1', ⟨ht1, he1⟩, hw, hgood1⟩ :=
    Twins.mapM hinstruction _ _ _ _ _ h1 hempty hempty fun _ _ hl => ⟨_, hl⟩
  obtain ⟨handlers, s2, h2, h⟩ := Step.bind_ok.1 h
  obtain ⟨⟨hs, hf2⟩, handlers', t2, h2', ⟨ht2, he2⟩, hw, hgood2⟩ :=
    Twins.mapM (twins_nameHandler body) _ _ _ _ _ h2 hs ht1 hw
  obtain ⟨_, s3, h3, h⟩ := Step.bind_ok.1 h
  obtain ⟨⟨hs, hf3⟩, lines', t3, h3', ⟨ht3, he3⟩, hw, hgood3⟩ := twins_lines ht _ _ _ _ h3 hs ht2 hw
  obtain ⟨vars, s4, h4, h⟩ := Step.bind_ok.1 h
  obtain ⟨⟨hs, hf4⟩, vars', t4, h4', ⟨ht4, he4⟩, hw, hgood4⟩ := twins_vars ht _ _ _ _ h4 hs ht3 hw
  obtain ⟨frames, s5, h5, h⟩ := Step.bind_ok.1 h
  obtain ⟨⟨hs, hf5⟩, frames', t5, h5', ⟨ht5, he5⟩, hw, hgood5⟩ :=
    twins_frames ht _ _ _ _ h5 hs ht4 hw
  obtain ⟨_, _, hget, h⟩ := Step.bind_ok.1 h
  obtain ⟨rfl, rfl⟩ := Step.get_ok.1 hget
  obtain ⟨rfl, rfl⟩ := Step.pure_ok.1 h
  obtain ⟨name, hname⟩ := hw.exists_renames ht5
  refine ⟨_, t5, Step.bind_ok.2 ⟨_, _, h1', Step.bind_ok.2 ⟨_, _, h2', Step.bind_ok.2 ⟨_, _, h3',
    Step.bind_ok.2 ⟨_, _, h4', Step.bind_ok.2 ⟨_, _, h5', rfl⟩⟩⟩⟩⟩, name, ?_⟩
  -- Labels that were given stay, so that what each step says holds of the labels in the end.
  obtain ⟨hi, -⟩ := hgood1 s5 t5 name (hf2.trans (hf3.trans (hf4.trans hf5)))
    (he2.trans (he3.trans (he4.trans he5))) hname
  obtain ⟨hh, -⟩ := hgood2 s5 t5 name (hf3.trans (hf4.trans hf5)) (he3.trans (he4.trans he5)) hname
  have hl := hgood3 s5 t5 name (hf4.trans hf5) (he4.trans he5) hname
  have hv := hgood4 s5 t5 name hf5 he5 hname
  obtain ⟨hfr, hfn⟩ := hgood5 s5 t5 name (.refl s5) (.refl t5) hname
  constructor
  case places => exact hname
  case size => rfl
  case maxs => exact ⟨rfl, rfl⟩
  case instructions => exact hi
  case handlers => exact hh
  case vars => exact hv
  case lines =>
    intro offset
    simp only [ht.lines]
    split
    · simp
    · rfl
  case frames =>
    intro offset
    split at hfr
    · rename_i hskip
      rw [if_pos hskip, hfr]
      simp [Std.HashMap.ofList_eq_insertMany_empty, Std.HashMap.insertMany_nil]
    · rename_i hskip
      rw [if_neg hskip, hfr, ofList_map]
  case attributes => exact ht.attributes
  case linesNamed =>
    intro offset hne
    obtain ⟨line, hline⟩ := List.exists_mem_of_ne_nil _ fun hnil => hne (Array.toList_eq_nil_iff.1 hnil)
    rw [← Array.foldl_toList] at hline
    rcases mem_lines hline with hnone | hline
    · simp at hnone
    · exact hl _ hline
  case framesNamed =>
    intro offset layout hlayout
    rw [Std.HashMap.ofList_eq_insertMany_empty] at hlayout
    rcases mem_insertMany hlayout with hnone | hmem
    · simp at hnone
    · exact hfn _ hmem

end ClassImage

end JvmClass
