import JvmClass.Proofs.Image.Places
import JvmClass.Proofs.Image.Twins
import JvmClass.Proofs.Search
import JvmClass.Proofs.Reencoding.Rows

/-!
# Bodies whose places can be named

A body all of whose places are starts of instructions or the end of the code can be named. What
comes of it is the body with a label for each place (`ClassImage.Called`).
-/

namespace JvmClass

namespace Places

/-- The label of an offset that has one. -/
def nameAt (p : Places) (offset : Nat) : Label := (p.get? offset).getD ⟨0⟩

/-- The label stands for the offset. -/
def Calls (p : Places) (offset : Nat) : Prop := p.get? offset = some (p.nameAt offset)

theorem nameAt_eq {p : Places} {offset : Nat} {label : Label} (h : p.get? offset = some label) :
    p.nameAt offset = label := by
  rw [nameAt, h, Option.getD_some]

theorem calls_iff {p : Places} {offset : Nat} : p.Calls offset ↔ ∃ label, p.get? offset =
    some label := by
  refine ⟨fun h => ⟨_, h⟩, fun ⟨label, h⟩ => ?_⟩
  rw [Calls, nameAt_eq h, h]

end Places

/-- Naming succeeds, keeps the labels that there are, and has a result that is good with the labels
that it gives, whatever others are given later. -/
def Calling {α : Type} (body : StoredBody) (m : Step Places α) (good : Places → α → Prop) : Prop :=
  ∀ s, s.Sound body → ∃ a s', m s = .ok a s' ∧ s'.Sound body ∧ s.Extends s' ∧
    ∀ t, s'.Extends t → good t a

/-- Instructions come in the order of their offsets. -/
def StoredBody.Ordered (body : StoredBody) : Prop :=
  body.instructions.toList.Pairwise fun x y => x.1 < y.1

namespace Calling

variable {α β : Type} {body : StoredBody} {m : Step Places α} {k : α → Step Places β}
  {good good' : Places → α → Prop}

theorem pure (a : α) : Calling body (pure a) fun _ b => b = a :=
  fun s hs => ⟨a, s, rfl, hs, .refl s, fun _ _ => rfl⟩

theorem of {x : Except ClassError α} {a : α} (h : x = .ok a) :
    Calling body (Step.of x) fun _ b => b = a :=
  fun s hs => ⟨a, s, Step.of_ok.2 ⟨h, rfl⟩, hs, .refl s, fun _ _ => rfl⟩

theorem mono (h : Calling body m good) (hgood : ∀ t a, good t a → good' t a) :
    Calling body m good' := fun s hs =>
  let ⟨a, s', hm, hs', he, hg⟩ := h s hs
  ⟨a, s', hm, hs', he, fun t ht => hgood t a (hg t ht)⟩

theorem bind {good' : α → Places → β → Prop} (h : Calling body m good)
    (hk : ∀ a, Calling body (k a) (good' a)) :
    Calling body (m >>= k) fun t b => ∃ a, good t a ∧ good' a t b := by
  intro s hs
  obtain ⟨a, s', hm, hs', he, hg⟩ := h s hs
  obtain ⟨b, s'', hk', hs'', he', hg'⟩ := hk a s' hs'
  exact ⟨b, s'', Step.bind_ok.2 ⟨a, s', hm, hk'⟩, hs'', he.trans he',
    fun t ht => ⟨a, hg t (he'.trans ht), hg' t ht⟩⟩

theorem map {f : α → β} (h : Calling body m good) :
    Calling body (do return f (← m)) fun t b => ∃ a, good t a ∧ b = f a :=
  h.bind fun a => pure (f a)

theorem mapM {f : α → Step Places β} {good : α → Places → β → Prop} {items : List α}
    (h : ∀ a ∈ items, Calling body (f a) (good a)) :
    Calling body (items.mapM f) fun t bs => List.Forall₂ (fun a b => good a t b) items bs := by
  induction items with
  | nil =>
    refine (pure []).mono ?_
    rintro _ _ rfl
    exact .nil
  | cons a rest ih =>
    obtain ⟨ha, hrest⟩ := List.forall_mem_cons.1 h
    rw [List.mapM_cons]
    refine (ha.bind fun _ => (ih hrest).map).mono ?_
    rintro t _ ⟨b, hb, bs, hbs, rfl⟩
    exact .cons hb hbs

/-- What is read from the names in the end is good. -/
theorem get : Calling body get fun t p => p.Extends t :=
  fun s hs => ⟨s, s, rfl, hs, .refl s, fun _ ht => ht⟩

end Calling

namespace ClassImage

open MethodBuilder (Same TypeSame LayoutSame)

variable {image : ClassImage} {body : StoredBody} {tables : BodyTables}

theorem startsAt_of_starts (hordered : body.Ordered) {p : Nat} (h : body.Starts p) :
    Instruction.startsAt body.instructions p = true := by
  obtain ⟨i, hi⟩ := h
  obtain ⟨k, hk, hget⟩ := List.mem_iff_getElem.1 (Array.mem_toList_iff.2 hi)
  have hpoint : partitionPoint body.instructions.size (isBelow body.instructions p) = k :=
    partitionPoint_of_sorted hordered hk (congrArg Prod.fst hget)
  rw [Array.getElem_toList] at hget
  simp only [Instruction.startsAt]
  generalize hindex : partitionPoint body.instructions.size _ = index
  obtain rfl : index = k := by
    rw [← hindex, ← hpoint]
    congr 1
    funext j
    unfold isBelow
    cases body.instructions[j]? <;> rfl
  rw [Array.getElem?_eq_getElem (by simpa using hk), hget]
  exact beq_self_eq_true p

theorem calling_namePlace (hordered : body.Ordered) {p : Nat} (h : body.Admits p) :
    Calling body (namePlace body p) fun t label => t.get? p = some label := by
  intro s hs
  have hplace : (Instruction.startsAt body.instructions p || p == body.size) = true := by
    rw [Bool.or_eq_true, beq_iff_eq]
    exact h.imp_left (startsAt_of_starts hordered)
  obtain ⟨label, s', hname⟩ := namePlace_total hplace s
  obtain ⟨hs', he, hgood⟩ := naming_namePlace body p s label s' hname hs
  exact ⟨label, s', hname, hs', he, hgood⟩

theorem calling_places (hordered : body.Ordered) {places : List Nat} (h : ∀ p ∈ places,
    body.Admits p) : Calling body (places.mapM (namePlace body)) fun t labels =>
      labels = places.map t.nameAt ∧ ∀ p ∈ places, t.Calls p := by
  refine (Calling.mapM fun p hp => calling_namePlace hordered (h p hp)).mono fun t labels hall => ?_
  induction hall with
  | nil => exact ⟨rfl, nofun⟩
  | cons hfirst _ ih =>
    obtain ⟨rfl, hrest⟩ := ih fun p hp => h p (List.mem_cons_of_mem _ hp)
    rw [List.map_cons, Places.nameAt_eq hfirst]
    exact ⟨rfl, List.forall_mem_cons.2 ⟨Places.calls_iff.2 ⟨_, hfirst⟩, hrest⟩⟩

theorem calling_instruction (hordered : body.Ordered) {i : Instruction Nat} (h : ∀ p ∈ i.places,
    body.Admits p) : Calling body (i.mapM (namePlace body)) fun t j =>
      j = i.map t.nameAt ∧ ∀ p ∈ i.places, t.Calls p := by
  cases i with
  | jump op target =>
    refine (calling_namePlace hordered (h target List.mem_cons_self)).map.mono ?_
    rintro t _ ⟨label, hlabel, rfl⟩
    refine ⟨congrArg (Instruction.jump op) (Places.nameAt_eq hlabel).symm, ?_⟩
    exact List.forall_mem_cons.2 ⟨Places.calls_iff.2 ⟨_, hlabel⟩, nofun⟩
  | tableSwitch low high fallback targets =>
    obtain ⟨hfallback, htargets⟩ := List.forall_mem_cons.1 h
    refine ((calling_namePlace hordered hfallback).bind fun _ =>
      (calling_places hordered htargets).map).mono ?_
    rintro t _ ⟨label, hlabel, labels, ⟨rfl, hlabels⟩, rfl⟩
    rw [Instruction.map, Places.nameAt_eq hlabel]
    exact ⟨rfl, List.forall_mem_cons.2 ⟨Places.calls_iff.2 ⟨_, hlabel⟩, hlabels⟩⟩
  | lookupSwitch fallback keys targets =>
    obtain ⟨hfallback, htargets⟩ := List.forall_mem_cons.1 h
    refine ((calling_namePlace hordered hfallback).bind fun _ =>
      (calling_places hordered htargets).map).mono ?_
    rintro t _ ⟨label, hlabel, labels, ⟨rfl, hlabels⟩, rfl⟩
    rw [Instruction.map, Places.nameAt_eq hlabel]
    exact ⟨rfl, List.forall_mem_cons.2 ⟨Places.calls_iff.2 ⟨_, hlabel⟩, hlabels⟩⟩
  | _ =>
    refine (Calling.pure _).mono ?_
    rintro t _ rfl
    exact ⟨rfl, nofun⟩

/-- A handler with its places named. -/
structure HandlerCalled (image : ClassImage) (t : Places) (entry : TableEntry)
    (range : HandlerRange) : Prop where
  start : t.get? entry.start.toNat = some range.start
  stop : t.get? entry.stop.toNat = some range.stop
  handler : t.get? entry.handler.toNat = some range.handler
  catchType : image.cls? entry.catchType = .ok range.catchType

theorem calling_handler (hordered : body.Ordered) {entry : TableEntry}
    (hstart : body.Admits entry.start.toNat) (hstop : body.Admits entry.stop.toNat) (hhandler :
    body.Admits entry.handler.toNat)
    {catchType : Option String} (hcatch : image.cls? entry.catchType = .ok catchType) :
    Calling body (image.nameHandler body entry) (image.HandlerCalled · entry) := by
  refine ((calling_namePlace hordered hstart).bind fun _ =>
    (calling_namePlace hordered hstop).bind fun _ =>
    (calling_namePlace hordered hhandler).bind fun _ => (Calling.of hcatch).map).mono ?_
  rintro t _ ⟨start, h1, stop, h2, handler, h3, _, rfl, rfl⟩
  exact ⟨h1, h2, h3, hcatch⟩

/-- A variable with its range named. -/
structure VariableCalled (image : ClassImage) (t : Places) (v : StoredVariable)
    (range : VariableRange Label) : Prop where
  name : image.utf8 v.name = .ok range.name
  descriptor : image.utf8 v.descriptor = .ok range.descriptor
  start : t.get? v.start = some range.start
  stop : t.get? v.stop = some range.stop
  slot : range.slot = v.slot

theorem calling_variable (hordered : body.Ordered) {v : StoredVariable} (hstart :
    body.Admits v.start)
    (hstop : body.Admits v.stop) {name descriptor : String} (hname : image.utf8 v.name = .ok name)
    (hdescriptor : image.utf8 v.descriptor = .ok descriptor) :
    Calling body (image.nameVariable body v) (image.VariableCalled · v) := by
  refine ((Calling.of hname).bind fun _ => (Calling.of hdescriptor).bind fun _ =>
    (calling_namePlace hordered hstart).bind fun _ =>
    (calling_namePlace hordered hstop).map).mono ?_
  rintro t _ ⟨_, rfl, _, rfl, start, h1, stop, h2, rfl⟩
  exact ⟨hname, hdescriptor, h1, h2, rfl⟩

/-- A type whose label is named again has a label for the same offset. -/
theorem calling_type (hordered : body.Ordered) {type : NamedType} (h : ∀ p, type =
    .uninitialized p → body.Admits p) :
    Calling body (type.mapM pure (namePlace body)) fun t named => ∀ (g : LabelGraph)
    (x : LabelledType),
      (x.mapM pure g.offset : Except ClassError NamedType) = .ok type → TypeSame g t x named := by
  cases type with
  | uninitialized p =>
    refine (calling_namePlace hordered (h p rfl)).map.mono ?_
    rintro t _ ⟨label, hlabel, rfl⟩ g x hx
    cases x with
    | uninitialized l =>
      obtain ⟨o, ho, hx⟩ := Step.except_bind_ok.1 hx
      cases hx
      exact .uninitialized ⟨p, ho, hlabel⟩
    | _ => cases hx
  | object name =>
    refine (Calling.pure _).mono ?_
    rintro t _ rfl g x hx
    cases x with
    | uninitialized l =>
      obtain ⟨o, ho, hx⟩ := Step.except_bind_ok.1 hx
      cases hx
    | object other =>
      cases hx
      exact .other nofun
    | _ => cases hx
  | _ =>
    refine (Calling.pure _).mono ?_
    rintro t _ rfl g x hx
    cases x with
    | uninitialized l =>
      obtain ⟨o, ho, hx⟩ := Step.except_bind_ok.1 hx
      cases hx
    | _ =>
      cases hx <;> exact .other nofun

theorem calling_types (hordered : body.Ordered) {types : List NamedType}
    (h : ∀ p, .uninitialized p ∈ types → body.Admits p) :
    Calling body (types.mapM fun t => t.mapM pure (namePlace body)) fun t named =>
      ∀ (g : LabelGraph) (xs : List LabelledType),
        (xs.mapM fun x => x.mapM pure g.offset : Except ClassError (List NamedType)) = .ok types →
        List.Forall₂ (TypeSame g t) xs named := by
  refine (Calling.mapM fun type htype => calling_type hordered fun p hp => h p (hp ▸ htype)).mono ?_
  intro t named hall g xs hxs
  have hoffsets := forall₂_of_mapM hxs
  clear hxs h
  induction hoffsets generalizing named with
  | nil =>
    cases hall
    exact .nil
  | cons hfirst _ ih =>
    obtain _ | ⟨hnamed, hrest⟩ := hall
    exact .cons (hnamed g _ hfirst) (ih _ hrest)

/-- A frame with its places named. -/
structure FrameCalled (t : Places) (frame : PlacedFrame) (pair : Nat × Layout LabelledType) :
    Prop where
  offset : pair.1 = frame.offset
  named : t.Calls frame.offset
  layout : ∀ g x, MethodBuilder.givenLayout g x = .ok (frame.offset, frame.layout) →
    LayoutSame g t x.2 pair.2

theorem calling_frame (hordered : body.Ordered) {frame : PlacedFrame} (hstarts :
    body.Starts frame.offset) (hsize : frame.offset < body.size)
    (htypes : ∀ p, .uninitialized p ∈ frame.layout.locals ++ frame.layout.stack → body.Admits p) :
    Calling body (nameFrame body frame) (FrameCalled · frame) := by
  have hrun : nameFrame body frame = (do
      let _ ← namePlace body frame.offset
      let locals ← frame.layout.locals.mapM fun t => t.mapM pure (namePlace body)
      let stack ← frame.layout.stack.mapM fun t => t.mapM pure (namePlace body)
      return (frame.offset, ⟨locals, stack⟩)) := by
    unfold nameFrame
    rw [if_neg (Nat.not_le.2 hsize)]
  rw [hrun]
  refine ((calling_namePlace hordered (.inl hstarts)).bind fun _ =>
    (calling_types hordered fun p hp =>
    htypes p (List.mem_append_left _ hp)).bind fun _ => (calling_types hordered fun p hp =>
      htypes p (List.mem_append_right _ hp)).map).mono ?_
  rintro t _ ⟨label, hlabel, locals, hlocals, stack, hstack, rfl⟩
  refine ⟨rfl, Places.calls_iff.2 ⟨_, hlabel⟩, fun g x hx => ?_⟩
  obtain ⟨ls, hls, hx⟩ := Step.except_bind_ok.1 hx
  obtain ⟨ss, hss, hx⟩ := Step.except_bind_ok.1 hx
  have hlayout : (⟨ls, ss⟩ : Layout NamedType) = frame.layout :=
    congrArg Prod.snd (Except.ok.inj hx)
  rw [← hlayout] at hlocals hstack
  exact ⟨hlocals g _ hls, hstack g _ hss⟩

/-- The lines of an offset are those of its entries, in order. -/
theorem getD_foldl_lines (entries : List (Nat × UInt16)) (lines : Std.HashMap Nat (Array UInt16))
    (offset : Nat) : ((entries.foldl (fun (lines : Std.HashMap Nat (Array UInt16)) (start, line) =>
      lines.insert start ((lines.getD start #[]).push line)) lines).getD offset #[]).toList =
        (lines.getD offset #[]).toList ++ (entries.filter (·.1 == offset)).map Prod.snd := by
  induction entries generalizing lines with
  | nil => simp
  | cons entry rest ih =>
    rw [List.foldl_cons, ih, Std.HashMap.getD_insert, List.filter_cons]
    split
    · rename_i heq
      obtain rfl := eq_of_beq heq
      simp
    · rfl

/-- A body with its places named. -/
structure Called (image : ClassImage) (body : StoredBody) (tables : BodyTables) (named :
    NamedBody) : Prop where
  sound : named.places.Sound body
  size : named.size = body.size
  maxs : named.maxStack = body.maxStack ∧ named.maxLocals = body.maxLocals
  instructions : List.Forall₂ (fun x y => y = (x.1, x.2.map named.places.nameAt) ∧
    ∀ p ∈ x.2.places, named.places.Calls p) body.instructions.toList named.instructions
  handlers : List.Forall₂ (image.HandlerCalled named.places) body.exceptionTable named.handlers
  vars : List.Forall₂ (image.VariableCalled named.places) tables.vars.toList named.vars
  lines : ∀ offset, (named.lines.getD offset #[]).toList =
    (tables.lines.toList.filter (·.1 == offset)).map Prod.snd
  linesNamed : ∀ x ∈ tables.lines.toList, named.places.Calls x.1
  frames : ∃ pairs, named.frames = Std.HashMap.ofList pairs ∧
    List.Forall₂ (FrameCalled named.places) tables.stackMap pairs
  attributes : named.attributes = tables.attributes.toList

/-- All that a body refers to can be looked up. -/
structure Callable (image : ClassImage) (body : StoredBody) (tables : BodyTables) : Prop where
  targets : ∀ x ∈ body.instructions.toList, ∀ p ∈ x.2.places, body.Admits p
  handlers : ∀ entry ∈ body.exceptionTable, body.Admits entry.start.toNat ∧
    body.Admits entry.stop.toNat ∧ body.Admits entry.handler.toNat ∧
    ∃ catchType, image.cls? entry.catchType = .ok catchType
  lines : ∀ x ∈ tables.lines.toList, body.Admits x.1
  vars : ∀ v ∈ tables.vars.toList, body.Admits v.start ∧ body.Admits v.stop ∧
    (∃ name, image.utf8 v.name = .ok name) ∧ ∃ descriptor, image.utf8 v.descriptor = .ok descriptor
  frames : ∀ frame ∈ tables.stackMap, body.Starts frame.offset ∧ frame.offset < body.size ∧
    ∀ p, .uninitialized p ∈ frame.layout.locals ++ frame.layout.stack → body.Admits p

theorem Callable.called (h : Callable image body tables) (hordered : body.Ordered) :
    ∃ named s, image.nameBody body tables Places.empty = .ok named s ∧
      Called image body tables named := by
  have hinstructions : Calling body (body.instructions.toList.mapM fun x => do
      return (x.1, ← x.2.mapM (namePlace body))) _ := Calling.mapM fun x hx =>
    (calling_instruction hordered (h.targets x hx)).map (f := fun j => (x.1, j))
  have hhandlers : Calling body (body.exceptionTable.mapM (image.nameHandler body)) _ :=
    Calling.mapM fun entry hentry =>
      let ⟨hstart, hstop, hhandler, _, hcatch⟩ := h.handlers entry hentry
      calling_handler hordered hstart hstop hhandler hcatch
  have hlines : Calling body (tables.lines.toList.mapM fun x => namePlace body x.1) _ :=
    Calling.mapM fun x hx => calling_namePlace hordered (h.lines x hx)
  have hvars : Calling body (tables.vars.toList.mapM (image.nameVariable body)) _ :=
    Calling.mapM fun v hv =>
      let ⟨hstart, hstop, ⟨_, hname⟩, _, hdescriptor⟩ := h.vars v hv
      calling_variable hordered hstart hstop hname hdescriptor
  have hframes := Calling.mapM fun frame hframe =>
    let ⟨hstarts, hsize, htypes⟩ := h.frames frame hframe
    calling_frame hordered hstarts hsize htypes
  obtain ⟨instructions, s₁, h₁, hs₁, -, hgood₁⟩ := hinstructions _ (Places.sound_empty body)
  obtain ⟨handlers, s₂, h₂, hs₂, he₂, hgood₂⟩ := hhandlers s₁ hs₁
  obtain ⟨starts, s₃, h₃, hs₃, he₃, hgood₃⟩ := hlines s₂ hs₂
  obtain ⟨vars, s₄, h₄, hs₄, he₄, hgood₄⟩ := hvars s₃ hs₃
  obtain ⟨frames, s, h₅, hs, he₅, hgood₅⟩ := hframes s₄ hs₄
  have hextends₃ : s₃.Extends s := he₄.trans he₅
  refine ⟨_, s, Step.bind_ok.2 ⟨instructions, s₁, h₁, Step.bind_ok.2 ⟨handlers, s₂, h₂,
    Step.bind_ok.2 ⟨starts, s₃, h₃, Step.bind_ok.2 ⟨vars, s₄, h₄, Step.bind_ok.2 ⟨frames, s, h₅,
      Step.bind_ok.2 ⟨s, s, rfl, rfl⟩⟩⟩⟩⟩⟩, hs, rfl, ⟨rfl, rfl⟩, ?_,
    hgood₂ s (he₃.trans hextends₃), hgood₄ s he₅, ?_, ?_, ⟨frames, rfl, hgood₅ s (.refl s)⟩, rfl⟩
  · refine (hgood₁ s (he₂.trans (he₃.trans hextends₃))).imp fun x y hxy => ?_
    obtain ⟨_, ⟨rfl, hcalls⟩, rfl⟩ := hxy
    exact ⟨rfl, hcalls⟩
  · intro offset
    rw [← Array.foldl_toList]
    refine (getD_foldl_lines tables.lines.toList ∅ offset).trans ?_
    simp
  · intro x hx
    obtain ⟨label, -, hlabel⟩ := exists_of_forall₂ (hgood₃ s hextends₃).flip hx
    exact Places.calls_iff.2 ⟨label, hlabel⟩

end ClassImage

end JvmClass
