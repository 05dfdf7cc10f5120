import JvmClass.Proofs.Bytes
import JvmClass.Proofs.Typing.Execution
import JvmClass.Proofs.Typing.Merging

/-!
# Where uninitialized objects come from

Only a `new` instruction puts an uninitialized object on the stack. All others move the entries that
they find, or leave types that are initialized, and a merge keeps an entry or gives it up. So the
uninitialized objects of a frame stay among those that `new` instructions have made
(`Frame.From.execute`, `Frame.From.merged`).
-/

namespace JvmClass

/-- A type that is no uninitialized object, unless it is one of some allocations. -/
def VType.From (A : Allocation → Prop) (t : VType) : Prop :=
  ∀ a, t = .uninitialized a → A a

/-- All uninitialized objects in a frame are of some allocations. -/
structure Frame.From (A : Allocation → Prop) (f : Frame) : Prop where
  locals : ∀ slot, (f.local? slot).From A
  stack : ∀ t ∈ f.stack.toList, t.From A

/-- What an effect may leave behind on its own. -/
def Effect.Makes (A : Allocation → Prop) : Effect → Prop
  | .new a => A a
  | .load type => type.From A
  | _ => True

/-- Whether a type is of initialized values. -/
def VType.isInitialized : VType → Bool
  | .uninitialized _ => false
  | _ => true

/-- The type of which a plain instruction leaves a value, whatever it finds. -/
def PlainEffect.left? : PlainEffect → Option VType
  | .push type | .replace _ type => some type
  | _ => none

variable {A : Allocation → Prop}

namespace VType

theorem From.of_ne {t : VType} (h : ∀ a, t ≠ .uninitialized a) : t.From A :=
  fun a ha => absurd ha (h a)

theorem from_top : VType.From A .top := .of_ne nofun

theorem from_object (r : RefType) : VType.From A (.object r) := .of_ne nofun

theorem from_ofField (t : FieldType) : (ofField t).From A := by
  cases t with
  | ref r => exact from_object r
  | base type => cases type <;> exact .of_ne nofun

/-- A join is one of the two types, or an object. -/
theorem From.join {h : Hierarchy} {a b c : VType} (ha : a.From A) (hb : b.From A)
    (hj : a.join h b = some c) : c.From A := by
  rcases join_cases hj with ⟨-, rfl⟩ | ⟨-, -, rfl⟩ | ⟨-, -, rfl⟩ | ⟨r, t, -, -, -, rfl⟩
  · exact ha
  · exact hb
  · exact ha
  · exact from_object _

theorem From.meet {h : Hierarchy} {a b : VType} (ha : a.From A) (hb : b.From A) :
    (a.meet h b).From A := by
  unfold VType.meet
  cases hj : a.join h b with
  | none => exact from_top
  | some c => exact ha.join hb hj

end VType

theorem VType.from_of_isInitialized {t : VType} (h : t.isInitialized = true) : t.From A :=
  .of_ne fun a ha => by
    rw [ha] at h
    cases h

/-- Plain instructions leave initialized values. -/
theorem PlainEffect.isInitialized_of? (op : UInt8) :
    ((of? op).bind left?).all VType.isInitialized = true :=
  Opcode.forall_of_fin (p := fun op => ((of? op).bind left?).all VType.isInitialized = true)
    (by decide +kernel) op

namespace Frame

variable {f g : Frame}

theorem From.pop (h : f.From A) {entry : Nat × VType} {stack : SlotVec VType}
    (hp : f.stack.pop? = some (entry, stack)) :
    ({ f with stack } : Frame).From A ∧ entry.2.From A := by
  have hs := SlotVec.toList_of_pop? hp
  refine ⟨⟨h.locals, fun t ht => h.stack t ?_⟩, h.stack _ ?_⟩
  · rw [hs]
    exact List.mem_append_left _ ht
  · rw [hs]
    exact List.mem_append_right _ List.mem_cons_self

theorem From.push (h : f.From A) {type : VType} (ht : type.From A) : (f.push type).From A where
  locals := h.locals
  stack t hm := by
    rw [Frame.push, SlotVec.toList_push, List.mem_append, List.mem_singleton] at hm
    rcases hm with hm | rfl
    · exact h.stack t hm
    · exact ht

/-- A store changes the slot that it is to, and may make others unusable. -/
theorem local?_setLocal (f : Frame) (slot : Nat) (type : VType) (at' : Nat) :
    (f.setLocal slot type).local? at' = type ∨ (f.setLocal slot type).local? at' = .top ∨
      (f.setLocal slot type).local? at' = f.local? at' := by
  have hset : ∀ (locals : Array VType) (i : Nat) (t : VType),
      (locals.set! i t)[at']?.getD .top = t ∨
        (locals.set! i t)[at']?.getD .top = locals[at']?.getD .top := by
    intro locals i t
    rw [Array.set!_eq_setIfInBounds, Array.getElem?_setIfInBounds]
    split_ifs with h1 h2
    · exact Or.inl rfl
    · subst h1
      rw [Array.getElem?_eq_none (Nat.not_lt.1 h2)]
      exact Or.inr rfl
    · exact Or.inr rfl
  have hextended : (extended f.locals slot type)[at']?.getD .top = f.local? at' := by
    unfold extended local?
    by_cases hlt : at' < f.locals.size
    · rw [Array.getElem?_append_left hlt]
    · rw [Array.getElem?_append_right (by omega), Array.getElem?_replicate,
        Array.getElem?_eq_none (Nat.not_lt.1 hlt)]
      split_ifs <;> rfl
  have hcut : (cutBelow (extended f.locals slot type) slot)[at']?.getD .top = .top ∨
      (cutBelow (extended f.locals slot type) slot)[at']?.getD .top = f.local? at' := by
    cases slot with
    | zero => exact Or.inr hextended
    | succ below =>
      simp only [cutBelow]
      split_ifs
      · rcases hset (extended f.locals (below + 1) type) below .top with h | h
        · exact Or.inl h
        · exact Or.inr (h.trans hextended)
      · exact Or.inr hextended
  unfold local?
  rw [setLocal_locals]
  split_ifs
  · rcases hset ((cutBelow (extended f.locals slot type) slot).set! (slot + 1) .top) slot type
      with h | h
    · exact Or.inl h
    · rw [h]
      rcases hset (cutBelow (extended f.locals slot type) slot) (slot + 1) .top with h' | h'
      · exact Or.inr (Or.inl h')
      · exact Or.inr (h' ▸ hcut)
  · rcases hset (cutBelow (extended f.locals slot type) slot) slot type with h | h
    · exact Or.inl h
    · exact Or.inr (h ▸ hcut)

theorem From.setLocal (h : f.From A) (slot : Nat) {type : VType} (ht : type.From A) :
    (f.setLocal slot type).From A where
  locals at' := by
    rcases local?_setLocal f slot type at' with he | he | he
    · rw [he]
      exact ht
    · rw [he]
      exact VType.from_top
    · rw [he]
      exact h.locals at'
  stack := by
    rw [setLocal_stack]
    exact h.stack

theorem From.handler (h : f.From A) {caught : VType} (hc : caught.From A) :
    (Frame.handler f.locals caught).From A where
  locals := h.locals
  stack t ht := by
    rw [Frame.handler, SlotVec.toList_push, SlotVec.toList_empty, List.nil_append,
      List.mem_singleton] at ht
    exact ht ▸ hc

theorem From.setParameters (h : f.From A) (slot : Nat) (types : List FieldType) :
    (f.setParameters slot types).From A := by
  induction types generalizing f slot with
  | nil => exact h
  | cons type rest ih => exact ih (h.setLocal slot (VType.from_ofField type)) _

theorem Joins.from {h : Hierarchy} {as bs cs : List VType} (hj : Joins h as bs cs)
    (ha : ∀ t ∈ as, t.From A) (hb : ∀ t ∈ bs, t.From A) : ∀ t ∈ cs, t.From A := by
  induction hj with
  | nil => exact ha
  | cons head tail ih =>
    rw [List.forall_mem_cons] at ha hb ⊢
    exact ⟨ha.1.join hb.1 head, ih ha.2 hb.2⟩

/-- A merge keeps entries and locals, or gives them up. -/
theorem From.merged {g h : Hierarchy} {k m : Frame} (hf : f.From A) (hk : k.From A)
    (hm : Merged g h f k m) : m.From A where
  locals slot := by
    rw [hm.local?]
    exact (hf.locals slot).meet (hk.locals slot)
  stack := hm.joins.from hf.stack hk.stack

/-- A constructor call turns an object into an initialized one. -/
theorem From.renamed (h : f.From A) {type other : VType} (ho : other.From A) :
    (f.renamed type other).From A := by
  have hstep : ∀ t : VType, t.From A → VType.From A (if t = type then other else t) := by
    intro t ht
    split_ifs
    · exact ho
    · exact ht
  constructor
  · intro slot
    unfold local? Frame.renamed
    rw [Array.getElem?_map]
    cases hs : f.locals[slot]? with
    | none => exact VType.from_top
    | some t =>
      have := h.locals slot
      rw [local?, hs] at this
      exact hstep t this
  · intro t ht
    simp only [Frame.renamed, SlotVec.toList_map, List.mem_map] at ht
    obtain ⟨t, ht, rfl⟩ := ht
    exact hstep t (h.stack t ht)

end Frame

namespace Simulation

variable {α β : Type} {thisClass : ClassName}

/-- A computation keeps the uninitialized objects of a frame among some allocations, and so do its
answers. -/
def KeepsFrom (A : Allocation → Prop) (R : α → Prop) (m : Simulation α) : Prop :=
  ∀ f a g, f.From A → m f = .ok a g → g.From A ∧ R a

section KeepsFrom

variable {R : α → Prop} {S : β → Prop}

theorem keepsFrom_pure {a : α} (ha : R a) : KeepsFrom A R (pure a) := by
  rintro f b g hf ⟨⟩
  exact ⟨hf, ha⟩

theorem keepsFrom_throw (fault : SimulationFault) : KeepsFrom A R (throw fault) := nofun

theorem KeepsFrom.bind {m : Simulation α} {k : α → Simulation β} (hm : KeepsFrom A R m)
    (hk : ∀ a, R a → KeepsFrom A S (k a)) : KeepsFrom A S (m >>= k) := by
  intro f b g hf h
  obtain ⟨a, mid, h1, h2⟩ := Step.bind_ok.1 h
  obtain ⟨hmid, ha⟩ := hm f a mid hf h1
  exact hk a ha mid b g hmid h2

theorem keepsFrom_modify {change : Frame → Frame} (h : ∀ f, f.From A → (change f).From A) :
    KeepsFrom A (fun _ => True) (modify change : Simulation Unit) := by
  intro f a g hf hm
  cases hm
  exact ⟨h f hf, trivial⟩

theorem keepsFrom_popEntry : KeepsFrom A (VType.From A) popEntry := by
  intro f a g hf h
  unfold popEntry at h
  split at h
  · cases h
  · rename_i hp
    cases h
    exact hf.pop hp

theorem keepsFrom_push {type : VType} (ht : type.From A) :
    KeepsFrom A (fun _ => True) (push type) := keepsFrom_modify fun _ hf => hf.push ht

theorem keepsFrom_dropEntries (entries : Nat) :
    KeepsFrom A (fun _ => True) (dropEntries entries) := by
  induction entries with
  | zero => exact keepsFrom_pure trivial
  | succ n ih => exact keepsFrom_popEntry.bind fun _ _ => ih

theorem keepsFrom_takeSlots {taken : List VType} (ht : ∀ t ∈ taken, t.From A) (remaining : Nat) :
    KeepsFrom A (fun ts => ∀ t ∈ ts, VType.From A t) (takeSlots taken remaining) := by
  intro f a g hf h
  induction remaining using Nat.strongRecOn generalizing taken f with
  | _ remaining ih =>
    unfold takeSlots at h
    split at h
    · cases h
      exact ⟨hf, ht⟩
    · split at h
      · cases h
      · rename_i offset type stack hpop
        split at h
        · cases h
        · obtain ⟨hf', htype⟩ := hf.pop hpop
          have hlt : remaining - type.width < remaining := by
            have := type.width_pos
            omega
          exact ih _ hlt (List.forall_mem_cons.2 ⟨htype, ht⟩) _ hf' h

theorem keepsFrom_popSlots (slots : Nat) :
    KeepsFrom A (fun ts => ∀ t ∈ ts, VType.From A t) (popSlots slots) :=
  keepsFrom_takeSlots (List.forall_mem_nil _) slots

theorem keepsFrom_popGroups (groups : List Nat) :
    KeepsFrom A (fun gs => ∀ ts ∈ gs, ∀ t ∈ ts, VType.From A t) (popGroups groups) := by
  induction groups with
  | nil => exact keepsFrom_pure (List.forall_mem_nil _)
  | cons slots rest ih =>
    exact (keepsFrom_popSlots slots).bind fun group hgroup =>
      ih.bind fun others hothers => keepsFrom_pure (List.forall_mem_cons.2 ⟨hgroup, hothers⟩)

theorem keepsFrom_pushAll {types : List VType} (ht : ∀ t ∈ types, t.From A) :
    KeepsFrom A (fun _ => True) (pushAll types) :=
  keepsFrom_modify fun f hf => ⟨hf.locals, fun t hm => by
    rw [SlotVec.toList_append, List.mem_append] at hm
    exact hm.elim (hf.stack t) (ht t)⟩

theorem keepsFrom_forIn {items : List α} {body : α → Simulation Unit}
    (h : ∀ a, KeepsFrom A (fun _ => True) (body a)) :
    KeepsFrom A (fun _ => True) (forIn items PUnit.unit fun a _ => do
      body a
      pure (ForInStep.yield PUnit.unit)) := by
  induction items with
  | nil =>
    rw [List.forIn_nil]
    exact keepsFrom_pure trivial
  | cons a rest ih =>
    rw [List.forIn_cons]
    refine KeepsFrom.bind (R := fun _ => True)
      ((h a).bind fun _ _ => keepsFrom_pure trivial) fun step _ => ?_
    cases step with
    | done u => exact keepsFrom_pure trivial
    | yield u => exact ih

theorem keepsFrom_plain {effect : PlainEffect}
    (he : ∀ type, effect.left? = some type → type.From A) :
    KeepsFrom A (fun _ => True) (plain effect) := by
  cases effect with
  | nothing => exact keepsFrom_pure trivial
  | push type => exact keepsFrom_push (he type rfl)
  | replace entries type =>
    exact (keepsFrom_dropEntries entries).bind fun _ _ => keepsFrom_push (he type rfl)
  | drop entries => exact keepsFrom_dropEntries entries
  | loadElement =>
    refine keepsFrom_popEntry.bind fun _ _ => keepsFrom_popEntry.bind fun array _ => ?_
    split
    · exact keepsFrom_push (VType.from_of_isInitialized rfl)
    · split
      · exact keepsFrom_push (VType.from_ofField _)
      · exact keepsFrom_throw _
    · exact keepsFrom_throw _
  | shuffle which =>
    refine (keepsFrom_popGroups _).bind fun groups hgroups =>
      (keepsFrom_forIn fun group => keepsFrom_pushAll ?_).bind fun _ _ => keepsFrom_pure trivial
    rw [List.getD_eq_getElem?_getD]
    cases hg : groups[group]? with
    | none => exact List.forall_mem_nil _
    | some taken => exact hgroups taken (List.mem_of_getElem? hg)

theorem keepsFrom_pushReturn (d : MethodDescriptor) :
    KeepsFrom A (fun _ => True) (pushReturn d) := by
  unfold pushReturn
  split
  · exact keepsFrom_pure trivial
  · exact keepsFrom_push (VType.from_ofField _)

theorem keepsFrom_construct (receiver : VType) :
    KeepsFrom A (fun _ => True) (construct receiver thisClass) := by
  cases receiver with
  | uninitializedThis => exact keepsFrom_modify fun f hf => hf.renamed (VType.from_object _)
  | uninitialized allocation => exact keepsFrom_modify fun f hf => hf.renamed (VType.from_object _)
  | _ => exact keepsFrom_pure trivial

/-- Instructions put no other uninitialized objects into a frame than those that they make. -/
theorem keepsFrom_execute {effect : Effect} (he : effect.Makes A) :
    KeepsFrom A (fun _ => True) (execute thisClass effect) := by
  cases effect with
  | plain op =>
    simp only [execute]
    split
    · rename_i h
      refine keepsFrom_plain fun type hleft => VType.from_of_isInitialized ?_
      have hinit := PlainEffect.isInitialized_of? op
      rwa [h, Option.bind_some, hleft] at hinit
    · exact keepsFrom_throw _
  | load type => exact keepsFrom_push he
  | access op slot =>
    simp only [execute]
    split_ifs
    · exact keepsFrom_push (VType.from_of_isInitialized rfl)
    · exact keepsFrom_push (VType.from_of_isInitialized rfl)
    · exact keepsFrom_push (VType.from_of_isInitialized rfl)
    · exact keepsFrom_push (VType.from_of_isInitialized rfl)
    · intro f a g hf h
      obtain ⟨_, _, ⟨rfl, rfl⟩, h⟩ := Step.bind_ok.1 h
      split_ifs at h
      · exact keepsFrom_push (hf.locals slot.toNat) f a g hf h
      · cases h
    · exact keepsFrom_popEntry.bind fun type ht => keepsFrom_modify fun f hf => hf.setLocal _ ht
    · exact keepsFrom_throw _
  | increment slot => exact keepsFrom_modify fun f hf => hf.setLocal _ (VType.from_of_isInitialized rfl)
  | newArray element =>
    exact keepsFrom_popEntry.bind fun _ _ => keepsFrom_push (VType.from_object _)
  | newObjectArray element =>
    exact keepsFrom_popEntry.bind fun _ _ => keepsFrom_push (VType.from_object _)
  | new allocation =>
    refine keepsFrom_push fun a ha => ?_
    cases ha
    exact he
  | checkCast type => exact keepsFrom_popEntry.bind fun _ _ => keepsFrom_push (VType.from_object _)
  | field op type =>
    simp only [execute]
    split_ifs
    · exact keepsFrom_push (VType.from_ofField _)
    · exact (keepsFrom_popSlots _).bind fun _ _ => keepsFrom_pure trivial
    · exact keepsFrom_popEntry.bind fun _ _ => keepsFrom_push (VType.from_ofField _)
    · exact (keepsFrom_popSlots _).bind fun _ _ =>
        keepsFrom_popEntry.bind fun _ _ => keepsFrom_pure trivial
  | invoke op isConstructor d =>
    refine (keepsFrom_popSlots _).bind fun _ _ => ?_
    dsimp only
    split
    · refine keepsFrom_popEntry.bind fun receiver _ => ?_
      split
      · exact (keepsFrom_construct receiver).bind fun _ _ => keepsFrom_pushReturn d
      · exact keepsFrom_pushReturn d
    · exact keepsFrom_pushReturn d
  | invokeDynamic d => exact (keepsFrom_popSlots _).bind fun _ _ => keepsFrom_pushReturn d
  | newMultiArray type dimensions =>
    exact (keepsFrom_popSlots _).bind fun _ _ => keepsFrom_push (VType.from_object _)

end KeepsFrom

end Simulation

theorem Frame.From.execute {f g : Frame} {thisClass : ClassName} {effect : Effect} (hf : f.From A)
    (he : effect.Makes A) (h : f.execute thisClass effect = (none, g)) : g.From A := by
  obtain ⟨u, hrun⟩ := execute_none h
  exact (Simulation.keepsFrom_execute he f u g hf hrun).1

end JvmClass
