import JvmClass.Proofs.Constant.Denotations

/-!
# Requests with good answers

A structure is stored by requests whose answers go into its bytes. `ConstantPool.Gives` says that a
request may be put again (`ConstantPool.Stable`) and that its answers are good for every image of
the pool that it leaves behind, which is what a read of those bytes needs to know.
-/

namespace JvmClass.ConstantPool

/-- A request that may be put again, with answers that are good for every image of the pool. -/
structure Gives {α : Type} (request : Request α) (good : ClassImage → α → Prop) : Prop where
  stable : Stable request
  answer : ∀ {p a p' image}, request p = .ok a p' → image.Holds p' → good image a

variable {α β : Type} {request : Request α} {k : α → Request β} {good good' : ClassImage → α → Prop}

theorem gives_of_denotes {γ : Type} {look : ClassImage → α → Except ClassError γ} {c : γ}
    (hr : Stable request) (hd : ClassImage.Denotes request look c) :
    Gives request fun image a => look image a = .ok c :=
  ⟨hr, fun h hi => hd h hi⟩

theorem gives_pure (a : α) : Gives (pure a) fun _ b => b = a :=
  ⟨stable_pure a, fun h _ => (Step.pure_ok.1 h).1.symm⟩

theorem gives_throw (e : ClassError) : Gives (throw e : Request α) good :=
  ⟨stable_throw e, fun h _ => (Step.throw_ok.1 h).elim⟩

theorem gives_of (x : Except ClassError α) : Gives (Step.of x) fun _ a => x = .ok a :=
  ⟨stable_of x, fun h _ => (Step.of_ok.1 h).1⟩

theorem Gives.mono (h : Gives request good) (hgood : ∀ image a, good image a → good' image a) :
    Gives request good' :=
  ⟨h.stable, fun ha hi => hgood _ _ (h.answer ha hi)⟩

/-- Requests that are put one after another. -/
theorem Gives.bind {good' : α → ClassImage → β → Prop} (h : Gives request good)
    (hk : ∀ a, Gives (k a) (good' a)) :
    Gives (request >>= k) fun image b => ∃ a, good image a ∧ good' a image b := by
  refine ⟨h.stable.bind fun a => (hk a).stable, fun {p b p' image} hb hi => ?_⟩
  obtain ⟨a, mid, ha, hb⟩ := Step.bind_ok.1 hb
  have hgrows := ((hk a).stable mid b p' hb).1.grows
  exact ⟨a, h.answer ha (hi.of_grows hgrows), (hk a).answer hb hi⟩

theorem Gives.map {f : α → β} (h : Gives request good) :
    Gives (do return f (← request)) fun image b => ∃ a, good image a ∧ b = f a :=
  h.bind fun a => gives_pure (f a)

theorem Gives.fmap {f : α → β} (h : Gives request good) :
    Gives (f <$> request) fun image b => ∃ a, good image a ∧ b = f a := h.map

theorem gives_ite {c : Prop} [Decidable c] {request' : Request α}
    (h : c → Gives request good) (h' : ¬ c → Gives request' good) :
    Gives (if c then request else request') good := by
  split
  · exact h ‹_›
  · exact h' ‹_›

/-- The same request for each of some things, in order. -/
theorem gives_mapM {f : α → Request β} {good : α → ClassImage → β → Prop}
    (h : ∀ a, Gives (f a) (good a)) (items : List α) :
    Gives (items.mapM f) fun image bs => List.Forall₂ (fun a b => good a image b) items bs := by
  induction items with
  | nil =>
    rw [List.mapM_nil]
    exact (gives_pure []).mono fun image bs hb => hb ▸ .nil
  | cons a rest ih =>
    rw [List.mapM_cons]
    refine ((h a).bind fun b => ih.bind fun bs => gives_pure (b :: bs)).mono ?_
    rintro image _ ⟨b, hb, bs, hbs, rfl⟩
    exact .cons hb hbs

theorem gives_utf8 (text : String) :
    Gives (utf8 text) fun image i => image.utf8 i = .ok text :=
  gives_of_denotes (stable_utf8 text) (ClassImage.utf8_back text)

theorem gives_cls (name : String) : Gives (cls name) fun image i => image.cls i = .ok name :=
  gives_of_denotes (stable_cls name) (ClassImage.cls_back name)

theorem gives_nameAndType (name descriptor : String) :
    Gives (nameAndType name descriptor) fun image i =>
      image.nameAndType i = .ok (name, descriptor) :=
  gives_of_denotes (stable_nameAndType name descriptor)
    (ClassImage.nameAndType_back name descriptor)

end JvmClass.ConstantPool
