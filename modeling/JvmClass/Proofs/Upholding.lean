import JvmClass.Proofs.Steps

/-!
# Invariants of steps

A step upholds a property of the state if every run from a state that has it ends in one that has
it, with an answer or with an error, and the error is of an expected kind (`Step.Upholds`). Steps
that are put together from such steps uphold the property too.
-/

namespace JvmClass

/-- A computation fails with errors of a kind only. -/
def FailsOnly {ε α : Type} (E : ε → Prop) (x : Except ε α) : Prop := ∀ e, x = .error e → E e

namespace FailsOnly

variable {ε α β : Type} {E : ε → Prop} {x : Except ε α} {k : α → Except ε β}

theorem ok (a : α) : FailsOnly E (.ok a : Except ε α) := fun _ h => nomatch h

theorem error {e : ε} (h : E e) : FailsOnly E (.error e : Except ε α) := by
  intro e' he
  cases he
  exact h

theorem bind (h : FailsOnly E x) (hk : ∀ a, FailsOnly E (k a)) : FailsOnly E (x >>= k) := by
  intro e he
  cases x with
  | error e' =>
    cases he
    exact h e rfl
  | ok a => exact hk a e he

theorem map (h : FailsOnly E x) (f : α → β) : FailsOnly E (x.map f) := by
  intro e he
  cases x with
  | error e' =>
    cases he
    exact h e rfl
  | ok a => cases he

theorem ite {c : Prop} [Decidable c] {y : Except ε α} (h : FailsOnly E x) (h' : FailsOnly E y) :
    FailsOnly E (if c then x else y) := by
  split
  · exact h
  · exact h'

/-- A computation behind a check. -/
theorem guard {c : Prop} [Decidable c] {e : ε} {k : PUnit → Except ε α} (he : E e)
    (h : FailsOnly E (k ())) :
    FailsOnly E (if c then (throw e : Except ε PUnit) >>= k else k PUnit.unit) :=
  ite ((error he).bind fun _ => h) h

theorem mapM {γ : Type} {f : γ → Except ε α} (h : ∀ c, FailsOnly E (f c)) (cs : List γ) :
    FailsOnly E (cs.mapM f) := by
  induction cs with
  | nil => exact ok []
  | cons c cs ih =>
    rw [List.mapM_cons]
    exact (h c).bind fun _ => ih.bind fun _ => ok _

theorem filterM {γ : Type} {f : γ → Except ε Bool} (h : ∀ c, FailsOnly E (f c)) (cs : List γ) :
    FailsOnly E (cs.filterM f) := by
  have haux : ∀ kept, FailsOnly E (cs.filterAuxM f kept) := by
    induction cs with
    | nil => exact ok
    | cons c cs ih => exact fun kept => (h c).bind fun _ => ih _
  exact (haux []).bind fun _ => ok _

end FailsOnly

namespace Step

variable {ε σ α β : Type} {P : σ → Prop} {E : ε → Prop}

/-- Where one step follows another, the first one fails, or it succeeds and the second one fails. -/
theorem bind_error {m : EStateM ε σ α} {k : α → EStateM ε σ β} {s s' : σ} {e : ε} :
    (m >>= k) s = .error e s' ↔
      m s = .error e s' ∨ ∃ a t, m s = .ok a t ∧ k a t = .error e s' := by
  show EStateM.bind m k s = _ ↔ _
  unfold EStateM.bind
  cases m s with
  | ok a t =>
    refine ⟨fun h => Or.inr ⟨a, t, rfl, h⟩, ?_⟩
    rintro (h | ⟨_, _, h, hk⟩)
    · cases h
    · cases h
      exact hk
  | error e' t =>
    constructor
    · intro h
      cases h
      exact Or.inl rfl
    · rintro (h | ⟨_, _, h, -⟩) <;> cases h
      rfl

/-- A run has ended in a state with a property, and if it has failed, with an error of a kind. -/
def EndsIn (P : σ → Prop) (E : ε → Prop) : EStateM.Result ε σ α → Prop
  | .ok _ s => P s
  | .error e s => P s ∧ E e

/-- A step keeps a property of the state and fails with errors of a kind only. -/
def Upholds (P : σ → Prop) (E : ε → Prop) (m : EStateM ε σ α) : Prop := ∀ s, P s → EndsIn P E (m s)

/-- The state that a run ends in, with an answer or with an error. -/
def left : EStateM.Result ε σ α → σ
  | .ok _ s => s
  | .error _ s => s

theorem EndsIn.left {r : EStateM.Result ε σ α} (h : EndsIn P E r) : P (left r) := by
  cases r with
  | ok a s => exact h
  | error e s => exact h.1

theorem EndsIn.bind {m : EStateM ε σ α} {k : α → EStateM ε σ β} {s : σ} (h : EndsIn P E (m s))
    (hk : ∀ a t, m s = .ok a t → P t → EndsIn P E (k a t)) : EndsIn P E ((m >>= k) s) := by
  show EndsIn P E (EStateM.bind m k s)
  unfold EStateM.bind
  split
  · rename_i a t hm
    rw [hm] at h
    exact hk a t hm h
  · rename_i e t hm
    rw [hm] at h
    exact h

variable {m : EStateM ε σ α} {k : α → EStateM ε σ β}

theorem Upholds.ok (h : Upholds P E m) {s s' : σ} {a : α} (hs : P s) (hm : m s = .ok a s') :
    P s' := by
  have := h s hs
  rwa [hm] at this

theorem Upholds.mono {E' : ε → Prop} (h : Upholds P E m) (hE : ∀ e, E e → E' e) :
    Upholds P E' m := by
  intro s hs
  have := h s hs
  cases hm : m s with
  | ok a t => rwa [hm] at this
  | error e t =>
    rw [hm] at this
    exact ⟨this.1, hE e this.2⟩

theorem Upholds.bind (h : Upholds P E m) (hk : ∀ a, Upholds P E (k a)) : Upholds P E (m >>= k) :=
  fun s hs => (h s hs).bind fun a t _ ht => hk a t ht

theorem upholds_pure (a : α) : Upholds P E (pure a : EStateM ε σ α) := fun _ hs => hs

theorem upholds_throw {e : ε} (h : E e) : Upholds P E (throw e : EStateM ε σ α) :=
  fun _ hs => ⟨hs, h⟩

theorem upholds_of {E : ClassError → Prop} {x : Except ClassError α} (h : FailsOnly E x) :
    Upholds P E (of x) := by
  cases x with
  | ok a => exact upholds_pure a
  | error e => exact upholds_throw (h e rfl)

theorem upholds_get : Upholds P E (get : EStateM ε σ σ) := fun _ hs => hs

theorem upholds_set {t : σ} (h : P t) : Upholds P E (set t : EStateM ε σ PUnit) := fun _ _ => h

theorem upholds_modify {f : σ → σ} (h : ∀ s, P s → P (f s)) :
    Upholds P E (modify f : EStateM ε σ PUnit) := fun s hs => h s hs

theorem Upholds.ite {c : Prop} [Decidable c] {m' : EStateM ε σ α} (h : Upholds P E m)
    (h' : Upholds P E m') : Upholds P E (if c then m else m') := by
  split
  · exact h
  · exact h'

/-- A step behind a check. -/
theorem Upholds.guard {c : Prop} [Decidable c] {e : ε} {k : PUnit → EStateM ε σ α} (he : E e)
    (h : Upholds P E (k ())) :
    Upholds P E (if c then (throw e : EStateM ε σ PUnit) >>= k else k PUnit.unit) :=
  ((upholds_throw he).bind fun _ => h).ite h

/-- A step that is only made under a condition. -/
theorem Upholds.when {c : Prop} [Decidable c] {m : EStateM ε σ PUnit} {k : PUnit → EStateM ε σ α}
    (h : Upholds P E m) (hk : Upholds P E (k ())) :
    Upholds P E (if c then m >>= k else k PUnit.unit) :=
  (h.bind fun _ => hk).ite hk

theorem Upholds.mapM {γ : Type} {f : γ → EStateM ε σ α} (h : ∀ c, Upholds P E (f c))
    (cs : List γ) : Upholds P E (cs.mapM f) := by
  induction cs with
  | nil =>
    rw [List.mapM_nil]
    exact upholds_pure _
  | cons c cs ih =>
    rw [List.mapM_cons]
    exact (h c).bind fun _ => ih.bind fun _ => upholds_pure _

section Parts

variable {σ τ : Type} {P : σ → Prop} {E : ClassError → Prop} [Inhabited τ] {part : σ → τ}
  {replace : σ → τ → σ} {m : Step τ α}

/-- A step on a part of the state. -/
theorem EndsIn.on {Q : τ → Prop} {s : σ} (h : EndsIn Q E (m (part s)))
    (hP : ∀ t, Q t → P (replace (replace s default) t)) : EndsIn P E (on part replace m s) := by
  unfold Step.on
  simp only
  split
  · rename_i a t ht
    rw [ht] at h
    exact hP t h
  · rename_i e t ht
    rw [ht] at h
    exact ⟨hP t h.1, h.2⟩

/-- A part of the state that does not matter. -/
theorem upholds_on (hm : Upholds (fun _ => True) E m)
    (hP : ∀ s t, P s → P (replace (replace s default) t)) : Upholds P E (on part replace m) :=
  fun s hs => (hm (part s) trivial).on fun t _ => hP s t hs

end Parts

end Step

end JvmClass
