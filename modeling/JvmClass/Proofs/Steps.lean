import JvmClass.Error

/-!
# Outcomes of steps

A step that is put together from others succeeds exactly if they do, one after another. These lemmas
take a success apart, so that a success of an event is a chain of states with the success of a
primitive step between each two.
-/

namespace JvmClass.Step

section Outcomes

variable {ε σ α β : Type} {a a' : α} {b : β} {s s' : σ} {m : EStateM ε σ α} {k : α → EStateM ε σ β}

theorem bind_ok : (m >>= k) s = .ok b s' ↔ ∃ a t, m s = .ok a t ∧ k a t = .ok b s' := by
  show EStateM.bind m k s = _ ↔ _
  unfold EStateM.bind
  constructor
  · intro h
    split at h
    · rename_i a t hm
      exact ⟨a, t, hm, h⟩
    · cases h
  · rintro ⟨a, t, hm, hk⟩
    rw [hm]
    exact hk

theorem get_run (s : σ) : (get : EStateM ε σ σ) s = .ok s s := rfl

theorem set_run (s t : σ) : (set t : EStateM ε σ PUnit) s = .ok PUnit.unit t := rfl

theorem modify_run (f : σ → σ) (s : σ) :
    (modify f : EStateM ε σ PUnit) s = .ok PUnit.unit (f s) := rfl

theorem pure_ok : (pure a : EStateM ε σ α) s = .ok a' s' ↔ a = a' ∧ s = s' := by
  show EStateM.Result.ok a s = _ ↔ _
  simp

theorem throw_ok {e : ε} : (throw e : EStateM ε σ α) s = .ok a s' ↔ False := by
  show EStateM.Result.error e s = _ ↔ _
  simp

theorem get_ok {t : σ} : (get : EStateM ε σ σ) s = .ok t s' ↔ s = t ∧ s = s' := by
  rw [get_run]
  simp

theorem set_ok {t : σ} {u : PUnit} : (set t : EStateM ε σ PUnit) s = .ok u s' ↔ s' = t := by
  rw [set_run]
  simp only [EStateM.Result.ok.injEq, true_and]
  exact eq_comm

theorem modify_ok {f : σ → σ} {u : PUnit} :
    (modify f : EStateM ε σ PUnit) s = .ok u s' ↔ s' = f s := by
  rw [modify_run]
  simp only [EStateM.Result.ok.injEq, true_and]
  exact eq_comm

/-- A step with a check before it succeeds exactly if the check does not fire and the step does. -/
theorem guard_ok {c : Prop} [Decidable c] {e : ε} {k : PUnit → EStateM ε σ α} :
    (if c then (throw e : EStateM ε σ PUnit) >>= k else k PUnit.unit) s = .ok a s' ↔
      ¬ c ∧ k PUnit.unit s = .ok a s' := by
  split
  · rename_i hc
    rw [bind_ok]
    simp [throw_ok, hc]
  · rename_i hc
    simp [hc]

/-- A failure is passed on, and a value is what the rest goes on from. -/
theorem except_bind_ok {x : Except ε α} {k : α → Except ε β} :
    (x >>= k) = .ok b ↔ ∃ a, x = .ok a ∧ k a = .ok b := by
  cases x with
  | error e => simp [bind, Except.bind]
  | ok a => simp [bind, Except.bind]

end Outcomes

variable {σ τ α : Type} {a : α} {s s' : σ}

theorem of_ok {x : Except ClassError α} : (of x : Step σ α) s = .ok a s' ↔ x = .ok a ∧ s = s' := by
  cases x with
  | ok b =>
    show EStateM.Result.ok b s = _ ↔ _
    simp
  | error e =>
    show EStateM.Result.error e s = _ ↔ _
    simp

theorem on_ok [Inhabited τ] {part : σ → τ} {replace : σ → τ → σ} {m : Step τ α} :
    on part replace m s = .ok a s' ↔
      ∃ t, m (part s) = .ok a t ∧ s' = replace (replace s default) t := by
  unfold on
  constructor
  · intro h
    simp only at h
    split at h
    · rename_i b t hm
      cases h
      exact ⟨t, hm, rfl⟩
    · cases h
  · rintro ⟨t, hm, rfl⟩
    simp only [hm]

end JvmClass.Step
