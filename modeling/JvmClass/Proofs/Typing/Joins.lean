import JvmClass.Proofs.Typing.Ancestors
import JvmClass.Typing.Join

/-!
# Laws of joins

A join climbs: it covers what was joined in, and later joins do not lose that (`Hierarchy.Lawful`).
Every table of superclasses has these laws, cyclic ones included, and they carry over from classes
to array types, to verification types and to local variables.

The joins of caught exceptions stop at `ClassName.throwable` where others go on to the root, so that
a stack entry which is reached by both kinds can be moved back and forth. That is confined to
entries above `ClassName.throwable`: `Holds` says that an entry covers a type, or is such an entry.
-/

namespace JvmClass

namespace Hierarchy

/-- What joins need of a hierarchy. A hierarchy whose answers are most specific common superclasses
has these laws. -/
structure Lawful (h : Hierarchy) : Prop where
  self : ∀ a, h.commonSuper a a = a
  root : ∀ a, h.commonSuper ClassName.object a = ClassName.object
  /-- The join covers the second class. -/
  absorbs : ∀ a b, h.commonSuper (h.commonSuper a b) b = h.commonSuper a b
  /-- A class that covers another still does so after a join. -/
  climbs : ∀ {a b}, h.commonSuper a b = a → ∀ c,
    h.commonSuper (h.commonSuper a c) b = h.commonSuper a c

/-- The only superclass of `ClassName.throwable` is the root. -/
def ThrowableBelowRoot (h : Hierarchy) : Prop :=
  ∀ c, h.commonSuper c ClassName.throwable = c → c = ClassName.throwable ∨ c = ClassName.object

theorem commonSuper_caught (h : Hierarchy) (a b : ClassName) :
    h.caught.commonSuper a b =
      if h.commonSuper a b = ClassName.object then ClassName.throwable else h.commonSuper a b := rfl

end Hierarchy

/-- A table of superclasses is lawful whatever it records. -/
theorem Superclasses.lawful (s : Superclasses) : s.hierarchy.Lawful where
  self a := commonSuper_eq_left_iff.2 (self_mem_ancestors s a)
  root a := commonSuper_eq_left_iff.2 (root_mem_ancestors s a)
  absorbs a b := commonSuper_eq_left_iff.2 (commonSuper_spec s a b).2
  climbs {a b} hab c := by
    have hmem := commonSuper_eq_left_iff.1 hab
    by_cases ha : a = ClassName.object
    · have : s.commonSuper a c = a := commonSuper_eq_left_iff.2 (ha ▸ root_mem_ancestors s c)
      change s.commonSuper (s.commonSuper a c) b = s.commonSuper a c
      rw [this]
      exact hab
    · exact commonSuper_eq_left_iff.2
        (mem_ancestors_trans (commonSuper_spec s a c).1 hmem ha)

/-- The hierarchy that knows nothing is the one of the empty table. -/
theorem Superclasses.hierarchy_empty : Superclasses.empty.hierarchy = Hierarchy.flat := by
  unfold hierarchy Hierarchy.flat
  congr 1
  funext a b
  have hanc : ∀ c x, x ∈ Superclasses.empty.ancestors c → x = c ∨ x = ClassName.object := by
    intro c x hx
    rcases mem_ancestors_iff.1 hx with h | h
    · rcases Relation.ReflTransGen.cases_head h with rfl | ⟨y, hy, _⟩
      · exact Or.inl rfl
      · exact absurd (mem_parents_of_extends hy) Std.HashMap.not_mem_empty
    · exact Or.inr h
  obtain ⟨h1, h2⟩ := commonSuper_spec Superclasses.empty a b
  split
  · rename_i hab
    subst hab
    exact commonSuper_eq_left_iff.2 (self_mem_ancestors _ a)
  · rename_i hab
    rcases hanc _ _ h1 with h | h
    · rcases hanc _ _ h2 with h' | h'
      · exact absurd (h.symm.trans h') hab
      · exact h'
    · exact h

theorem Hierarchy.flat_lawful : Hierarchy.flat.Lawful :=
  Superclasses.hierarchy_empty ▸ Superclasses.empty.lawful

section Reference

variable {h : Hierarchy} (hl : h.Lawful)
include hl

theorem RefType.join_self (r : RefType) : r.join h r = r := by
  cases r <;> simp [RefType.join, hl.self]

theorem RefType.join_root (r : RefType) :
    (RefType.object ClassName.object).join h r = .object ClassName.object := by
  cases r <;> simp [RefType.join, hl.root]

theorem RefType.join_absorbs (r t : RefType) : (r.join h t).join h t = r.join h t := by
  cases r with
  | object a =>
    cases t with
    | object b => simp [RefType.join, hl.absorbs]
    | objectArray n b => simp [RefType.join]
    | primitiveArray n b => simp [RefType.join]
  | objectArray m a =>
    cases t with
    | object b => simp [RefType.join, hl.root]
    | objectArray n b =>
      by_cases hmn : m = n
      · simp [RefType.join, hmn, hl.absorbs]
      · simp [RefType.join, hmn]
    | primitiveArray n b => simp [RefType.join]
  | primitiveArray m a =>
    by_cases he : RefType.primitiveArray m a = t
    · subst he
      rw [join_self hl, join_self hl]
    · have : (RefType.primitiveArray m a).join h t = .object ClassName.object := by
        cases t <;> simp_all [RefType.join]
      rw [this, join_root hl]

theorem RefType.join_climbs {r t : RefType} (hr : r.join h t = r) (u : RefType) :
    (r.join h u).join h t = r.join h u := by
  cases r with
  | object a =>
    cases u with
    | object c =>
      cases t with
      | object b =>
        simp only [RefType.join, RefType.object.injEq] at hr ⊢
        exact hl.climbs hr c
      | objectArray n b =>
        simp only [RefType.join, reduceCtorEq, if_false, RefType.object.injEq] at hr ⊢
        rw [← hr, hl.root]
      | primitiveArray n b =>
        simp only [RefType.join, reduceCtorEq, if_false, RefType.object.injEq] at hr ⊢
        rw [← hr, hl.root]
    | objectArray n c =>
      simp only [RefType.join, reduceCtorEq, if_false]
      exact join_root hl t
    | primitiveArray n c =>
      simp only [RefType.join, reduceCtorEq, if_false]
      exact join_root hl t
  | objectArray m a =>
    by_cases hu : ∃ c, u = .objectArray m c
    · obtain ⟨c, rfl⟩ := hu
      cases t with
      | objectArray n b =>
        by_cases hmn : m = n
        · subst hmn
          simp only [RefType.join, if_true, RefType.objectArray.injEq, true_and] at hr ⊢
          exact hl.climbs hr c
        · simp [RefType.join, hmn] at hr
      | object b => simp [RefType.join] at hr
      | primitiveArray n b => simp [RefType.join] at hr
    · have : (RefType.objectArray m a).join h u = .object ClassName.object := by
        cases u with
        | objectArray n c =>
          have hmn : m ≠ n := fun he => hu ⟨c, he ▸ rfl⟩
          simp [RefType.join, hmn]
        | object c => simp [RefType.join]
        | primitiveArray n c => simp [RefType.join]
      rw [this]
      exact join_root hl t
  | primitiveArray m a =>
    by_cases he : RefType.primitiveArray m a = u
    · subst he
      rw [join_self hl]
      exact hr
    · have : (RefType.primitiveArray m a).join h u = .object ClassName.object := by
        cases u <;> simp_all [RefType.join]
      rw [this]
      exact join_root hl t

end Reference

namespace VType

variable {h : Hierarchy}

theorem join_self (h : Hierarchy) (a : VType) : a.join h a = some a := by simp [join]

theorem join_object (hl : h.Lawful) (r t : RefType) :
    (VType.join h (.object r) (.object t)) = some (.object (r.join h t)) := by
  by_cases hrt : r = t
  · subst hrt
    rw [join_self, RefType.join_self hl]
  · simp [join, hrt]

/-- A join is one of equal types, or of references one of which may be null. -/
theorem join_cases {a b c : VType} (hj : a.join h b = some c) :
    (a = b ∧ c = a) ∨ (a = .null ∧ (∃ t, b = .object t) ∧ c = b) ∨
      ((∃ r, a = .object r) ∧ b = .null ∧ c = a) ∨
      ∃ r t, r ≠ t ∧ a = .object r ∧ b = .object t ∧ c = .object (r.join h t) := by
  unfold join at hj
  split at hj
  · rename_i hab
    exact Or.inl ⟨hab, (Option.some.inj hj).symm⟩
  · rename_i hab
    split at hj
    · exact Or.inr (Or.inl ⟨rfl, ⟨_, rfl⟩, (Option.some.inj hj).symm⟩)
    · exact Or.inr (Or.inr (Or.inl ⟨⟨_, rfl⟩, rfl, (Option.some.inj hj).symm⟩))
    · refine Or.inr (Or.inr (Or.inr ⟨_, _, ?_, rfl, rfl, (Option.some.inj hj).symm⟩))
      intro he
      exact hab (he ▸ rfl)
    · cases hj

/-- The join covers what was joined in. -/
theorem join_absorbs (hl : h.Lawful) {a b c : VType} (hj : a.join h b = some c) :
    c.join h b = some c := by
  rcases join_cases hj with ⟨rfl, rfl⟩ | ⟨rfl, -, rfl⟩ | ⟨⟨r, rfl⟩, rfl, rfl⟩ |
    ⟨r, t, -, rfl, rfl, rfl⟩
  · exact join_self h _
  · exact join_self h _
  · exact hj
  · rw [join_object hl, RefType.join_absorbs hl]

/-- What a type covers stays covered after a join. -/
theorem join_climbs (hl : h.Lawful) {a b c d : VType} (hab : a.join h b = some a)
    (hac : a.join h c = some d) : d.join h b = some d := by
  rcases join_cases hac with ⟨rfl, rfl⟩ | ⟨rfl, ⟨u, rfl⟩, rfl⟩ | ⟨⟨r, rfl⟩, rfl, rfl⟩ |
    ⟨r, u, -, rfl, rfl, rfl⟩
  · exact hab
  · -- Null covers null alone, which every object type covers.
    rcases join_cases hab with ⟨rfl, -⟩ | ⟨-, ⟨t, rfl⟩, he⟩ | ⟨⟨r, he⟩, -⟩ | ⟨r, t, -, he, -⟩
    · rfl
    · cases he
    · cases he
    · cases he
  · exact hab
  · rcases join_cases hab with ⟨rfl, -⟩ | ⟨he, -⟩ | ⟨-, rfl, -⟩ | ⟨r', t, -, he, rfl, he'⟩
    · rw [join_object hl, RefType.join_climbs hl (RefType.join_self hl r)]
    · cases he
    · rfl
    · cases he
      simp only [VerificationType.object.injEq] at he'
      rw [join_object hl, RefType.join_climbs hl he'.symm]

@[simp] theorem meet_top (h : Hierarchy) (a : VType) : VType.meet h .top a = .top := by
  unfold meet join
  split <;> rfl

/-- The meet of two locals covers the second. -/
theorem meet_absorbs (hl : h.Lawful) (a b : VType) : (a.meet h b).meet h b = a.meet h b := by
  cases hj : a.join h b with
  | none =>
    have hc : a.meet h b = .top := by rw [meet, hj]; rfl
    rw [hc, meet_top]
  | some c =>
    have hc : a.meet h b = c := by rw [meet, hj]; rfl
    rw [hc, meet, join_absorbs hl hj]
    rfl

/-- What a local covers stays covered after a meet. -/
theorem meet_climbs (hl : h.Lawful) {a b : VType} (hab : a.meet h b = a) (c : VType) :
    (a.meet h c).meet h b = a.meet h c := by
  by_cases htop : a = .top
  · subst htop
    simp
  · have hj : a.join h b = some a := by
      cases hj : a.join h b with
      | none => rw [meet, hj] at hab; exact absurd hab.symm htop
      | some d => rw [meet, hj] at hab; exact congrArg some hab
    cases hc : a.join h c with
    | none =>
      have hd : a.meet h c = .top := by rw [meet, hc]; rfl
      rw [hd, meet_top]
    | some d =>
      have hd : a.meet h c = d := by rw [meet, hc]; rfl
      rw [hd, meet, join_climbs hl hj hc]
      rfl

/-- A type that covers itself and another only as `top` or as that other. -/
theorem meet_eq_left_of_uninitialized {a b : VType} (hb : ∀ t, b ≠ .object t) (hn : b ≠ .null)
    (hab : a.meet h b = a) : a = b ∨ a = .top := by
  by_cases htop : a = .top
  · exact Or.inr htop
  · left
    unfold meet at hab
    cases hj : a.join h b with
    | none => rw [hj] at hab; exact absurd hab.symm htop
    | some c =>
      rcases join_cases hj with ⟨he, -⟩ | ⟨-, ⟨t, he⟩, -⟩ | ⟨-, he, -⟩ | ⟨r, t, -, -, he, -⟩
      · exact he
      · exact absurd he (hb t)
      · exact absurd he hn
      · exact absurd he (hb t)

end VType

end JvmClass
