import JvmClass.Proofs.Typing.Joins

/-!
# Joins of caught exceptions

A handler's stack holds the exception that it catches. Exceptions join by `Hierarchy.caught`, which
stops at `ClassName.throwable`, while a jump into the handler joins by the plain hierarchy. The two
agree until a join reaches a class above `ClassName.throwable`, and from there on no join of either
kind leaves those classes (`AboveThrowable`). What an entry covers stays covered as long as all
joins are plain, or all join exceptions of classes and nothing stands between `ClassName.throwable`
and the root; otherwise it stays covered or the entry is above `ClassName.throwable` (`Holds`).
-/

namespace JvmClass

variable {h g : Hierarchy}

/-- The two hierarchies by which stack entries are joined. -/
def Hierarchy.JoinsStacks (h g : Hierarchy) : Prop := g = h ∨ g = h.caught

namespace Hierarchy

variable {a b c : ClassName}

/-- A join of either kind stays above `ClassName.throwable`. -/
theorem commonSuper_above (hl : h.Lawful) (hg : h.JoinsStacks g)
    (ha : h.commonSuper a ClassName.throwable = a) (b : ClassName) :
    h.commonSuper (g.commonSuper a b) ClassName.throwable = g.commonSuper a b := by
  rcases hg with rfl | rfl
  · exact hl.climbs ha b
  · rw [commonSuper_caught]
    split
    · exact hl.self _
    · exact hl.climbs ha b

/-- The joins of the two kinds differ only where the plain one reaches the root. -/
theorem commonSuper_agree (hl : h.Lawful) (hg : h.JoinsStacks g) (a b : ClassName) :
    g.commonSuper a b = h.commonSuper a b ∨
      (h.commonSuper (g.commonSuper a b) ClassName.throwable = g.commonSuper a b ∧
        h.commonSuper a b = ClassName.object) := by
  rcases hg with rfl | rfl
  · exact Or.inl rfl
  · rw [commonSuper_caught]
    split
    · exact Or.inr ⟨hl.self _, ‹_›⟩
    · exact Or.inl rfl

/-- The join of the classes of two caught exceptions. -/
def joinCaught (h : Hierarchy) (a b : ClassName) : ClassName :=
  if a = b then a else h.caught.commonSuper a b

/-- Joins with `ClassName.throwable` stay there if nothing but the root is above it. -/
theorem joinCaught_throwable (hl : h.Lawful) (ht : h.ThrowableBelowRoot) (b : ClassName) :
    h.joinCaught ClassName.throwable b = ClassName.throwable := by
  unfold joinCaught
  split
  · rfl
  · rw [commonSuper_caught]
    rcases ht _ (hl.climbs (hl.self ClassName.throwable) b) with he | he
    · rw [he]
      rfl
    · rw [if_pos he]

/-- The class caught is `ClassName.throwable`, or the joins agree. -/
theorem joinCaught_cases (h : Hierarchy) (hab : a ≠ b) :
    h.joinCaught a b = ClassName.throwable ∨
      (h.joinCaught a b = h.commonSuper a b ∧ h.commonSuper a b ≠ ClassName.object) := by
  rw [joinCaught, if_neg hab, commonSuper_caught]
  split
  · exact Or.inl rfl
  · exact Or.inr ⟨rfl, ‹_›⟩

theorem joinCaught_of_commonSuper (he : h.commonSuper a b = a) (ha : a ≠ ClassName.object) :
    h.joinCaught a b = a := by
  unfold joinCaught
  split
  · rfl
  · rw [commonSuper_caught, he, if_neg ha]

theorem joinCaught_absorbs (hl : h.Lawful) (ht : h.ThrowableBelowRoot) (a b : ClassName) :
    h.joinCaught (h.joinCaught a b) b = h.joinCaught a b := by
  by_cases hab : a = b
  · subst hab
    simp [joinCaught]
  · rcases joinCaught_cases h hab with he | ⟨he, hne⟩
    · rw [he, joinCaught_throwable hl ht]
    · rw [he]
      exact joinCaught_of_commonSuper (hl.absorbs a b) hne

theorem joinCaught_climbs (hl : h.Lawful) (ht : h.ThrowableBelowRoot)
    (hab : h.joinCaught a b = a) (c : ClassName) :
    h.joinCaught (h.joinCaught a c) b = h.joinCaught a c := by
  by_cases hac : a = c
  · subst hac
    simpa [joinCaught] using hab
  · rcases joinCaught_cases h hac with he | ⟨he, hne⟩
    · rw [he, joinCaught_throwable hl ht]
    · rw [he]
      by_cases hab' : a = b
      · subst hab'
        exact joinCaught_of_commonSuper (hl.climbs (hl.self a) c) hne
      · rcases joinCaught_cases h hab' with hat | ⟨hb, -⟩
        · -- The entry is `ClassName.throwable`, and only the root is above it.
          have hthrow : a = ClassName.throwable := hab.symm.trans hat
          subst hthrow
          rcases ht _ (hl.climbs (hl.self ClassName.throwable) c) with hc | hc
          · rw [hc, joinCaught_throwable hl ht]
          · exact absurd hc hne
        · exact joinCaught_of_commonSuper (hl.climbs (hb.symm.trans hab) c) hne

end Hierarchy

/-- Instances of a class that `ClassName.throwable` extends, and arrays over such a class. -/
inductive RefType.AboveThrowable (h : Hierarchy) : RefType → Prop where
  | instances {c : ClassName} (hc : h.commonSuper c ClassName.throwable = c) :
      AboveThrowable h (.object c)
  | arrays (extra : Nat) {c : ClassName} (hc : h.commonSuper c ClassName.throwable = c) :
      AboveThrowable h (.objectArray extra c)

namespace RefType

theorem aboveThrowable_root (hl : h.Lawful) : AboveThrowable h (.object ClassName.object) :=
  .instances (hl.root _)

/-- Types above `ClassName.throwable` are not left by a join of either kind. -/
theorem AboveThrowable.join (hl : h.Lawful) (hg : h.JoinsStacks g) {r t : RefType}
    (hr : AboveThrowable h r) : AboveThrowable h (r.join g t) := by
  cases hr with
  | @instances c hc =>
    cases t with
    | object d => exact .instances (Hierarchy.commonSuper_above hl hg hc d)
    | objectArray n d => simpa [RefType.join] using aboveThrowable_root hl
    | primitiveArray n d => simpa [RefType.join] using aboveThrowable_root hl
  | @arrays m c hc =>
    cases t with
    | object d => simpa [RefType.join] using aboveThrowable_root hl
    | objectArray n d =>
      by_cases hmn : m = n
      · simpa [RefType.join, hmn] using .arrays n (Hierarchy.commonSuper_above hl hg hc d)
      · simpa [RefType.join, hmn] using aboveThrowable_root hl
    | primitiveArray n d => simpa [RefType.join] using aboveThrowable_root hl

/-- The joins of the two kinds agree, or one is above `ClassName.throwable` and so is the other. -/
theorem join_agree (hl : h.Lawful) (hg : h.JoinsStacks g) (r t : RefType) :
    r.join g t = r.join h t ∨
      AboveThrowable h (r.join g t) ∧ AboveThrowable h (r.join h t) := by
  cases r with
  | object a =>
    cases t with
    | object b =>
      rcases Hierarchy.commonSuper_agree hl hg a b with he | ⟨he, hroot⟩
      · exact Or.inl (congrArg RefType.object he)
      · exact Or.inr ⟨.instances he, .instances (hroot ▸ hl.root _)⟩
    | objectArray n b => exact Or.inl rfl
    | primitiveArray n b => exact Or.inl rfl
  | objectArray m a =>
    cases t with
    | object b => exact Or.inl rfl
    | objectArray n b =>
      by_cases hmn : m = n
      · simp only [RefType.join, hmn, if_true]
        rcases Hierarchy.commonSuper_agree hl hg a b with he | ⟨he, hroot⟩
        · exact Or.inl (congrArg (RefType.objectArray n) he)
        · exact Or.inr ⟨.arrays n he, .arrays n (hroot ▸ hl.root _)⟩
      · exact Or.inl (by simp [RefType.join, hmn])
    | primitiveArray n b => exact Or.inl rfl
  | primitiveArray m a => exact Or.inl (by cases t <;> rfl)

end RefType

namespace VType

/-- References to instances of a class that `ClassName.throwable` extends, or to arrays over such a
class. -/
def AboveThrowable (h : Hierarchy) (x : VType) : Prop :=
  ∃ r, x = .object r ∧ r.AboveThrowable h

variable {x y t : VType}

theorem AboveThrowable.width_eq (hx : AboveThrowable h x) : x.width = 1 := by
  obtain ⟨r, rfl, -⟩ := hx
  rfl

/-- Types above `ClassName.throwable` are not left by a join of either kind. -/
theorem AboveThrowable.join (hl : h.Lawful) (hg : h.JoinsStacks g) (hx : AboveThrowable h x)
    (hj : x.join g t = some y) : AboveThrowable h y := by
  obtain ⟨r, rfl, hr⟩ := hx
  rcases join_cases hj with ⟨-, rfl⟩ | ⟨he, -⟩ | ⟨-, -, rfl⟩ | ⟨r', u, -, he, -, rfl⟩
  · exact ⟨r, rfl, hr⟩
  · cases he
  · exact ⟨r, rfl, hr⟩
  · cases he
    exact ⟨_, rfl, hr.join hl hg⟩

/-- Whether a join is defined does not depend on the hierarchy, and the joins of the two kinds agree
on what is not above `ClassName.throwable`. -/
theorem join_agree (hl : h.Lawful) (hg : h.JoinsStacks g) (hj : x.join g t = some y) :
    x.join h t = some y ∨
      AboveThrowable h y ∧ ∃ z, x.join h t = some z ∧ AboveThrowable h z := by
  rcases join_cases hj with ⟨rfl, rfl⟩ | ⟨rfl, ⟨u, rfl⟩, rfl⟩ | ⟨⟨r, rfl⟩, rfl, rfl⟩ |
    ⟨r, u, -, rfl, rfl, rfl⟩
  · exact Or.inl (join_self h _)
  · exact Or.inl rfl
  · exact Or.inl rfl
  · rw [join_object hl]
    rcases RefType.join_agree hl hg r u with he | ⟨hy, hz⟩
    · exact Or.inl (by rw [he])
    · exact Or.inr ⟨⟨_, rfl, hy⟩, _, rfl, ⟨_, rfl, hz⟩⟩

/-- A reference joins with every reference that is initialized. -/
theorem join_object_some (g : Hierarchy) (r : RefType) (ht : t = .null ∨ ∃ u, t = .object u) :
    ∃ y, VType.join g (.object r) t = some y := by
  rcases ht with rfl | ⟨u, rfl⟩
  · exact ⟨_, rfl⟩
  · by_cases hru : r = u
    · subst hru
      exact ⟨_, join_self g _⟩
    · exact ⟨.object (r.join g u), by simp [join, hru]⟩

theorem join_some_of_join (g : Hierarchy) (hj : x.join h t = some y) :
    ∃ z, x.join g t = some z := by
  rcases join_cases hj with ⟨rfl, -⟩ | ⟨rfl, ⟨u, rfl⟩, -⟩ | ⟨⟨r, rfl⟩, rfl, -⟩ |
    ⟨r, u, -, rfl, rfl, -⟩
  · exact ⟨_, join_self g _⟩
  · exact ⟨_, rfl⟩
  · exact ⟨_, rfl⟩
  · exact join_object_some g r (Or.inr ⟨u, rfl⟩)

/-- What joins to a reference above `ClassName.throwable` is null or initialized. -/
theorem AboveThrowable.initialized (hy : AboveThrowable h y) (hj : x.join g t = some y) :
    t = .null ∨ ∃ u, t = .object u := by
  obtain ⟨r, rfl, -⟩ := hy
  rcases join_cases hj with ⟨rfl, rfl⟩ | ⟨-, hu, -⟩ | ⟨-, rfl, -⟩ | ⟨-, u, -, -, rfl, -⟩
  · exact Or.inr ⟨r, rfl⟩
  · exact Or.inr hu
  · exact Or.inl rfl
  · exact Or.inr ⟨u, rfl⟩

theorem join_agree_symm (hl : h.Lawful) (hg : h.JoinsStacks g) (hj : x.join h t = some y) :
    x.join g t = some y ∨
      AboveThrowable h y ∧ ∃ z, x.join g t = some z ∧ AboveThrowable h z := by
  obtain ⟨z, hz⟩ := join_some_of_join g hj
  rcases join_agree hl hg hz with he | ⟨ha, w, hw, haw⟩
  · rw [hj] at he
    exact Or.inl (hz.trans he.symm)
  · rw [hj] at hw
    cases hw
    exact Or.inr ⟨haw, z, hz, ha⟩

/-- An entry covers a type that was merged into it, or is moved by it among the types above
`ClassName.throwable`, which can happen where edges of several kinds meet. -/
def Holds (h g : Hierarchy) (contested : Prop) (x t : VType) : Prop :=
  ∃ y, x.join g t = some y ∧ (y = x ∨ contested ∧ AboveThrowable h x ∧ AboveThrowable h y)

theorem holds_self (h g : Hierarchy) (contested : Prop) (t : VType) : Holds h g contested t t :=
  ⟨t, join_self g t, Or.inl rfl⟩

/-- The join of the types of two caught exceptions. -/
theorem join_caught_instances (h : Hierarchy) (a b : ClassName) :
    (VType.instanceOf a).join h.caught (VType.instanceOf b) =
      some (VType.instanceOf (h.joinCaught a b)) := by
  unfold join Hierarchy.joinCaught VType.instanceOf
  by_cases hab : a = b
  · simp [hab]
  · simp [hab, RefType.join]

/-- How an edge that carries `t` may be merged into an entry `x` so that the entry covers the type
from then on: it is free to move, or only plain joins come in, or only exceptions of classes. -/
def Admits (h g : Hierarchy) (contested : Prop) (x t : VType) : Prop :=
  contested ∨ g = h ∨
    h.ThrowableBelowRoot ∧ g = h.caught ∧ (∃ a, x = instanceOf a) ∧ ∃ b, t = instanceOf b

/-- A type is held right after it was merged in. -/
theorem holds_joined (hl : h.Lawful) (hg : h.JoinsStacks g) {contested : Prop}
    (hok : Admits h g contested x t) (hj : x.join g t = some y) : Holds h g contested y t := by
  rcases hok with hc | rfl | ⟨ht, rfl, ⟨a, rfl⟩, b, rfl⟩
  · rcases join_agree hl hg hj with he | ⟨ha, -⟩
    · rcases join_agree_symm hl hg (join_absorbs hl he) with hy | ⟨ha, z, hz, haz⟩
      · exact ⟨y, hy, Or.inl rfl⟩
      · exact ⟨z, hz, Or.inr ⟨hc, ha, haz⟩⟩
    · obtain ⟨r, rfl, -⟩ := id ha
      obtain ⟨w, hw⟩ := join_object_some g r (ha.initialized hj)
      exact ⟨w, hw, Or.inr ⟨hc, ha, ha.join hl hg hw⟩⟩
  · exact ⟨y, join_absorbs hl hj, Or.inl rfl⟩
  · rw [join_caught_instances] at hj
    cases hj
    refine ⟨_, ?_, Or.inl rfl⟩
    rw [join_caught_instances, Hierarchy.joinCaught_absorbs hl ht]

/-- What joins with the operand of a join to a reference is a reference too. -/
theorem AboveThrowable.initialized_of_join {g' : Hierarchy} {t' x' : VType}
    (hx' : AboveThrowable h x') (hy : x.join g t = some y) (hj : x.join g' t' = some x') :
    t = .null ∨ ∃ u, t = .object u := by
  have hx : x = .null ∨ ∃ r, x = .object r := by
    obtain ⟨r, rfl, -⟩ := hx'
    rcases join_cases hj with ⟨-, rfl⟩ | ⟨rfl, -, -⟩ | ⟨hr, -, -⟩ | ⟨r', -, -, rfl, -, -⟩
    · exact Or.inr ⟨r, rfl⟩
    · exact Or.inl rfl
    · exact Or.inr hr
    · exact Or.inr ⟨r', rfl⟩
  rcases join_cases hy with ⟨rfl, -⟩ | ⟨-, ht, -⟩ | ⟨-, rfl, -⟩ | ⟨-, u, -, -, rfl, -⟩
  · exact hx
  · exact Or.inr ht
  · exact Or.inl rfl
  · exact Or.inr ⟨u, rfl⟩

/-- What an entry below `ClassName.throwable` covers stays covered unless the entry is moved above
it. -/
theorem join_climbs_below (hl : h.Lawful) {g' : Hierarchy} {t' x' : VType} (hg : h.JoinsStacks g)
    (hg' : h.JoinsStacks g') (hx : x.join g t = some x) (hj : x.join g' t' = some x')
    (hbelow : ¬ AboveThrowable h x') : x'.join g t = some x' := by
  have habove : ¬ AboveThrowable h x := fun ha => hbelow (ha.join hl hg' hj)
  have hplain : x.join h t = some x := by
    rcases join_agree hl hg hx with he | ⟨ha, -⟩
    · exact he
    · exact absurd ha habove
  have hplain' : x.join h t' = some x' := by
    rcases join_agree hl hg' hj with he | ⟨ha, -⟩
    · exact he
    · exact absurd ha hbelow
  rcases join_agree_symm hl hg (join_climbs hl hplain hplain') with he | ⟨ha, -⟩
  · exact he
  · exact absurd ha hbelow

/-- A type that is held stays so when another is merged in. -/
theorem Holds.step (hl : h.Lawful) {g' : Hierarchy} {t' x' : VType} {contested : Prop}
    (hg : h.JoinsStacks g) (hg' : h.JoinsStacks g') (hh : Holds h g contested x t)
    (hok : Admits h g contested x t) (hok' : Admits h g' contested x t')
    (hsame : contested ∨ g = g') (hj : x.join g' t' = some x') : Holds h g contested x' t := by
  obtain ⟨y, hy, hcov⟩ := hh
  by_cases hc : contested
  · by_cases habove : AboveThrowable h x'
    · obtain ⟨r, rfl, -⟩ := id habove
      obtain ⟨w, hw⟩ := join_object_some g r (habove.initialized_of_join hy hj)
      exact ⟨w, hw, Or.inr ⟨hc, habove, habove.join hl hg hw⟩⟩
    · rcases hcov with rfl | ⟨-, ha, -⟩
      · exact ⟨x', join_climbs_below hl hg hg' hy hj habove, Or.inl rfl⟩
      · exact absurd (ha.join hl hg' hj) habove
  · have hyx : y = x := hcov.resolve_right fun hm => hc hm.1
    have hgg : g = g' := hsame.resolve_left hc
    subst hyx hgg
    rcases hok.resolve_left hc with rfl | ⟨ht, rfl, ⟨a, rfl⟩, b, rfl⟩
    · exact ⟨x', join_climbs hl hy hj, Or.inl rfl⟩
    · rcases hok'.resolve_left hc with he | ⟨-, -, -, c, rfl⟩
      · rw [he] at hy hj
        exact ⟨x', he.symm ▸ join_climbs hl hy hj, Or.inl rfl⟩
      · rw [join_caught_instances] at hy hj
        cases hj
        refine ⟨_, ?_, Or.inl rfl⟩
        have hab : h.joinCaught a b = a := by simpa [instanceOf] using hy
        rw [join_caught_instances, Hierarchy.joinCaught_climbs hl ht hab]

end VType

end JvmClass
