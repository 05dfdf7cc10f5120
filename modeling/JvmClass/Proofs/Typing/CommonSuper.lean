import JvmClass.Proofs.Typing.Ancestors

/-!
# Least common superclasses

Where no class extends itself by way of others and the root extends nothing (`Superclasses.Rooted`),
the recorded superclasses of a class end in one that the table does not have, and the root is the
only superclass of that. A class is then extended by those that have it in their list of ancestors
and by no others, two classes that extend each other are equal, and the superclass that two classes
have in common is the least of those that both extend (`Superclasses.commonSuper_least`).
-/

namespace JvmClass

namespace Superclasses

variable {s : Superclasses} {a b c : ClassName}

/-- A table as classes that exist would fill it. -/
structure Rooted (s : Superclasses) : Prop where
  /-- No class extends itself by way of others. -/
  acyclic : ∀ c, ¬ Relation.TransGen s.Extends c c
  /-- The root has no superclass. -/
  rootless : ∀ c, ¬ s.Extends ClassName.object c

/-- A class extends itself and what its superclass extends. The root is the superclass of those
that the table does not have. -/
inductive Inherits (s : Superclasses) : ClassName → ClassName → Prop
  | refl (a : ClassName) : Inherits s a a
  | recorded {a b c : ClassName} (superclass : s.Extends a b) (rest : Inherits s b c) :
    Inherits s a c
  | unrecorded {a : ClassName} (missing : a ∉ s.parents) : Inherits s a ClassName.object

/-- A table along which something gets smaller is not cyclic. -/
theorem rooted_of_descends (size : ClassName → Nat)
    (descends : ∀ {a b}, s.Extends a b → size b < size a)
    (rootless : ∀ c, ¬ s.Extends ClassName.object c) : s.Rooted where
  acyclic c h := by
    have hlt : ∀ {a b}, Relation.TransGen s.Extends a b → size b < size a := by
      intro a b hab
      induction hab with
      | single hstep => exact descends hstep
      | tail _ hstep ih => exact Nat.lt_trans (descends hstep) ih
    exact Nat.lt_irrefl _ (hlt h)
  rootless := rootless

theorem Inherits.of_reaches (h : s.Reaches a b) (hb : s.Inherits b c) : s.Inherits a c := by
  induction h using Relation.ReflTransGen.head_induction_on with
  | refl => exact hb
  | head hstep _ ih => exact .recorded hstep ih

/-- Superclasses end in a class that has none in the table. -/
theorem Rooted.exists_top (hs : s.Rooted) (a : ClassName) :
    ∃ top, s.Reaches a top ∧ top ∉ s.parents := by
  obtain ⟨steps, top, line, h⟩ := exists_climbed s a
  refine ⟨top, h.reaches top h.top_mem, fun hmem => ?_⟩
  obtain ⟨next, hnext⟩ := Option.isSome_iff_exists.1 (Std.HashMap.mem_iff_isSome_getElem?.1 hmem)
  -- The superclass of the last class in the line would be in the line again.
  have hback : s.Reaches next top := h.reaches_top next (h.stops next hnext)
  exact hs.acyclic top (Relation.TransGen.head' hnext hback)

/-- What a class extends are its ancestors. -/
theorem Rooted.inherits_iff (hs : s.Rooted) : s.Inherits a c ↔ c ∈ s.ancestors a := by
  rw [mem_ancestors_iff]
  constructor
  · intro h
    induction h with
    | refl a => exact Or.inl .refl
    | recorded superclass _ ih => exact ih.imp_left fun h => .head superclass h
    | unrecorded => exact Or.inr rfl
  · rintro (h | rfl)
    · exact .of_reaches h (.refl c)
    · obtain ⟨top, hreach, htop⟩ := hs.exists_top a
      exact .of_reaches hreach (.unrecorded htop)

/-- Nothing is above the root. -/
theorem Rooted.eq_root_of_mem (hs : s.Rooted) (h : c ∈ s.ancestors ClassName.object) :
    c = ClassName.object := by
  rcases mem_ancestors_iff.1 h with h | h
  · rcases Relation.ReflTransGen.cases_head h with he | ⟨b, hb, -⟩
    · exact he.symm
    · exact absurd hb (hs.rootless b)
  · exact h

/-- Classes that are ancestors of each other are equal. -/
theorem Rooted.ancestors_antisymm (hs : s.Rooted) (hab : b ∈ s.ancestors a)
    (hba : a ∈ s.ancestors b) : a = b := by
  by_cases hroot : b = ClassName.object
  · subst hroot
    exact hs.eq_root_of_mem hba
  · by_cases hroot' : a = ClassName.object
    · subst hroot'
      exact (hs.eq_root_of_mem hab).symm
    · have hto : s.Reaches a b := (mem_ancestors_iff.1 hab).resolve_right hroot
      have hfrom : s.Reaches b a := (mem_ancestors_iff.1 hba).resolve_right hroot'
      rcases Relation.ReflTransGen.cases_head hto with he | ⟨c, hstep, hrest⟩
      · exact he
      · exact absurd (Relation.TransGen.head' hstep (hrest.trans hfrom)) (hs.acyclic a)

/-- It does not matter in which order two classes are given. -/
theorem Rooted.commonSuper_comm (hs : s.Rooted) (a b : ClassName) :
    s.commonSuper a b = s.commonSuper b a := by
  obtain ⟨ha, hb⟩ := commonSuper_spec s a b
  obtain ⟨hb', ha'⟩ := commonSuper_spec s b a
  exact hs.ancestors_antisymm (mem_ancestors_commonSuper ha' hb')
    (mem_ancestors_commonSuper hb ha)

/-- The superclass that two classes have in common is one that both extend, and it extends every
other such class. It is the same for the classes in either order. -/
theorem commonSuper_least (hs : s.Rooted) (a b : ClassName) :
    s.Inherits a (s.commonSuper a b) ∧ s.Inherits b (s.commonSuper a b) ∧
      (∀ c, s.Inherits a c → s.Inherits b c → s.Inherits (s.commonSuper a b) c) ∧
      s.commonSuper a b = s.commonSuper b a := by
  obtain ⟨ha, hb⟩ := commonSuper_spec s a b
  refine ⟨hs.inherits_iff.2 ha, hs.inherits_iff.2 hb, fun c hac hbc => ?_,
    hs.commonSuper_comm a b⟩
  exact hs.inherits_iff.2
    (mem_ancestors_commonSuper (hs.inherits_iff.1 hac) (hs.inherits_iff.1 hbc))

/-- Dogs and cats are animals, and dogs were taken for cats before. -/
def animals : Superclasses :=
  (((Superclasses.empty.add ⟨"Dog"⟩ ⟨"Cat"⟩).add ⟨"Puppy"⟩ ⟨"Dog"⟩).add ⟨"Cat"⟩ ⟨"Animal"⟩).add
    ⟨"Dog"⟩ ⟨"Animal"⟩

theorem animals_parents (c : ClassName) : animals.parents[c]? =
    if (⟨"Dog"⟩ : ClassName) = c then some ⟨"Animal"⟩
    else if (⟨"Cat"⟩ : ClassName) = c then some ⟨"Animal"⟩
    else if (⟨"Puppy"⟩ : ClassName) = c then some ⟨"Dog"⟩ else none := by
  simp only [animals, add, empty, Std.HashMap.getElem?_insert, Std.HashMap.getElem?_empty,
    beq_iff_eq]
  split_ifs <;> rfl

theorem animals_size : animals.size = 3 := by
  simp [animals, size, add, empty, Std.HashMap.size_insert]

theorem rooted_animals : animals.Rooted := by
  refine rooted_of_descends
    (fun c => if c = ⟨"Puppy"⟩ then 2 else if c = ⟨"Animal"⟩ then 0 else 1) ?_ ?_
  · intro a b h
    rw [Extends, animals_parents] at h
    split_ifs at h <;> subst_vars <;> cases h <;> decide
  · intro c h
    rw [Extends, animals_parents] at h
    split_ifs at h <;> simp_all [ClassName.object]

theorem commonSuper_animals : animals.commonSuper ⟨"Puppy"⟩ ⟨"Cat"⟩ = ⟨"Animal"⟩ := by
  simp [commonSuper, ancestors, climb, animals_size, animals_parents, ClassName.object]

theorem commonSuper_least_animals :
    animals.Rooted ∧ animals.Inherits ⟨"Puppy"⟩ ⟨"Animal"⟩ ∧ animals.Inherits ⟨"Cat"⟩ ⟨"Animal"⟩ ∧
      (∀ c, animals.Inherits ⟨"Puppy"⟩ c → animals.Inherits ⟨"Cat"⟩ c →
        animals.Inherits ⟨"Animal"⟩ c) ∧
      animals.commonSuper ⟨"Cat"⟩ ⟨"Puppy"⟩ = ⟨"Animal"⟩ := by
  obtain ⟨hpuppy, hcat, hleast, hcomm⟩ := commonSuper_least rooted_animals ⟨"Puppy"⟩ ⟨"Cat"⟩
  rw [commonSuper_animals] at hpuppy hcat hleast hcomm
  exact ⟨rooted_animals, hpuppy, hcat, hleast, hcomm.symm⟩

end Superclasses

end JvmClass
