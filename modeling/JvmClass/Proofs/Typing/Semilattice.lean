import JvmClass.Proofs.Typing.Assignability
import JvmClass.Proofs.Typing.CommonSuper

/-!
# Joining is a semilattice operation

A type covers another if their meet leaves it as it is. Where the table of superclasses is rooted,
common superclasses are least and do not depend on the order of the classes
(`Hierarchy.Semilattice`). That carries over to references and to types: what covers two types
covers their meet, so two meets of the same three types cover each other, and types that do so are
equal (`VType.meet_semilattice`).
-/

namespace JvmClass

/-- The laws of a hierarchy whose answers are least common superclasses, whichever class is given
first. -/
structure Hierarchy.Semilattice (h : Hierarchy) : Prop extends h.Lawful where
  comm : ∀ a b, h.commonSuper a b = h.commonSuper b a
  /-- A class that covers two others covers their join. -/
  least : ∀ {a b c}, h.commonSuper c a = c → h.commonSuper c b = c →
    h.commonSuper c (h.commonSuper a b) = c

theorem Superclasses.Rooted.semilattice {s : Superclasses} (hs : s.Rooted) :
    s.hierarchy.Semilattice where
  toLawful := s.lawful
  comm := hs.commonSuper_comm
  least ha hb := commonSuper_eq_left_iff.2 (mem_ancestors_commonSuper
    (commonSuper_eq_left_iff.1 ha) (commonSuper_eq_left_iff.1 hb))

variable {h : Hierarchy}

namespace RefType

variable {r t d : RefType} {c : ClassName} {m : Nat} {p : BaseType}

/-- A class other than the root covers classes alone. -/
theorem eq_object_of_join (hc : c ≠ ClassName.object) (hj : (object c).join h t = object c) :
    ∃ a, t = object a ∧ h.commonSuper c a = c := by
  cases t with
  | object a => exact ⟨a, rfl, RefType.object.inj hj⟩
  | objectArray n a => exact absurd (RefType.object.inj hj).symm hc
  | primitiveArray n q => exact absurd (RefType.object.inj hj).symm hc

/-- An array of instances covers arrays of instances of its dimension alone. -/
theorem eq_objectArray_of_join (hj : (objectArray m c).join h t = objectArray m c) :
    ∃ a, t = objectArray m a ∧ h.commonSuper c a = c := by
  cases t with
  | object a => cases hj
  | objectArray n a =>
    by_cases hmn : m = n
    · subst hmn
      simp only [join, if_true, RefType.objectArray.injEq, true_and] at hj
      exact ⟨a, rfl, hj⟩
    · simp [join, hmn] at hj
  | primitiveArray n q => cases hj

/-- An array of base values covers itself alone. -/
theorem eq_primitiveArray_of_join (hj : (primitiveArray m p).join h t = primitiveArray m p) :
    t = primitiveArray m p := by
  by_cases he : primitiveArray m p = t
  · exact he.symm
  · cases t <;> simp_all [join]

section Laws

variable (hl : h.Semilattice)
include hl

theorem join_comm (r t : RefType) : r.join h t = t.join h r := by
  cases r with
  | object a =>
    cases t with
    | object b => exact congrArg RefType.object (hl.comm a b)
    | objectArray n b => rfl
    | primitiveArray n q => rfl
  | objectArray m a =>
    cases t with
    | object b => rfl
    | objectArray n b =>
      by_cases hmn : m = n
      · subst hmn
        simp [join, hl.comm a b]
      · simp [join, hmn, Ne.symm hmn]
    | primitiveArray n q => rfl
  | primitiveArray m p =>
    by_cases he : primitiveArray m p = t
    · rw [← he]
    · cases t with
      | object b => rfl
      | objectArray n b => rfl
      | primitiveArray n q => simp only [join, if_neg he, if_neg (Ne.symm he)]

/-- What covers two references covers their join. -/
theorem join_least (hr : d.join h r = d) (ht : d.join h t = d) :
    d.join h (r.join h t) = d := by
  cases d with
  | object c =>
    by_cases hc : c = ClassName.object
    · subst hc
      exact join_root hl.toLawful _
    · obtain ⟨a, rfl, ha⟩ := eq_object_of_join hc hr
      obtain ⟨b, rfl, hb⟩ := eq_object_of_join hc ht
      exact congrArg RefType.object (hl.least ha hb)
  | objectArray m c =>
    obtain ⟨a, rfl, ha⟩ := eq_objectArray_of_join hr
    obtain ⟨b, rfl, hb⟩ := eq_objectArray_of_join ht
    simp [join, hl.least ha hb]
  | primitiveArray m p =>
    obtain rfl := eq_primitiveArray_of_join hr
    rw [eq_primitiveArray_of_join ht, join_self hl.toLawful, join_self hl.toLawful]

end Laws

end RefType

namespace VType

variable {a b c d : VType} {r t : RefType}

@[simp] theorem meet_self (h : Hierarchy) (a : VType) : a.meet h a = a := by
  rw [meet, join_self]
  rfl

theorem meet_object (hl : h.Lawful) (r t : RefType) :
    VType.meet h (.object r) (.object t) = .object (r.join h t) := by
  rw [meet, join_object hl]
  rfl

/-- A type covers itself; references cover null, and others as references do; the unusable type
covers everything. -/
theorem covers_cases (hc : a.meet h b = a) :
    a = .top ∨ a = b ∨ (b = .null ∧ ∃ r, a = .object r) ∨
      ∃ r t, a = .object r ∧ b = .object t ∧ r.join h t = r := by
  unfold meet at hc
  cases hj : a.join h b with
  | none =>
    rw [hj] at hc
    exact Or.inl hc.symm
  | some c =>
    rw [hj] at hc
    rcases join_cases hj with ⟨he, -⟩ | ⟨rfl, ⟨t, rfl⟩, rfl⟩ | ⟨hr, hn, -⟩ |
      ⟨r, t, -, rfl, rfl, rfl⟩
    · exact Or.inr (Or.inl he)
    · cases hc
    · exact Or.inr (Or.inr (Or.inl ⟨hn, hr⟩))
    · exact Or.inr (Or.inr (Or.inr ⟨r, t, rfl, rfl, VerificationType.object.inj hc⟩))

section Laws

variable (hl : h.Semilattice)
include hl

theorem join_comm (a b : VType) : a.join h b = b.join h a := by
  by_cases hab : a = b
  · rw [hab]
  · unfold join
    rw [if_neg hab, if_neg (Ne.symm hab)]
    cases a with
    | null => cases b <;> rfl
    | object r =>
      cases b with
      | object t => simp only [RefType.join_comm hl r t]
      | _ => rfl
    | _ => cases b <;> rfl

theorem meet_comm (a b : VType) : a.meet h b = b.meet h a := by
  rw [meet, join_comm hl, meet]

/-- What covers two types covers their meet. -/
theorem meet_least (ha : d.meet h a = d) (hb : d.meet h b = d) : d.meet h (a.meet h b) = d := by
  rcases covers_cases ha with rfl | rfl | ⟨rfl, r, rfl⟩ | ⟨r, t, rfl, rfl, hr⟩
  · exact meet_top h _
  · rw [hb, meet_self]
  · -- Null meets what a reference covers in that itself.
    rcases covers_cases hb with he | rfl | ⟨rfl, -⟩ | ⟨r', t, -, rfl, -⟩
    · cases he
    · exact hb
    · exact hb
    · exact hb
  · rcases covers_cases hb with he | rfl | ⟨rfl, -⟩ | ⟨r', u, he, rfl, hu⟩
    · cases he
    · rw [meet_comm hl (.object t), ha, meet_self]
    · exact ha
    · cases he
      rw [meet_object hl.toLawful, meet_object hl.toLawful, RefType.join_least hl hr hu]

/-- A meet of three types covers all of them. -/
theorem meet_covers (a b c : VType) :
    ((a.meet h b).meet h c).meet h a = (a.meet h b).meet h c ∧
      ((a.meet h b).meet h c).meet h b = (a.meet h b).meet h c ∧
      ((a.meet h b).meet h c).meet h c = (a.meet h b).meet h c := by
  have hleft : (a.meet h b).meet h a = a.meet h b := by
    rw [meet_comm hl a b]
    exact meet_absorbs hl.toLawful b a
  have hright : (a.meet h b).meet h b = a.meet h b := meet_absorbs hl.toLawful a b
  exact ⟨meet_climbs hl.toLawful hleft c, meet_climbs hl.toLawful hright c,
    meet_absorbs hl.toLawful _ c⟩

theorem meet_assoc (a b c : VType) : (a.meet h b).meet h c = a.meet h (b.meet h c) := by
  rw [meet_comm hl a (b.meet h c)]
  obtain ⟨ha, hb, hc⟩ := meet_covers hl a b c
  obtain ⟨hb', hc', ha'⟩ := meet_covers hl b c a
  -- Each of the two covers the other.
  have hto := meet_least hl (meet_least hl hb hc) ha
  have hfrom := meet_least hl (meet_least hl ha' hb') hc'
  rw [← hto, meet_comm hl, hfrom]

end Laws

/-- Where no class extends itself by way of others and the root extends nothing, meeting is
commutative, associative and idempotent. -/
theorem meet_semilattice {s : Superclasses} (hs : s.Rooted) :
    (∀ a b : VType, a.meet s.hierarchy b = b.meet s.hierarchy a) ∧
      (∀ a b c : VType, (a.meet s.hierarchy b).meet s.hierarchy c =
        a.meet s.hierarchy (b.meet s.hierarchy c)) ∧
      ∀ a : VType, a.meet s.hierarchy a = a :=
  ⟨meet_comm hs.semilattice, meet_assoc hs.semilattice, meet_self s.hierarchy⟩

theorem meet_arrays_animals :
    (arraysOf 0 "Puppy").meet Superclasses.animals.hierarchy (arraysOf 0 "Cat") =
      arraysOf 0 "Animal" := by
  rw [arraysOf, arraysOf, meet_object Superclasses.animals.lawful, RefType.join, if_pos rfl]
  exact congrArg (VerificationType.object ∘ RefType.objectArray 0) Superclasses.commonSuper_animals

theorem meet_semilattice_animals :
    Superclasses.animals.Rooted ∧
      ((arraysOf 0 "Puppy").meet Superclasses.animals.hierarchy (arraysOf 0 "Cat")).meet
        Superclasses.animals.hierarchy .null = arraysOf 0 "Animal" ∧
      (arraysOf 0 "Puppy").meet Superclasses.animals.hierarchy
        ((arraysOf 0 "Cat").meet Superclasses.animals.hierarchy .null) = arraysOf 0 "Animal" ∧
      (arraysOf 0 "Cat").meet Superclasses.animals.hierarchy (arraysOf 0 "Puppy") =
        arraysOf 0 "Animal" := by
  obtain ⟨hcomm, hassoc, -⟩ := meet_semilattice Superclasses.rooted_animals
  have hmet : ((arraysOf 0 "Puppy").meet Superclasses.animals.hierarchy (arraysOf 0 "Cat")).meet
      Superclasses.animals.hierarchy .null = arraysOf 0 "Animal" := by
    rw [meet_arrays_animals]
    rfl
  refine ⟨Superclasses.rooted_animals, hmet, ?_, ?_⟩
  · rw [← hassoc, hmet]
  · rw [hcomm, meet_arrays_animals]

end VType

end JvmClass
