import JvmClass.Descriptor.Basic
import JvmClass.Proofs.Typing.Joins

/-!
# Joins are least upper bounds

Assignability is what the verifier means by using a value of one type as another: subclasses for
classes, covariance for arrays, and the root for everything. A join is a type to which both types
are assignable, and of all such types it is the most specific one
(`VType.join_least_unless_mixed`), except for arrays whose elements do not meet level by level. Such
arrays meet in the root, although they may have arrays of the root in common.
-/

namespace JvmClass

namespace RefType

/-- Values of the first type can be used as values of the second one, by a table of superclasses. -/
inductive AssignableTo (s : Superclasses) : RefType → RefType → Prop
  | refl (r : RefType) : AssignableTo s r r
  | superclass {a b : ClassName} (reaches : s.Reaches a b) : AssignableTo s (.object a) (.object b)
  /-- Every class and every array type extends the root. -/
  | root (r : RefType) : AssignableTo s r (.object ClassName.object)
  | elements {r r' t t' : RefType} (element : r.element? = some (.ref r'))
    (element' : t.element? = some (.ref t')) (assignable : AssignableTo s r' t') :
    AssignableTo s r t
  | baseElements {r t : RefType} {p : BaseType} (element : r.element? = some (.base p))
    (element' : t.element? = some (.base p)) : AssignableTo s r t

/-- Arrays that do not meet element by element: they are not both of instances and of one
dimension. -/
def Mixed : RefType → RefType → Prop
  | .object _, _ | _, .object _ => False
  | .objectArray m _, .objectArray n _ => m ≠ n
  | r, t => r ≠ t

end RefType

/-- Elements of arrays: references that are assignable, or base values of one type. -/
def FieldType.AssignableTo (s : Superclasses) : FieldType → FieldType → Prop
  | .ref r, .ref t => r.AssignableTo s t
  | .base p, .base q => p = q
  | _, _ => False

namespace RefType

variable {s : Superclasses} {r t d : RefType} {e e' : FieldType} {m : Nat} {a b : ClassName}
  {p : BaseType}

theorem element?_eq_some_iff : r.element? = some e ↔ r = arrayOf e := by
  refine ⟨fun h => ?_, fun h => h ▸ element?_arrayOf e⟩
  unfold element? at h
  split at h <;> cases h <;> rfl

/-- A class is assignable to its ancestors and to nothing else. -/
theorem assignable_object_iff :
    AssignableTo s (.object a) t ↔ ∃ b ∈ s.ancestors a, t = .object b := by
  simp only [Superclasses.mem_ancestors_iff]
  constructor
  · intro h
    cases h with
    | refl => exact ⟨a, Or.inl .refl, rfl⟩
    | superclass reaches => exact ⟨_, Or.inl reaches, rfl⟩
    | root => exact ⟨_, Or.inr rfl, rfl⟩
    | elements element => cases element
    | baseElements element => cases element
  · rintro ⟨b, h | rfl, rfl⟩
    · exact .superclass h
    · exact .root _

/-- An array type is assignable to the root and to arrays of what its elements are assignable to. -/
theorem assignable_arrayOf_iff : AssignableTo s (arrayOf e) t ↔
    t = .object ClassName.object ∨ ∃ e', e.AssignableTo s e' ∧ t = arrayOf e' := by
  constructor
  · intro h
    generalize hr : arrayOf e = r at h
    have he : r.element? = some e := hr ▸ element?_arrayOf e
    cases h with
    | refl =>
      refine Or.inr ⟨e, ?_, hr.symm⟩
      cases e with
      | base p => exact rfl
      | ref r' => exact AssignableTo.refl r'
    | superclass => cases he
    | root => exact Or.inl rfl
    | @elements _ _ _ t' element element' assignable =>
      obtain rfl := Option.some.inj (element.symm.trans he)
      exact Or.inr ⟨.ref t', assignable, element?_eq_some_iff.1 element'⟩
    | @baseElements _ _ p element element' =>
      obtain rfl := Option.some.inj (element.symm.trans he)
      exact Or.inr ⟨.base p, rfl, element?_eq_some_iff.1 element'⟩
  · rintro (rfl | ⟨e', h, rfl⟩)
    · exact .root _
    · cases e <;> cases e'
      · exact .baseElements (element?_arrayOf _) (h ▸ element?_arrayOf _)
      · exact h.elim
      · exact h.elim
      · exact .elements (element?_arrayOf _) (element?_arrayOf _) h

/-- The array type with the given number of dimensions beyond the first. -/
def arrays (e : FieldType) : Nat → RefType
  | 0 => arrayOf e
  | extra + 1 => arrayOf (.ref (arrays e extra))

theorem arrays_object (m : Nat) : arrays (.ref (.object a)) m = .objectArray m a := by
  induction m with
  | zero => rfl
  | succ m ih => rw [arrays, ih]; rfl

theorem arrays_base (m : Nat) : arrays (.base p) m = .primitiveArray m p := by
  induction m with
  | zero => rfl
  | succ m ih => rw [arrays, ih]; rfl

/-- An array type is assignable to the root, to arrays of as many dimensions, and to arrays of the
root of fewer dimensions. -/
theorem assignable_arrays_iff : AssignableTo s (arrays e m) t ↔
    t = .object ClassName.object ∨ (∃ e', e.AssignableTo s e' ∧ t = arrays e' m) ∨
      ∃ n < m, t = .objectArray n ClassName.object := by
  induction m generalizing t with
  | zero => simp [arrays, assignable_arrayOf_iff]
  | succ m ih =>
    rw [arrays, assignable_arrayOf_iff]
    refine or_congr_right ⟨?_, ?_⟩
    · rintro ⟨e' | t', h, rfl⟩
      · exact h.elim
      · rcases ih.1 h with rfl | ⟨e', he, rfl⟩ | ⟨n, hn, rfl⟩
        · exact Or.inr ⟨0, Nat.succ_pos m, rfl⟩
        · exact Or.inl ⟨e', he, rfl⟩
        · exact Or.inr ⟨n + 1, Nat.succ_lt_succ hn, rfl⟩
    · rintro (⟨e', he, rfl⟩ | ⟨n, hn, rfl⟩)
      · exact ⟨.ref (arrays e' m), ih.2 (Or.inr (Or.inl ⟨e', he, rfl⟩)), rfl⟩
      · cases n with
        | zero => exact ⟨.ref (.object ClassName.object), AssignableTo.root _, rfl⟩
        | succ n =>
          exact ⟨.ref (.objectArray n ClassName.object),
            ih.2 (Or.inr (Or.inr ⟨n, Nat.lt_of_succ_lt_succ hn, rfl⟩)), rfl⟩

theorem assignable_objectArray_iff : AssignableTo s (.objectArray m a) t ↔
    t = .object ClassName.object ∨ (∃ b ∈ s.ancestors a, t = .objectArray m b) ∨
      ∃ n < m, t = .objectArray n ClassName.object := by
  rw [← arrays_object, assignable_arrays_iff]
  refine or_congr_right (or_congr_left ⟨?_, ?_⟩)
  · rintro ⟨e' | t', h, rfl⟩
    · exact h.elim
    · obtain ⟨b, hb, rfl⟩ := assignable_object_iff.1 h
      exact ⟨b, hb, arrays_object m⟩
  · rintro ⟨b, hb, rfl⟩
    exact ⟨.ref (.object b), assignable_object_iff.2 ⟨b, hb, rfl⟩, (arrays_object m).symm⟩

theorem assignable_primitiveArray_iff : AssignableTo s (.primitiveArray m p) t ↔
    t = .object ClassName.object ∨ t = .primitiveArray m p ∨
      ∃ n < m, t = .objectArray n ClassName.object := by
  rw [← arrays_base, assignable_arrays_iff]
  refine or_congr_right (or_congr_left ⟨?_, ?_⟩)
  · rintro ⟨q | t', h, rfl⟩
    · rw [show p = q from h]
    · exact h.elim
  · rintro rfl
    exact ⟨.base p, rfl, rfl⟩

/-- No array is assignable to a class other than the root. -/
theorem eq_root_of_element (he : r.element? = some e) (h : r.AssignableTo s (.object a)) :
    a = ClassName.object := by
  rw [element?_eq_some_iff.1 he] at h
  rcases assignable_arrayOf_iff.1 h with ha | ⟨e', -, ha⟩
  · cases ha
    rfl
  · have := element?_arrayOf e'
    rw [← ha] at this
    cases this

/-- Classes meet in a class, arrays of instances element by element, and equal types in themselves.
All others meet in the root: mixed arrays, and classes with arrays. -/
theorem join_cases (h : Hierarchy) (r t : RefType) :
    (∃ a b, r = .object a ∧ t = .object b ∧ r.join h t = .object (h.commonSuper a b)) ∨
    (∃ m a b, r = .objectArray m a ∧ t = .objectArray m b ∧
      r.join h t = .objectArray m (h.commonSuper a b)) ∨
    (r = t ∧ r.join h t = r) ∨
    (r.join h t = .object ClassName.object ∧
      (Mixed r t ∨ (∃ a, r = .object a) ∧ (∃ e, t.element? = some e) ∨
        (∃ a, t = .object a) ∧ ∃ e, r.element? = some e)) := by
  have harray (m : Nat) (a : ClassName) : ∃ e, (objectArray m a).element? = some e := by
    cases m <;> exact ⟨_, rfl⟩
  have hbase (m : Nat) (p : BaseType) : ∃ e, (primitiveArray m p).element? = some e := by
    cases m <;> exact ⟨_, rfl⟩
  cases r with
  | object a =>
    cases t with
    | object b => exact Or.inl ⟨a, b, rfl, rfl, rfl⟩
    | objectArray n b =>
      exact Or.inr (Or.inr (Or.inr ⟨rfl, Or.inr (Or.inl ⟨⟨a, rfl⟩, harray n b⟩)⟩))
    | primitiveArray n q =>
      exact Or.inr (Or.inr (Or.inr ⟨rfl, Or.inr (Or.inl ⟨⟨a, rfl⟩, hbase n q⟩)⟩))
  | objectArray m a =>
    cases t with
    | object b => exact Or.inr (Or.inr (Or.inr ⟨rfl, Or.inr (Or.inr ⟨⟨b, rfl⟩, harray m a⟩)⟩))
    | objectArray n b =>
      by_cases hmn : m = n
      · subst hmn
        exact Or.inr (Or.inl ⟨m, a, b, rfl, rfl, if_pos rfl⟩)
      · exact Or.inr (Or.inr (Or.inr ⟨if_neg hmn, Or.inl hmn⟩))
    | primitiveArray n q => exact Or.inr (Or.inr (Or.inr ⟨rfl, Or.inl (by simp [Mixed])⟩))
  | primitiveArray m p =>
    cases t with
    | object b => exact Or.inr (Or.inr (Or.inr ⟨rfl, Or.inr (Or.inr ⟨⟨b, rfl⟩, hbase m p⟩)⟩))
    | objectArray n b => exact Or.inr (Or.inr (Or.inr ⟨rfl, Or.inl (by simp [Mixed])⟩))
    | primitiveArray n q =>
      by_cases he : primitiveArray m p = primitiveArray n q
      · exact Or.inr (Or.inr (Or.inl ⟨he, if_pos he⟩))
      · exact Or.inr (Or.inr (Or.inr ⟨if_neg he, Or.inl he⟩))

/-- Both types are assignable to their join. -/
theorem assignable_join (s : Superclasses) (r t : RefType) :
    r.AssignableTo s (r.join s.hierarchy t) ∧ t.AssignableTo s (r.join s.hierarchy t) := by
  rcases join_cases s.hierarchy r t with ⟨a, b, rfl, rfl, hj⟩ | ⟨m, a, b, rfl, rfl, hj⟩ |
    ⟨rfl, hj⟩ | ⟨hj, -⟩ <;> rw [hj]
  · obtain ⟨ha, hb⟩ := s.commonSuper_spec a b
    exact ⟨assignable_object_iff.2 ⟨_, ha, rfl⟩, assignable_object_iff.2 ⟨_, hb, rfl⟩⟩
  · obtain ⟨ha, hb⟩ := s.commonSuper_spec a b
    exact ⟨assignable_objectArray_iff.2 (Or.inr (Or.inl ⟨_, ha, rfl⟩)),
      assignable_objectArray_iff.2 (Or.inr (Or.inl ⟨_, hb, rfl⟩))⟩
  · exact ⟨.refl r, .refl r⟩
  · exact ⟨.root r, .root t⟩

/-- What mixed arrays have in common are the root and arrays of the root. -/
theorem common_of_mixed (hmixed : Mixed r t) (hr : r.AssignableTo s d) (ht : t.AssignableTo s d) :
    d = .object ClassName.object ∨ ∃ n, d = .objectArray n ClassName.object := by
  cases r with
  | object a => exact hmixed.elim
  | objectArray m a =>
    rcases assignable_objectArray_iff.1 hr with rfl | ⟨c, -, rfl⟩ | ⟨n, -, rfl⟩
    · exact Or.inl rfl
    · cases t with
      | object b => exact hmixed.elim
      | objectArray n b =>
        rcases assignable_objectArray_iff.1 ht with he | ⟨c', -, he⟩ | ⟨k, -, he⟩
        · cases he
        · cases he
          exact absurd rfl hmixed
        · exact Or.inr ⟨k, he⟩
      | primitiveArray n q =>
        rcases assignable_primitiveArray_iff.1 ht with he | he | ⟨k, -, he⟩
        · cases he
        · cases he
        · exact Or.inr ⟨k, he⟩
    · exact Or.inr ⟨n, rfl⟩
  | primitiveArray m p =>
    rcases assignable_primitiveArray_iff.1 hr with rfl | rfl | ⟨n, -, rfl⟩
    · exact Or.inl rfl
    · cases t with
      | object b => exact hmixed.elim
      | objectArray n b =>
        rcases assignable_objectArray_iff.1 ht with he | ⟨c', -, he⟩ | ⟨k, -, he⟩ <;> cases he
      | primitiveArray n q =>
        rcases assignable_primitiveArray_iff.1 ht with he | he | ⟨k, -, he⟩
        · cases he
        · exact absurd he hmixed
        · cases he
    · exact Or.inr ⟨n, rfl⟩

/-- A type to which both types are assignable is one to which their join is assignable, unless the
types are mixed arrays and it is an array of the root. -/
theorem join_assignable (hr : r.AssignableTo s d) (ht : t.AssignableTo s d) :
    (r.join s.hierarchy t).AssignableTo s d ∨
      Mixed r t ∧ r.join s.hierarchy t = .object ClassName.object ∧
        ∃ n, d = .objectArray n ClassName.object := by
  rcases join_cases s.hierarchy r t with ⟨a, b, rfl, rfl, hj⟩ | ⟨m, a, b, rfl, rfl, hj⟩ |
    ⟨rfl, hj⟩ | ⟨hj, hmixed | ⟨⟨a, rfl⟩, e, he⟩ | ⟨⟨a, rfl⟩, e, he⟩⟩ <;> rw [hj]
  · obtain ⟨c, hc, rfl⟩ := assignable_object_iff.1 hr
    obtain ⟨c', hc', he⟩ := assignable_object_iff.1 ht
    cases he
    exact Or.inl (assignable_object_iff.2
      ⟨c, Superclasses.mem_ancestors_commonSuper hc hc', rfl⟩)
  · refine Or.inl (assignable_objectArray_iff.2 ?_)
    rcases assignable_objectArray_iff.1 hr with rfl | ⟨c, hc, rfl⟩ | hroot
    · exact Or.inl rfl
    · refine Or.inr (Or.inl ⟨c, Superclasses.mem_ancestors_commonSuper hc ?_, rfl⟩)
      rcases assignable_objectArray_iff.1 ht with he | ⟨c', hc', he⟩ | ⟨n, hn, he⟩ <;> cases he
      · exact hc'
      · exact absurd hn (Nat.lt_irrefl m)
    · exact Or.inr (Or.inr hroot)
  · exact Or.inl hr
  · rcases common_of_mixed hmixed hr ht with rfl | hroot
    · exact Or.inl (.refl _)
    · exact Or.inr ⟨hmixed, rfl, hroot⟩
  · obtain ⟨c, -, rfl⟩ := assignable_object_iff.1 hr
    rw [eq_root_of_element he ht]
    exact Or.inl (.refl _)
  · obtain ⟨c, -, rfl⟩ := assignable_object_iff.1 ht
    rw [eq_root_of_element he hr]
    exact Or.inl (.refl _)

end RefType

namespace VType

/-- Values of the first type can be used as values of the second one. -/
inductive AssignableTo (s : Superclasses) : VType → VType → Prop
  | refl (a : VType) : AssignableTo s a a
  | null (t : RefType) : AssignableTo s .null (.object t)
  | object {r t : RefType} (assignable : r.AssignableTo s t) :
    AssignableTo s (.object r) (.object t)

variable {s : Superclasses} {a b c : VType}

/-- Both types are assignable to their join, and the join to whatever both types are assignable to.
The exception are mixed arrays: their join is the root, and they may both be assignable to arrays of
the root as well. -/
theorem join_least_unless_mixed (hj : a.join s.hierarchy b = some c) :
    a.AssignableTo s c ∧ b.AssignableTo s c ∧
      ∀ d, a.AssignableTo s d → b.AssignableTo s d → c.AssignableTo s d ∨
        ∃ r t n, a = .object r ∧ b = .object t ∧ r.Mixed t ∧
          c = .object (.object ClassName.object) ∧
          d = .object (.objectArray n ClassName.object) := by
  rcases join_cases hj with ⟨rfl, rfl⟩ | ⟨rfl, ⟨t, rfl⟩, rfl⟩ | ⟨⟨r, rfl⟩, rfl, rfl⟩ |
    ⟨r, t, hne, rfl, rfl, rfl⟩
  · exact ⟨.refl _, .refl _, fun d ha _ => Or.inl ha⟩
  · exact ⟨.null t, .refl _, fun d _ hb => Or.inl hb⟩
  · exact ⟨.refl _, .null r, fun d ha _ => Or.inl ha⟩
  · obtain ⟨hr, ht⟩ := RefType.assignable_join s r t
    refine ⟨.object hr, .object ht, fun d ha hb => ?_⟩
    have hd : ∃ d', d = .object d' ∧ r.AssignableTo s d' ∧ t.AssignableTo s d' := by
      cases ha with
      | refl =>
        cases hb with
        | refl => exact absurd rfl hne
        | object hb => exact ⟨r, rfl, .refl r, hb⟩
      | object ha =>
        cases hb with
        | refl => exact ⟨t, rfl, ha, .refl t⟩
        | object hb => exact ⟨_, rfl, ha, hb⟩
    obtain ⟨d', rfl, hr', ht'⟩ := hd
    rcases RefType.join_assignable hr' ht' with h | ⟨hmixed, hroot, n, rfl⟩
    · exact Or.inl (.object h)
    · exact Or.inr ⟨r, t, n, rfl, rfl, hmixed, by rw [hroot], rfl⟩

/-- Two classes that extend a third one. -/
def siblings : Superclasses := (Superclasses.empty.add ⟨"B"⟩ ⟨"A"⟩).add ⟨"C"⟩ ⟨"A"⟩

/-- Arrays of one class. -/
def arraysOf (extra : Nat) (name : String) : VType := .object (.objectArray extra ⟨name⟩)

theorem join_siblings :
    (arraysOf 0 "B").join siblings.hierarchy (arraysOf 0 "C") = some (arraysOf 0 "A") := by
  have hsize : siblings.size = 2 := by
    simp [siblings, Superclasses.size, Superclasses.add, Superclasses.empty,
      Std.HashMap.size_insert]
  have hparent (c : ClassName) : siblings.parents[c]? =
      if (⟨"C"⟩ : ClassName) = c then some ⟨"A"⟩
      else if (⟨"B"⟩ : ClassName) = c then some ⟨"A"⟩ else none := by
    simp [siblings, Superclasses.add, Superclasses.empty, Std.HashMap.getElem?_insert]
  simp [arraysOf, join, RefType.join, Superclasses.hierarchy, Superclasses.commonSuper,
    Superclasses.ancestors, Superclasses.climb, hsize, hparent, ClassName.object]

theorem join_least_siblings :
    (arraysOf 0 "B").join siblings.hierarchy (arraysOf 0 "C") = some (arraysOf 0 "A") ∧
      (arraysOf 0 "B").AssignableTo siblings (arraysOf 0 "A") ∧
      (arraysOf 0 "C").AssignableTo siblings (arraysOf 0 "A") ∧
      ∀ d, (arraysOf 0 "B").AssignableTo siblings d → (arraysOf 0 "C").AssignableTo siblings d →
        (arraysOf 0 "A").AssignableTo siblings d := by
  obtain ⟨hb, hc, hleast⟩ := join_least_unless_mixed join_siblings
  refine ⟨join_siblings, hb, hc, fun d hb hc => (hleast d hb hc).resolve_right ?_⟩
  rintro ⟨r, t, n, -, -, -, hroot, -⟩
  cases hroot

/-- Arrays of arrays and arrays of instances can both be used as arrays of the root, but meet in the
root itself, which cannot. No superclass is recorded here. -/
theorem join_mixed_not_least :
    (∀ c, ¬ Relation.TransGen Superclasses.empty.Extends c c) ∧
      ¬ (∃ c, Superclasses.empty.Extends ClassName.object c) ∧
      (arraysOf 1 "B").join Superclasses.empty.hierarchy (arraysOf 0 "B") =
        some (instanceOf ClassName.object) ∧
      (arraysOf 1 "B").AssignableTo .empty (arraysOf 0 "java/lang/Object") ∧
      (arraysOf 0 "B").AssignableTo .empty (arraysOf 0 "java/lang/Object") ∧
      ¬ (instanceOf ClassName.object).AssignableTo .empty (arraysOf 0 "java/lang/Object") := by
  have hnone (b c : ClassName) : ¬ Superclasses.empty.Extends b c := fun h =>
    Std.HashMap.not_mem_empty (Superclasses.mem_parents_of_extends h)
  refine ⟨fun c h => ?_, fun ⟨c, h⟩ => hnone _ c h, by decide, .object ?_, .object ?_, fun h => ?_⟩
  · obtain ⟨b, h, -⟩ := Relation.TransGen.head'_iff.1 h
    exact hnone _ _ h
  · exact RefType.assignable_objectArray_iff.2 (Or.inr (Or.inr ⟨0, Nat.zero_lt_one, rfl⟩))
  · exact .elements rfl rfl (.root _)
  · cases h with
    | object h =>
      obtain ⟨b, -, he⟩ := RefType.assignable_object_iff.1 h
      cases he

end VType

end JvmClass
