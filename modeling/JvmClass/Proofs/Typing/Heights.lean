import JvmClass.Proofs.Typing.Merging

/-!
# Heights of types and frames

A merge that changes a frame lowers it. For plain joins the height of a class is the number of its
ancestors (`VType.height`); arrays are above the root and null is above everything. Joins of caught
classes stop at `ClassName.throwable`, which is at the bottom for them (`VType.caughtHeight`). The
height of a frame counts its locals, the heights of their types, and those of the stack entries.
-/

namespace JvmClass

section Types

variable {s : Superclasses}

/-- How far a reference is from instances of the root under plain joins, plus one. -/
def RefType.height (s : Superclasses) : RefType → Nat
  | .object c => 1 + s.rank c
  | .objectArray _ c => 2 + s.rank c
  | .primitiveArray _ _ => 2

theorem RefType.height_le (s : Superclasses) (r : RefType) : r.height s ≤ s.size + 4 := by
  cases r with
  | object c =>
    have := s.rank_le c
    simp only [height]
    omega
  | objectArray m c =>
    have := s.rank_le c
    simp only [height]
    omega
  | primitiveArray m c =>
    simp only [height]
    omega

theorem RefType.height_pos (s : Superclasses) (r : RefType) : 0 < r.height s := by
  cases r with
  | object c =>
    simp only [height]
    omega
  | objectArray m c =>
    simp only [height]
    omega
  | primitiveArray m c => simp [height]

@[simp] theorem Superclasses.rank_object (s : Superclasses) : s.rank ClassName.object = 0 := by
  simp [rank]

/-- A plain join that is not the first type is lower. -/
theorem RefType.height_join_lt {r t : RefType} (hne : r.join s.hierarchy t ≠ r) :
    (r.join s.hierarchy t).height s < r.height s := by
  cases r with
  | object a =>
    cases t with
    | object b =>
      simp only [join, ne_eq, RefType.object.injEq, height] at hne ⊢
      have := Superclasses.rank_commonSuper_lt hne
      exact Nat.add_lt_add_left this 1
    | objectArray n b =>
      simp only [join, reduceCtorEq, if_false, ne_eq, RefType.object.injEq] at hne ⊢
      have := s.rank_pos (Ne.symm hne)
      simp only [height, Superclasses.rank_object]
      omega
    | primitiveArray n b =>
      simp only [join, reduceCtorEq, if_false, ne_eq, RefType.object.injEq] at hne ⊢
      have := s.rank_pos (Ne.symm hne)
      simp only [height, Superclasses.rank_object]
      omega
  | objectArray m a =>
    by_cases ht : ∃ b, t = .objectArray m b
    · obtain ⟨b, rfl⟩ := ht
      simp only [join, if_true, ne_eq, RefType.objectArray.injEq, true_and, height] at hne ⊢
      have := Superclasses.rank_commonSuper_lt hne
      exact Nat.add_lt_add_left this 2
    · have hroot : (RefType.objectArray m a).join s.hierarchy t = .object ClassName.object := by
        cases t with
        | objectArray n c =>
          have hmn : m ≠ n := fun he => ht ⟨c, he ▸ rfl⟩
          simp [join, hmn]
        | object c => simp [join]
        | primitiveArray n c => simp [join]
      rw [hroot]
      simp only [height, Superclasses.rank_object]
      omega
  | primitiveArray m a =>
    have hroot : (RefType.primitiveArray m a).join s.hierarchy t = .object ClassName.object := by
      by_cases he : RefType.primitiveArray m a = t
      · subst he
        exact absurd (join_self s.lawful _) hne
      · cases t <;> simp_all [join]
    rw [hroot]
    simp [height]

namespace VType

/-- How often a plain join may change a type. -/
def height (s : Superclasses) : VType → Nat
  | .top => 0
  | .null => s.size + 5
  | .object r => r.height s
  | _ => 1

theorem height_pos {t : VType} (ht : t ≠ .top) : 0 < t.height s := by
  cases t <;> simp_all [height, RefType.height_pos]

/-- A plain join that is not the first type is lower. -/
theorem height_join_lt {x t y : VType} (hj : x.join s.hierarchy t = some y) (hne : y ≠ x) :
    y.height s < x.height s := by
  rcases join_cases hj with ⟨-, rfl⟩ | ⟨rfl, ⟨u, rfl⟩, rfl⟩ | ⟨-, -, rfl⟩ | ⟨r, u, -, rfl, -, rfl⟩
  · exact absurd rfl hne
  · have := u.height_le s
    simp only [height]
    omega
  · exact absurd rfl hne
  · exact RefType.height_join_lt fun he => hne (congrArg _ he)

/-- A meet that is not the first type is lower. -/
theorem height_meet_lt {x t : VType} (hne : x.meet s.hierarchy t ≠ x) :
    (x.meet s.hierarchy t).height s < x.height s := by
  unfold meet at hne ⊢
  cases hj : x.join s.hierarchy t with
  | none =>
    rw [hj] at hne
    exact height_pos (Ne.symm hne)
  | some y =>
    rw [hj] at hne
    exact height_join_lt hj hne

/-- How often a join with caught classes may change a type. -/
def caughtHeight (s : Superclasses) : VType → Nat
  | .object (.object c) =>
    if c = ClassName.throwable then 0 else if c = ClassName.object then 1 else 2 + s.rank c
  | .object _ => 2
  | .null => s.size + 5
  | _ => 0

theorem caughtHeight_instanceOf_le (s : Superclasses) (c : ClassName) :
    (instanceOf c).caughtHeight s ≤ s.size + 4 := by
  have := s.rank_le c
  simp only [instanceOf, caughtHeight]
  split
  · omega
  · split <;> omega

theorem caughtHeight_root_le (s : Superclasses) :
    (instanceOf ClassName.object).caughtHeight s ≤ 1 := by
  simp only [instanceOf, caughtHeight, if_true]
  split <;> omega

/-- A join of caught classes that is not the first class is lower. -/
theorem caughtHeight_joinCaught_lt (ht : s.hierarchy.ThrowableBelowRoot) {a b : ClassName}
    (hne : s.hierarchy.joinCaught a b ≠ a) :
    (instanceOf (s.hierarchy.joinCaught a b)).caughtHeight s < (instanceOf a).caughtHeight s := by
  have hab : a ≠ b := by
    rintro rfl
    exact hne (if_pos rfl)
  have hat : a ≠ ClassName.throwable := by
    rintro rfl
    exact hne (Hierarchy.joinCaught_throwable s.lawful ht b)
  rcases Hierarchy.joinCaught_cases s.hierarchy hab with he | ⟨he, hroot⟩
  · rw [he]
    simp only [instanceOf, caughtHeight, if_true, if_neg hat]
    split <;> omega
  · rw [he] at hne ⊢
    have hlt : s.rank (s.hierarchy.commonSuper a b) < s.rank a :=
      Superclasses.rank_commonSuper_lt hne
    have hao : a ≠ ClassName.object := by
      rintro rfl
      exact hroot (s.lawful.root b)
    generalize s.hierarchy.commonSuper a b = d at hlt hroot
    simp only [instanceOf, caughtHeight, if_neg hat, if_neg hao, if_neg hroot]
    split <;> omega

/-- A join with a caught class that is not the first type is lower. -/
theorem caughtHeight_join_lt (ht : s.hierarchy.ThrowableBelowRoot) {x y : VType} {c : ClassName}
    (hj : x.join s.hierarchy.caught (instanceOf c) = some y) (hne : y ≠ x) :
    y.caughtHeight s < x.caughtHeight s := by
  rcases join_cases hj with ⟨-, rfl⟩ | ⟨rfl, -, rfl⟩ | ⟨-, -, rfl⟩ | ⟨r, u, -, rfl, -, -⟩
  · exact absurd rfl hne
  · have := caughtHeight_instanceOf_le s c
    change _ < s.size + 5
    omega
  · exact absurd rfl hne
  · cases r with
    | object a =>
      change (instanceOf a).join _ _ = _ at hj
      rw [join_caught_instances] at hj
      cases hj
      exact caughtHeight_joinCaught_lt ht fun he => hne (by rw [he]; rfl)
    | objectArray m a =>
      have he : y = instanceOf ClassName.object := by
        simpa [join, RefType.join, instanceOf] using hj.symm
      rw [he]
      exact Nat.lt_succ_of_le (caughtHeight_root_le s)
    | primitiveArray m a =>
      have he : y = instanceOf ClassName.object := by
        simpa [join, RefType.join, instanceOf] using hj.symm
      rw [he]
      exact Nat.lt_succ_of_le (caughtHeight_root_le s)

end VType

end Types

/-- Things that were replaced by themselves or by something smaller. -/
theorem total_descends {α : Type} {size : α → Nat} {xs ys : List α}
    (h : List.Forall₂ (fun x y => y = x ∨ size y < size x) xs ys) :
    total size ys ≤ total size xs ∧ (ys ≠ xs → total size ys < total size xs) := by
  induction h with
  | nil => exact ⟨Nat.le_refl _, fun h => absurd rfl h⟩
  | @cons x y xs ys head _ ih =>
    obtain ⟨hle, hlt⟩ := ih
    simp only [total_cons]
    rcases head with rfl | hhead
    · refine ⟨by omega, fun hne => ?_⟩
      have := hlt fun he => hne (by rw [he])
      omega
    · exact ⟨by omega, fun _ => by omega⟩

namespace Frame

/-- The height of a frame, given those of stack entries: each local counts one more than its
type. -/
def height (s : Superclasses) (ofEntry : VType → Nat) (f : Frame) : Nat :=
  total (fun t => 1 + t.height s) f.locals.toList + total ofEntry f.stack.toList

variable {s : Superclasses} {g : Hierarchy} {ofEntry : VType → Nat} {f k m : Frame}

/-- The locals of a merge are those of the frame or lower. -/
theorem Merged.locals_descend (hm : Merged g s.hierarchy f k m) :
    total (fun t => 1 + t.height s) m.locals.toList ≤
        total (fun t => 1 + t.height s) f.locals.toList ∧
      (m.locals ≠ f.locals → total (fun t => 1 + t.height s) m.locals.toList <
        total (fun t => 1 + t.height s) f.locals.toList) := by
  have hmet : List.Forall₂ (fun x y : VType => y = x ∨ 1 + y.height s < 1 + x.height s)
      f.locals.toList (metLocals s.hierarchy f k).toList := by
    rw [List.forall₂_iff_get]
    refine ⟨by simp, fun i h₁ h₂ => ?_⟩
    by_cases he : f.locals[i].meet s.hierarchy (k.local? i) = f.locals[i]
    · left
      simpa [metLocals] using he
    · right
      have := VType.height_meet_lt he
      simpa [metLocals] using this
  obtain ⟨hle, hlt⟩ := total_descends hmet
  obtain ⟨dropped, hd⟩ := trimLocals_append (metLocals s.hierarchy f k)
  rw [← hm.locals] at hd
  rw [← hd, total_append] at hle
  rw [← hd, total_append] at hlt
  refine ⟨by omega, fun hne => ?_⟩
  cases dropped with
  | zero =>
    have : m.locals.toList ++ List.replicate 0 VerificationType.top ≠ f.locals.toList := by
      simpa [Array.toList_inj] using hne
    have := hlt this
    omega
  | succ n =>
    rw [List.replicate_succ, total_cons] at hle
    omega

/-- A merge lowers a frame unless it leaves it as it is. -/
theorem Merged.descends (hm : Merged g s.hierarchy f k m)
    (hentry : ∀ t ∈ k.stack.toList, ∀ x y, x.join g t = some y → y ≠ x → ofEntry y < ofEntry x) :
    m.height s ofEntry ≤ f.height s ofEntry ∧
      (f.changedBy m = true → m.height s ofEntry < f.height s ofEntry) := by
  have hstack : ∀ {xs ts ys : List VType}, Joins g xs ts ys →
      (∀ t ∈ ts, ∀ x y, x.join g t = some y → y ≠ x → ofEntry y < ofEntry x) →
      List.Forall₂ (fun x y => y = x ∨ ofEntry y < ofEntry x) xs ys := by
    intro xs ts ys hj
    induction hj with
    | nil => exact fun _ => .nil
    | @cons a b c as bs cs head tail ih =>
      intro h
      refine .cons ?_ (ih fun t ht => h t (List.mem_cons_of_mem _ ht))
      by_cases he : c = a
      · exact Or.inl he
      · exact Or.inr (h b List.mem_cons_self a c head he)
  obtain ⟨hle, hlt⟩ := total_descends (hstack hm.joins hentry)
  obtain ⟨hle', hlt'⟩ := hm.locals_descend
  unfold height
  refine ⟨by omega, fun hc => ?_⟩
  simp only [changedBy, Bool.or_eq_true, bne_iff_ne] at hc
  rcases hc with hc | hc
  · have := hlt (Ne.symm hc)
    omega
  · have := hlt' (Ne.symm hc)
    omega

end Frame

end JvmClass
