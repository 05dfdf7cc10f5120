import Mathlib.Data.Finset.Card
import Mathlib.Logic.Relation
import JvmClass.Proofs.Typing.AncestorChains

/-!
# Ancestors in a table of superclasses

`Superclasses.ancestors` follows recorded superclasses until the chain ends or would repeat itself,
so it lists exactly the classes that can be reached, and the root. This holds of every table, also
of one that is cyclic or that gives the root a superclass. From it follow the laws that joins rest
on: the answer of `commonSuper` is an ancestor of both classes, it is the first class itself exactly
when that is an ancestor of the second, and every other answer has fewer ancestors than the first
class (`rank`). Whatever is an ancestor of both classes is one of the answer.
-/

namespace JvmClass

namespace Superclasses

variable {s : Superclasses} {a b c top : ClassName} {line : List ClassName} {n : Nat}

/-- `b` is `a` or is reached from it by recorded superclasses. -/
def Reaches (s : Superclasses) : ClassName → ClassName → Prop := Relation.ReflTransGen s.Extends

instance : Trans s.Reaches s.Reaches s.Reaches := ⟨Relation.ReflTransGen.trans⟩

theorem pairwise_reaches (h : line.IsChain s.Extends) : line.Pairwise s.Reaches :=
  List.isChain_iff_pairwise.1 (h.imp fun _ _ => Relation.ReflTransGen.single)

/-- The members of a line are reached from the class that it starts with. -/
theorem Line.reaches (h : s.Line a top line) : ∀ c ∈ line, s.Reaches a c := by
  obtain ⟨rest, rfl⟩ := List.head?_eq_some_iff.1 h.starts
  intro c hc
  rcases List.mem_cons.1 hc with rfl | hc
  · exact .refl
  · exact (List.pairwise_cons.1 (pairwise_reaches h.follows)).1 c hc

/-- The last class of a line is reached from its members. -/
theorem Line.reaches_top (h : s.Line a top line) : ∀ c ∈ line, s.Reaches c top := by
  intro c hc
  have hpairs := pairwise_reaches h.follows
  rw [← List.dropLast_append_getLast? top h.ends] at hpairs
  rcases h.mem_cases hc with hc | rfl
  · exact (List.pairwise_append.1 hpairs).2.2 c hc top (List.mem_singleton_self top)
  · exact .refl

/-- The loop leaves a line that has every superclass of its members. -/
theorem Climbed.closed (h : s.Climbed a n top line) :
    ∀ c ∈ line, ∀ parent, s.Extends c parent → parent ∈ line := by
  intro c hc parent superclass
  rcases h.mem_cases hc with hc | rfl
  · obtain ⟨next, hnext, hstep⟩ := h.exists_extends c hc
    cases hstep.symm.trans superclass
    exact hnext
  · exact h.stops parent superclass

theorem Climbed.mem_iff (h : s.Climbed a n top line) : c ∈ line ↔ s.Reaches a c := by
  constructor
  · exact h.reaches c
  · intro hreach
    induction hreach with
    | refl => exact h.start_mem
    | tail _ hstep ih => exact h.closed _ ih _ hstep

/-- The ancestors of a class are the classes that can be reached from it, and the root. -/
theorem mem_ancestors_iff : c ∈ s.ancestors a ↔ s.Reaches a c ∨ c = ClassName.object := by
  obtain ⟨steps, top, line, h⟩ := exists_climbed s a
  rw [h.ancestors_eq, List.mem_append, h.mem_iff]
  split
  · rename_i hroot
    constructor
    · exact fun hc => Or.inl (hc.resolve_right List.not_mem_nil)
    · rintro (hc | rfl)
      · exact Or.inl hc
      · exact Or.inl (h.mem_iff.1 (List.mem_of_getLast? hroot))
  · rw [List.mem_singleton]

theorem self_mem_ancestors (s : Superclasses) (a : ClassName) : a ∈ s.ancestors a :=
  mem_ancestors_iff.2 (Or.inl Relation.ReflTransGen.refl)

theorem root_mem_ancestors (s : Superclasses) (a : ClassName) : ClassName.object ∈ s.ancestors a :=
  mem_ancestors_iff.2 (Or.inr rfl)

/-- Ancestors of an ancestor are ancestors. The root is excepted, above which a table may go on. -/
theorem mem_ancestors_trans (h : c ∈ s.ancestors b) (hb : b ∈ s.ancestors a)
    (hroot : b ≠ ClassName.object) : c ∈ s.ancestors a := by
  rw [mem_ancestors_iff] at h hb ⊢
  rcases h with h | rfl
  · rcases hb with hb | rfl
    · exact Or.inl (hb.trans h)
    · exact absurd rfl hroot
  · exact Or.inr rfl

theorem head?_ancestors (s : Superclasses) (a : ClassName) : (s.ancestors a).head? = some a := by
  obtain ⟨steps, top, line, h⟩ := exists_climbed s a
  rw [h.ancestors_eq, List.head?_append, h.starts]
  rfl

theorem getLast?_ancestors (s : Superclasses) (a : ClassName) :
    (s.ancestors a).getLast? = some ClassName.object := by
  obtain ⟨steps, top, line, h⟩ := exists_climbed s a
  rw [h.ancestors_eq]
  split
  · rwa [List.append_nil]
  · exact List.getLast?_concat

/-- The superclass that two classes have in common is an ancestor of both. -/
theorem commonSuper_spec (s : Superclasses) (a b : ClassName) :
    s.commonSuper a b ∈ s.ancestors a ∧ s.commonSuper a b ∈ s.ancestors b := by
  simp only [commonSuper]
  cases hf : (s.ancestors a).find? (s.ancestors b).contains with
  | none => exact ⟨root_mem_ancestors s a, root_mem_ancestors s b⟩
  | some c =>
    exact ⟨List.mem_of_find?_eq_some hf, List.contains_iff_mem.1 (List.find?_some hf)⟩

/-- Whatever calls filled the table, the loop from a class ends after at most as many steps as the
table has entries. It leaves a line of distinct classes, which starts with the class and follows the
latest calls until there is no superclass that it does not have. The ancestors of the class are that
line, with the root behind it if the line does not end there, and the superclass in common with
another class is an ancestor of both. -/
theorem ancestors_ofCalls (calls : List (ClassName × ClassName)) (a b : ClassName) :
    ∃ steps line, steps ≤ (ofCalls calls).size ∧ (ofCalls calls).Climbs steps a [a] line ∧
      (ofCalls calls).ancestors a =
        line ++ (if line.getLast? = some ClassName.object then [] else [ClassName.object]) ∧
      line.head? = some a ∧
      line.IsChain (fun cls superclass => calls.reverse.lookup cls = some superclass) ∧
      line.Nodup ∧
      (∀ last ∈ line.getLast?, ∀ superclass, calls.reverse.lookup last = some superclass →
        superclass ∈ line) ∧
      ((ofCalls calls).ancestors a).getLast? = some ClassName.object ∧
      (ofCalls calls).commonSuper a b ∈ (ofCalls calls).ancestors a ∧
      (ofCalls calls).commonSuper a b ∈ (ofCalls calls).ancestors b := by
  obtain ⟨steps, top, line, h⟩ := exists_climbed (ofCalls calls) a
  have hfollows : line.IsChain fun cls superclass =>
      calls.reverse.lookup cls = some superclass :=
    h.follows.imp fun cls _ hstep => (parents_ofCalls calls cls).symm.trans hstep
  have hstops : ∀ last ∈ line.getLast?, ∀ superclass,
      calls.reverse.lookup last = some superclass → superclass ∈ line := by
    intro last hlast superclass hlatest
    rw [h.ends] at hlast
    cases hlast
    exact h.stops superclass ((parents_ofCalls calls top).trans hlatest)
  exact ⟨steps, line, h.bounded, h.run, h.ancestors_eq, h.starts, hfollows, h.distinct,
    hstops, getLast?_ancestors _ a, commonSuper_spec _ a b⟩

theorem pairwise_ancestors (s : Superclasses) (a : ClassName) :
    (s.ancestors a).Pairwise fun earlier later => later ∈ s.ancestors earlier := by
  obtain ⟨steps, top, line, h⟩ := exists_climbed s a
  have hline : line.Pairwise fun earlier later => later ∈ s.ancestors earlier :=
    (pairwise_reaches h.follows).imp fun hreach => mem_ancestors_iff.2 (Or.inl hreach)
  rw [h.ancestors_eq]
  split
  · rwa [List.append_nil]
  · refine List.pairwise_append.2 ⟨hline, List.pairwise_singleton _ _, ?_⟩
    intro c hc root hroot
    rw [List.mem_singleton.1 hroot]
    exact root_mem_ancestors s c

/-- An ancestor of two classes is an ancestor of the superclass that they have in common. -/
theorem mem_ancestors_commonSuper (ha : c ∈ s.ancestors a) (hb : c ∈ s.ancestors b) :
    c ∈ s.ancestors (s.commonSuper a b) := by
  simp only [commonSuper]
  cases hf : (s.ancestors a).find? (s.ancestors b).contains with
  | none => exact absurd (List.contains_iff_mem.2 hb) (List.find?_eq_none.1 hf c ha)
  | some first =>
    -- What stands before the answer is no ancestor of the other class, so `c` does not.
    obtain ⟨-, front, rest, heq, hfront⟩ := List.find?_eq_some_iff_append.1 hf
    have hpairs := pairwise_ancestors s a
    rw [heq] at ha hpairs
    rcases List.mem_append.1 ha with hc | hc
    · have hnot := hfront c hc
      rw [List.contains_iff_mem.2 hb] at hnot
      cases hnot
    · rcases List.mem_cons.1 hc with rfl | hc
      · exact self_mem_ancestors s c
      · exact (List.pairwise_cons.1 (List.pairwise_append.1 hpairs).2.1).1 c hc

theorem commonSuper_eq_left_iff : s.commonSuper a b = a ↔ a ∈ s.ancestors b := by
  constructor
  · intro h
    have := (commonSuper_spec s a b).2
    rwa [h] at this
  · intro h
    simp only [commonSuper]
    have hhead := head?_ancestors s a
    cases hl : s.ancestors a with
    | nil => rw [hl] at hhead; cases hhead
    | cons x rest =>
      rw [hl] at hhead
      cases hhead
      rw [List.find?_cons_of_pos (List.contains_iff_mem.2 h)]
      rfl

/-- How many ancestors a class has; none count for the root, which every class extends. -/
def rank (s : Superclasses) (a : ClassName) : Nat :=
  if a = ClassName.object then 0 else (s.ancestors a).toFinset.card

theorem rank_pos (h : a ≠ ClassName.object) : 0 < s.rank a := by
  rw [rank, if_neg h]
  exact Finset.card_pos.2 ⟨a, List.mem_toFinset.2 (self_mem_ancestors s a)⟩

/-- An answer other than the first class is closer to the root. -/
theorem rank_commonSuper_lt (h : s.commonSuper a b ≠ a) :
    s.rank (s.commonSuper a b) < s.rank a := by
  obtain ⟨hca, hcb⟩ := commonSuper_spec s a b
  have hab : a ∉ s.ancestors b := fun hm => h (commonSuper_eq_left_iff.2 hm)
  have haroot : a ≠ ClassName.object := fun he => hab (he ▸ root_mem_ancestors s b)
  generalize s.commonSuper a b = c at *
  by_cases hc : c = ClassName.object
  · rw [hc, rank, if_pos rfl]
    exact rank_pos haroot
  · rw [rank, rank, if_neg hc, if_neg haroot]
    apply Finset.card_lt_card
    rw [Finset.ssubset_iff_of_subset]
    · refine ⟨a, List.mem_toFinset.2 (self_mem_ancestors s a), fun hm => hab ?_⟩
      exact mem_ancestors_trans (List.mem_toFinset.1 hm) hcb hc
    · intro x hx
      exact List.mem_toFinset.2 (mem_ancestors_trans (List.mem_toFinset.1 hx) hca hc)

/-- Ranks are bounded by the size of the table. -/
theorem rank_le (s : Superclasses) (a : ClassName) : s.rank a ≤ s.size + 2 := by
  unfold rank
  split
  · omega
  · -- All ancestors but the class itself and the root are superclasses that the table records.
    have hsub : (s.ancestors a).toFinset ⊆
        insert a (insert ClassName.object
          (s.parents.keys.map fun k => s.parents.getD k k).toFinset) := by
      intro x hx
      simp only [Finset.mem_insert, List.mem_toFinset, List.mem_map]
      rcases mem_ancestors_iff.1 (List.mem_toFinset.1 hx) with h | h
      · rcases Relation.ReflTransGen.cases_tail h with rfl | ⟨y, _, hy⟩
        · exact Or.inl rfl
        · refine Or.inr (Or.inr ⟨y, Std.HashMap.mem_keys.2 (mem_parents_of_extends hy), ?_⟩)
          rw [Std.HashMap.getD_eq_getD_getElem?, hy]
          rfl
      · exact Or.inr (Or.inl h)
    refine (Finset.card_le_card hsub).trans ((Finset.card_insert_le _ _).trans ?_)
    have h1 := Finset.card_insert_le ClassName.object
      (s.parents.keys.map fun k => s.parents.getD k k).toFinset
    have h2 := List.toFinset_card_le (s.parents.keys.map fun k => s.parents.getD k k)
    rw [List.length_map, Std.HashMap.length_keys] at h2
    unfold size
    omega

end Superclasses

end JvmClass
