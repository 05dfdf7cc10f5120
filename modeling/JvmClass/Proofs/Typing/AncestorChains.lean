import Mathlib.Data.List.Chain
import Mathlib.Data.List.Nodup
import Mathlib.Data.List.Perm.Subperm
import JvmClass.Typing.Hierarchy

/-!
# How the chain of a class comes about

A table of superclasses is filled by calls, of which the latest about a class counts. Nothing keeps
the calls from making it cyclic or from giving the root a superclass. `Superclasses.Climbs` is the
loop that follows the table with no limit on its steps; that a superclass which is already in the
chain ends it is all that bounds it. Every class of the chain but the last is in the table and none
is there twice (`Superclasses.Line`), so the loop ends before it has made more steps than the table
has entries (`Superclasses.exists_climbed`), and `Superclasses.ancestors` gives the line that it
ends with, and the root (`Superclasses.Climbed.ancestors_eq`).
-/

namespace JvmClass

namespace Superclasses

/-- The table after some classes were added one after another, each with its superclass. -/
def ofCalls (calls : List (ClassName × ClassName)) : Superclasses :=
  calls.foldl (fun s call => s.add call.1 call.2) empty

theorem ofCalls_snoc (calls : List (ClassName × ClassName)) (call : ClassName × ClassName) :
    ofCalls (calls ++ [call]) = (ofCalls calls).add call.1 call.2 := by
  unfold ofCalls
  rw [List.foldl_append]
  rfl

/-- The table has for a class what the latest call about it says. -/
theorem parents_ofCalls (calls : List (ClassName × ClassName)) (a : ClassName) :
    (ofCalls calls).parents[a]? = calls.reverse.lookup a := by
  induction calls using List.reverseRecOn with
  | nil => exact Std.HashMap.getElem?_empty
  | append_singleton calls call ih =>
    obtain ⟨cls, superclass⟩ := call
    rw [ofCalls_snoc, List.reverse_append, List.reverse_singleton, List.singleton_append,
      List.lookup_cons, ← ih, add, Std.HashMap.getElem?_insert]
    by_cases h : cls = a
    · subst h
      simp
    · rw [if_neg (by simpa using h), beq_eq_false_iff_ne.2 (Ne.symm h)]

variable {s : Superclasses} {a current top parent : ClassName} {line out : List ClassName}
  {n : Nat}

/-- The table records `b` as the superclass of `a`. -/
def Extends (s : Superclasses) (a b : ClassName) : Prop := s.parents[a]? = some b

theorem mem_parents_of_extends (h : s.Extends a parent) : a ∈ s.parents :=
  Std.HashMap.mem_iff_isSome_getElem?.2 (by rw [show s.parents[a]? = some parent from h]; rfl)

/-- A chain of distinct classes that are all in the table is no longer than the table. -/
theorem length_le_size {l : List ClassName} (hn : l.Nodup) (h : ∀ x ∈ l, x ∈ s.parents) :
    l.length ≤ s.size := by
  have hsub : l ⊆ s.parents.keys := fun x hx => Std.HashMap.mem_keys.2 (h x hx)
  have hle := (List.subperm_of_subset hn hsub).length_le
  rwa [Std.HashMap.length_keys] at hle

/-- The loop that follows recorded superclasses from the class that stands last in a chain: how
often its body is entered, and the chain that it ends with. -/
inductive Climbs (s : Superclasses) :
    (steps : Nat) → (current : ClassName) → (chain ends : List ClassName) → Prop
  | unrecorded {current : ClassName} {chain : List ClassName}
    (missing : s.parents[current]? = none) : Climbs s 0 current chain chain
  | repeating {current parent : ClassName} {chain : List ClassName}
    (superclass : s.Extends current parent) (known : parent ∈ chain) :
    Climbs s 1 current chain chain
  | recorded {steps : Nat} {current parent : ClassName} {chain ends : List ClassName}
    (superclass : s.Extends current parent) (new : parent ∉ chain)
    (rest : Climbs s steps parent (chain ++ [parent]) ends) :
    Climbs s (steps + 1) current chain ends

/-- A class, its superclass, the superclass of that and so on up to `top`, none of them twice. -/
structure Line (s : Superclasses) (a top : ClassName) (line : List ClassName) : Prop where
  starts : line.head? = some a
  ends : line.getLast? = some top
  follows : line.IsChain s.Extends
  distinct : line.Nodup

namespace Line

theorem refl (s : Superclasses) (a : ClassName) : s.Line a a [a] where
  starts := rfl
  ends := rfl
  follows := .singleton a
  distinct := List.nodup_singleton a

/-- What one step of the loop does to the chain. -/
theorem push (h : s.Line a current line) (superclass : s.Extends current parent)
    (new : parent ∉ line) : s.Line a parent (line ++ [parent]) where
  starts := by rw [List.head?_append, h.starts]; rfl
  ends := List.getLast?_concat
  follows := by
    refine List.isChain_append.2 ⟨h.follows, .singleton parent, ?_⟩
    intro x hx y hy
    rw [h.ends] at hx
    cases hx
    cases hy
    exact superclass
  distinct := List.nodup_append.2 ⟨h.distinct, List.nodup_singleton parent, fun x hx y hy he =>
    new (List.mem_singleton.1 hy ▸ he ▸ hx)⟩

theorem mem_cases (h : s.Line a top line) {x : ClassName} (hx : x ∈ line) :
    x ∈ line.dropLast ∨ x = top := by
  rw [← List.dropLast_append_getLast? top h.ends] at hx
  exact (List.mem_append.1 hx).imp_right List.mem_singleton.1

theorem start_mem (h : s.Line a top line) : a ∈ line := List.mem_of_head? h.starts

theorem top_mem (h : s.Line a top line) : top ∈ line := List.mem_of_getLast? h.ends

/-- In a line, all classes but the last have a superclass. -/
theorem exists_extends (h : s.Line a top line) :
    ∀ x ∈ line.dropLast, ∃ y ∈ line, s.Extends x y := by
  obtain ⟨-, -, hfollows, -⟩ := h
  induction line with
  | nil => simp
  | cons x rest ih =>
    cases rest with
    | nil => simp
    | cons y rest =>
      obtain ⟨hstep, hrest⟩ := List.isChain_cons_cons.1 hfollows
      intro z hz
      rcases List.mem_cons.1 hz with rfl | hz
      · exact ⟨y, by simp, hstep⟩
      · obtain ⟨u, hu, hzu⟩ := ih hrest z hz
        exact ⟨u, List.mem_cons_of_mem x hu, hzu⟩

theorem mem_parents (h : s.Line a top line) : ∀ x ∈ line.dropLast, x ∈ s.parents := by
  intro x hx
  obtain ⟨y, -, hxy⟩ := h.exists_extends x hx
  exact mem_parents_of_extends hxy

theorem length_le (h : s.Line a top line) : line.length ≤ s.size + 1 := by
  have hle := length_le_size (h.distinct.sublist (List.dropLast_sublist line)) h.mem_parents
  rw [List.length_dropLast] at hle
  omega

/-- If the last class has a superclass too, the table is as long as the whole line. -/
theorem length_le_of_extends (h : s.Line a top line) (superclass : s.Extends top parent) :
    line.length ≤ s.size := by
  refine length_le_size h.distinct fun x hx => ?_
  rcases h.mem_cases hx with hx | rfl
  · exact h.mem_parents x hx
  · exact mem_parents_of_extends superclass

/-- The loop ends. Each step takes a recorded superclass that the chain did not have, and the chain
cannot outgrow the table. -/
theorem exists_climbs {s : Superclasses} {a current : ClassName} {line : List ClassName}
    (h : s.Line a current line) :
    ∃ steps out, steps + line.length ≤ s.size + 1 ∧ s.Climbs steps current line out := by
  cases hnext : s.parents[current]? with
  | none => exact ⟨0, line, by have := h.length_le; omega, .unrecorded hnext⟩
  | some parent =>
    by_cases hknown : parent ∈ line
    · have := h.length_le_of_extends hnext
      exact ⟨1, line, by omega, .repeating hnext hknown⟩
    · have hpush := h.push hnext hknown
      have hroom : line.length + 1 ≤ s.size + 1 := by simpa using hpush.length_le
      obtain ⟨steps, out, hbound, hrun⟩ := hpush.exists_climbs
      rw [List.length_append, List.length_singleton] at hbound
      exact ⟨steps + 1, out, by omega, .recorded hnext hknown hrun⟩
termination_by s.size + 1 - line.length
decreasing_by
  rw [List.length_append, List.length_singleton]
  omega

end Line

/-- What a whole run of the loop leaves: a line from the same class to one that is the end of it,
as it has no superclass or one that the line has already. -/
theorem Climbs.exists_line (h : s.Climbs n current line out) (hline : s.Line a current line) :
    ∃ top, s.Line a top out ∧ ∀ parent, s.Extends top parent → parent ∈ out := by
  induction h with
  | @unrecorded current chain missing =>
    refine ⟨current, hline, fun parent superclass => ?_⟩
    rw [Extends, missing] at superclass
    cases superclass
  | @repeating current parent chain superclass known =>
    refine ⟨current, hline, fun other hother => ?_⟩
    cases superclass.symm.trans hother
    exact known
  | recorded superclass new rest ih => exact ih (hline.push superclass new)

/-- A function that is allowed at least as many steps as the loop makes finds its result. -/
theorem Climbs.climb_eq (h : s.Climbs n current line out) {steps : Nat} (hn : n ≤ steps) :
    s.climb steps current line.reverse = out.reverse := by
  induction h generalizing steps with
  | unrecorded missing =>
    cases steps with
    | zero => rfl
    | succ steps => rw [climb, missing]
  | @repeating current parent chain superclass known =>
    obtain ⟨steps, rfl⟩ := Nat.exists_eq_add_of_le' hn
    rw [climb, show s.parents[current]? = some parent from superclass]
    exact if_pos (List.contains_iff_mem.2 (List.mem_reverse.2 known))
  | @recorded made current parent chain ends superclass new rest ih =>
    obtain ⟨steps, rfl⟩ := Nat.exists_eq_add_of_le' hn
    have hnot : ¬ chain.reverse.contains parent = true := fun hc =>
      new (List.mem_reverse.1 (List.contains_iff_mem.1 hc))
    have hih := ih (Nat.le_add_left made steps)
    rw [List.reverse_append, List.reverse_singleton, List.singleton_append] at hih
    rw [climb.eq_def]
    simp only [show s.parents[current]? = some parent from superclass, if_neg hnot]
    exact hih

/-- What the loop from a class leaves, and after how many steps. -/
structure Climbed (s : Superclasses) (a : ClassName) (steps : Nat) (top : ClassName)
    (line : List ClassName) : Prop extends Line s a top line where
  run : s.Climbs steps a [a] line
  bounded : steps ≤ s.size
  stops : ∀ parent, s.Extends top parent → parent ∈ line

theorem exists_climbed (s : Superclasses) (a : ClassName) :
    ∃ steps top line, s.Climbed a steps top line := by
  obtain ⟨steps, line, hbound, hrun⟩ := (Line.refl s a).exists_climbs
  obtain ⟨top, hline, hstops⟩ := hrun.exists_line (Line.refl s a)
  exact ⟨steps, top, line, hline, hrun, by simpa using hbound, hstops⟩

/-- The ancestors are what the loop ends with, and the root if it does not stand last there. -/
theorem Climbed.ancestors_eq (h : s.Climbed a n top line) :
    s.ancestors a = line ++ if line.getLast? = some ClassName.object then []
      else [ClassName.object] := by
  have hclimb : s.climb s.size a [a] = line.reverse := h.run.climb_eq h.bounded
  simp only [ancestors, hclimb, List.head?_reverse]
  split
  · rw [List.reverse_reverse, List.append_nil]
  · rw [List.reverse_cons, List.reverse_reverse]

end Superclasses

end JvmClass
