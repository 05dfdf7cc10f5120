/-!
# Searching an ordered run of positions

`partitionPoint n below` is the first of the positions `0 … n` at which `below` no longer holds,
found by halving. The answer is meaningful when `below` holds on an initial run of the positions,
which is how the sorted tables of this library use it.
-/

namespace JvmClass

/-- Halving search for the end of the run on which `below` holds, between `lo` and `hi`. -/
def partitionBetween (below : Nat → Bool) (lo hi : Nat) : Nat :=
  if lo < hi then
    if below ((lo + hi) / 2) then partitionBetween below ((lo + hi) / 2 + 1) hi
    else partitionBetween below lo ((lo + hi) / 2)
  else lo
termination_by hi - lo

/-- The first position up to `n` at which `below` fails. -/
def partitionPoint (n : Nat) (below : Nat → Bool) : Nat :=
  partitionBetween below 0 n

/-- The answer of a halving search splits its range: `below` holds before it and fails from it
on. -/
theorem partitionBetween_spec {below : Nat → Bool} {lo hi : Nat} (h : lo ≤ hi)
    (mono : ∀ i j, i ≤ j → j < hi → below j = true → below i = true) :
    lo ≤ partitionBetween below lo hi ∧ partitionBetween below lo hi ≤ hi ∧
      (∀ i, lo ≤ i → i < partitionBetween below lo hi → below i = true) ∧
      (∀ i, partitionBetween below lo hi ≤ i → i < hi → below i = false) := by
  fun_induction partitionBetween below lo hi with
  | case1 lo hi hlt hb ih =>
    obtain ⟨h1, h2, h3, h4⟩ := ih (by omega) mono
    refine ⟨by omega, h2, fun i hi1 hi2 => ?_, h4⟩
    by_cases hc : (lo + hi) / 2 + 1 ≤ i
    · exact h3 i hc hi2
    · exact mono i ((lo + hi) / 2) (by omega) (by omega) hb
  | case2 lo hi hlt hb ih =>
    obtain ⟨h1, h2, h3, h4⟩ :=
      ih (by omega) (fun i j hij hj => mono i j hij (by omega))
    refine ⟨h1, by omega, h3, fun i hi1 hi2 => ?_⟩
    by_cases hc : i < (lo + hi) / 2
    · exact h4 i hi1 hc
    · cases hbi : below i with
      | false => rfl
      | true => exact absurd (mono ((lo + hi) / 2) i (by omega) hi2 hbi) hb
  | case3 lo hi hlt =>
    exact ⟨Nat.le_refl _, by omega, fun i h1 h2 => by omega, fun i h1 h2 => by omega⟩

end JvmClass
