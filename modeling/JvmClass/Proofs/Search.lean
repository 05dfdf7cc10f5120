import JvmClass.Search

/-!
# Finding entries by their keys

In a table whose keys ascend, halving tells the keys that are smaller than a given one from the
others, and so finds the place of a key that is there.
-/

namespace JvmClass

variable {β : Type} {entries : Array (Nat × β)} {key k : Nat}

/-- Whether the key at a position is smaller than the one that is sought. -/
def isBelow (entries : Array (Nat × β)) (key i : Nat) : Bool :=
  match entries[i]? with
  | some (start, _) => decide (start < key)
  | none => false

theorem isBelow_eq {i : Nat} (hi : i < entries.size) :
    isBelow entries key i = decide (entries[i].1 < key) := by
  rw [isBelow, Array.getElem?_eq_getElem hi]

/-- The keys before the place that halving finds are smaller, and no others are. -/
theorem partitionPoint_splits (h : entries.toList.Pairwise fun x y => x.1 < y.1) (key : Nat) :
    partitionPoint entries.size (isBelow entries key) ≤ entries.size ∧
      ∀ i (hi : i < entries.size),
        i < partitionPoint entries.size (isBelow entries key) ↔ entries[i].1 < key := by
  have hlt (i j : Nat) (hij : i < j) (hj : j < entries.size) : entries[i].1 < entries[j].1 := by
    have := List.pairwise_iff_getElem.1 h i j (by rw [Array.length_toList]; omega)
      (by rwa [Array.length_toList]) hij
    simpa using this
  have hmono (i j : Nat) (hij : i ≤ j) (hj : j < entries.size)
      (hb : isBelow entries key j = true) : isBelow entries key i = true := by
    rw [isBelow_eq hj, decide_eq_true_eq] at hb
    rw [isBelow_eq (Nat.lt_of_le_of_lt hij hj), decide_eq_true_eq]
    rcases Nat.lt_or_eq_of_le hij with hij | rfl
    · exact Nat.lt_trans (hlt i j hij hj) hb
    · exact hb
  obtain ⟨-, hle, hbefore, hafter⟩ := partitionBetween_spec (Nat.zero_le entries.size) hmono
  refine ⟨hle, fun i hi => ⟨fun hp => ?_, fun hkey => Nat.not_le.1 fun hp => ?_⟩⟩
  · have := hbefore i (Nat.zero_le i) hp
    rwa [isBelow_eq hi, decide_eq_true_eq] at this
  · have := hafter i hp hi
    rw [isBelow_eq hi, decide_eq_false_iff_not] at this
    exact this hkey

/-- A key that is there is found at its place. -/
theorem partitionPoint_of_sorted (h : entries.toList.Pairwise fun x y => x.1 < y.1)
    (hk : k < entries.toList.length) (hkey : entries.toList[k].1 = key) :
    (partitionPoint entries.size fun i =>
      match entries[i]? with
      | some (start, _) => decide (start < key)
      | none => false) = k := by
  rw [Array.length_toList] at hk
  rw [Array.getElem_toList] at hkey
  show partitionPoint entries.size (isBelow entries key) = k
  obtain ⟨hle, hsplit⟩ := partitionPoint_splits h key
  generalize partitionPoint entries.size (isBelow entries key) = p at hle hsplit
  have hnot : ¬ k < p := by rw [hsplit k hk, hkey]; exact Nat.lt_irrefl key
  rcases Nat.lt_or_eq_of_le (Nat.not_lt.1 hnot) with hlt | heq
  · -- the entry at the place would have a key below that of a later one, and not be below it
    have hp : ¬ p < p := Nat.lt_irrefl p
    rw [hsplit p (Nat.lt_trans hlt hk)] at hp
    have := List.pairwise_iff_getElem.1 h p k (by rw [Array.length_toList]; omega)
      (by rwa [Array.length_toList]) hlt
    rw [Array.getElem_toList, Array.getElem_toList, hkey] at this
    exact absurd this hp
  · exact heq

end JvmClass
