import JvmClass.ChainTable

/-!
# Answers of chained tables

A table answers a key with the value that was put in under it last. That chains are followed from
newer links to older ones makes it so for the links of one bucket, and growing keeps it, since it
adds the same links in the same order (`ChainTable.getElem?_insert`).
-/

namespace JvmClass

namespace Chains

variable {α β : Type}

/-- Empty buckets lead nowhere. -/
theorem front_withBuckets (count : Nat) (hash : UInt64) :
    (withBuckets count : Chains α β).front hash = none := by
  simp only [front, withBuckets, Array.getElem?_replicate]
  split <;> rfl

theorem pairs_attach (c : Chains α β) (key : α) (value : β) (hash : UInt64) :
    (c.attach key value hash).pairs = c.pairs ++ [(key, value)] := by
  simp [pairs, attach]

variable [Hashable α] [BEq α] {c : Chains α β}

/-- Newer links are of no concern to a search. -/
theorem seek_attach (h : c.Linked) (key : α) (value : β) (sought : α) (hash' : UInt64) {i : Nat}
    (hi : i < c.links.size) :
    (c.attach key value (hash key)).seek (h.attach key value) sought hash' i =
      c.seek h sought hash' i := by
  induction i using Nat.strongRecOn with
  | _ i ih =>
    have hsame : (c.attach key value (hash key)).links[i]? = c.links[i]? := by
      rw [Chains.attach, Array.getElem?_push_lt hi, Array.getElem?_eq_getElem hi]
    rw [seek, seek, hsame]
    split
    · rfl
    · rename_i link hlink
      split
      · rfl
      · split
        · rfl
        · rename_i j hj
          have hlt := h.older_lt hlink hj
          exact ih j hlt (by omega)

variable [LawfulBEq α]

theorem get?_attach (h : c.Linked) (key : α) (value : β) (sought : α) :
    (c.attach key value (hash key)).get? (h.attach key value) sought =
      if key == sought then some value else c.get? h sought := by
  have hbucket (u : UInt64) : (c.attach key value (hash key)).bucket u = c.bucket u := by
    simp [bucket, Chains.attach]
  have hlast : (c.attach key value (hash key)).links[c.links.size]? =
      some ⟨key, value, hash key, c.front (hash key)⟩ := by
    simp [Chains.attach]
  have hfront : (c.attach key value (hash key)).front (hash sought) =
      if c.bucket (hash key) = c.bucket (hash sought) then some c.links.size
      else c.front (hash sought) := by
    rw [front, hbucket, Chains.attach, Array.getElem?_setIfInBounds]
    split
    · rw [if_pos (h.bucket_lt _)]
      rfl
    · rfl
  have hrest {i : Nat} (hi : c.front (hash sought) = some i) :=
    seek_attach h key value sought (hash sought) (h.front_lt hi)
  rw [get?, hfront]
  by_cases hb : c.bucket (hash key) = c.bucket (hash sought)
  · rw [if_pos hb, Option.bind_some, seek, hlast]
    simp only
    by_cases hk : (key == sought) = true
    · rw [eq_of_beq hk]
      simp
    · rw [if_neg (by simp [hk]), if_neg hk]
      have hsame : c.front (hash key) = c.front (hash sought) := by rw [front, hb, front]
      rw [get?]
      split
      · rename_i hnone
        rw [← hsame, hnone]
        rfl
      · rename_i j hj
        rw [hrest (hsame ▸ hj), ← hsame, hj]
        rfl
  · have hk : ¬ (key == sought) = true := fun hk => hb (by rw [eq_of_beq hk])
    rw [if_neg hb, if_neg hk, get?]
    cases hf : c.front (hash sought) with
    | none => rfl
    | some i => exact hrest hf

/-- The newest value of a key is its value. -/
theorem get?_eq_lookup (h : c.Linked) (sought : α) :
    c.get? h sought = c.pairs.reverse.lookup sought := by
  induction h with
  | withBuckets _ => rw [get?, front_withBuckets]; rfl
  | attach key value h ih =>
    rw [get?_attach h, pairs_attach, List.reverse_append, List.reverse_singleton,
      List.singleton_append, List.lookup_cons, ih, BEq.comm (a := key)]
    cases sought == key <;> rfl

end Chains

namespace ChainTable

variable {α β : Type} [Hashable α] [BEq α]

theorem contains_eq_isSome_getElem? (t : ChainTable α β) (key : α) :
    t.contains key = t[key]?.isSome := rfl

@[simp] theorem getElem?_empty (key : α) : (∅ : ChainTable α β)[key]? = none := by
  show Chains.get? (.withBuckets 64) _ key = none
  rw [Chains.get?, Chains.front_withBuckets]
  rfl

variable [LawfulBEq α]

theorem get?_grown (t : ChainTable α β) (sought : α) : t.grown.get? sought = t.get? sought := by
  unfold grown
  split
  · rw [get?, get?, Chains.get?_eq_lookup, Chains.get?_eq_lookup, t.linked.rehash.2]
  · rfl

/-- An added key has its value, and the others have theirs, whether or not the buckets grow. -/
theorem getElem?_insert (t : ChainTable α β) (key : α) (value : β) (sought : α) :
    (t.insert key value)[sought]? = if key == sought then some value else t[sought]? :=
  (get?_grown _ sought).trans (Chains.get?_attach t.linked key value sought)

end ChainTable

end JvmClass
