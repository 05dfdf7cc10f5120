/-!
# Chained tables

A table answers keys with values, and it only grows. Its links stand in one arena, in the order in
which they were added. Every bucket knows its newest link and every link the next older one of its
bucket, so that a key is sought along the chain of one bucket. Once the links outnumber three
quarters of the buckets, the buckets are doubled and all links are chained anew.

A chain leads from newer links to older ones, which is why a search along it ends.
-/

namespace JvmClass

/-- A key with its value and its hash, and the next older link of its bucket. -/
structure ChainLink (α β : Type) where
  key : α
  value : β
  hash : UInt64
  older : Option Nat

/-- Links, and the newest link of each bucket. -/
structure Chains (α β : Type) where
  newest : Array (Option Nat)
  links : Array (ChainLink α β)

namespace Chains

variable {α β : Type}

/-- A number of empty buckets. -/
def withBuckets (count : Nat) : Chains α β := ⟨Array.replicate count none, #[]⟩

/-- The bucket of a hash; there are as many buckets as a power of two. -/
def bucket (c : Chains α β) (hash : UInt64) : Nat :=
  (hash &&& UInt64.ofNat (c.newest.size - 1)).toNat

/-- The newest link of the bucket of a hash. -/
def front (c : Chains α β) (hash : UInt64) : Option Nat := c.newest[c.bucket hash]?.join

/-- Adds a link in front of its bucket. -/
def attach (c : Chains α β) (key : α) (value : β) (hash : UInt64) : Chains α β :=
  let link : ChainLink α β := ⟨key, value, hash, c.front hash⟩
  { newest := c.newest.setIfInBounds (c.bucket hash) (some c.links.size)
    links := c.links.push link }

/-- Chains all links anew in twice as many buckets. -/
def rehash (c : Chains α β) : Chains α β :=
  c.links.foldl (fun grown link => grown.attach link.key link.value link.hash)
    (withBuckets (2 * c.newest.size))

/-- What was added, oldest first. -/
def pairs (c : Chains α β) : List (α × β) := c.links.toList.map fun link => (link.key, link.value)

/-- Chains that come about by attaching keys under their hashes. -/
inductive Linked [Hashable α] : Chains α β → Prop where
  | withBuckets {count : Nat} (h : 0 < count) : Linked (withBuckets count)
  | attach {c : Chains α β} (key : α) (value : β) (h : Linked c) :
    Linked (c.attach key value (hash key))

variable [Hashable α] {c : Chains α β}

theorem Linked.newest_pos (h : c.Linked) : 0 < c.newest.size := by
  induction h with
  | withBuckets h => simpa [Chains.withBuckets] using h
  | attach key value _ ih => simpa [Chains.attach] using ih

theorem Linked.bucket_lt (h : c.Linked) (hash : UInt64) : c.bucket hash < c.newest.size := by
  have hpos := h.newest_pos
  have hand : c.bucket hash ≤ (UInt64.ofNat (c.newest.size - 1)).toNat := by
    rw [bucket, UInt64.toNat_and]
    exact Nat.and_le_right
  have hmod : (UInt64.ofNat (c.newest.size - 1)).toNat ≤ c.newest.size - 1 := by
    rw [UInt64.toNat_ofNat']
    exact Nat.mod_le _ _
  omega

/-- Buckets lead to links. -/
theorem Linked.front_lt (h : c.Linked) {b i : Nat} (hi : c.newest[b]?.join = some i) :
    i < c.links.size := by
  induction h with
  | withBuckets _ =>
    simp only [Chains.withBuckets, Array.getElem?_replicate] at hi
    split at hi <;> cases hi
  | attach key value _ ih =>
    simp only [Chains.attach, Array.getElem?_setIfInBounds, Array.size_push] at hi ⊢
    split at hi
    · split at hi
      · cases hi
        omega
      · cases hi
    · have := ih hi
      omega

/-- Chains lead from newer links to older ones. -/
theorem Linked.older_lt (h : c.Linked) {i j : Nat} {link : ChainLink α β}
    (hi : c.links[i]? = some link) (hj : link.older = some j) : j < i := by
  induction h with
  | withBuckets _ => simp [Chains.withBuckets] at hi
  | attach key value h ih =>
    simp only [Chains.attach, Array.getElem?_push] at hi
    split at hi
    · rename_i hlast
      cases hi
      rw [hlast]
      exact h.front_lt hj
    · exact ih hi

theorem Linked.hash_eq (h : c.Linked) {link : ChainLink α β} (hl : link ∈ c.links) :
    link.hash = hash link.key := by
  induction h with
  | withBuckets _ => simp [Chains.withBuckets] at hl
  | attach key value _ ih =>
    rcases Array.mem_push.1 hl with hl | rfl
    · exact ih hl
    · rfl

/-- Chaining links anew keeps what was added. -/
theorem Linked.rehash (h : c.Linked) : c.rehash.Linked ∧ c.rehash.pairs = c.pairs := by
  have hfold (links : List (ChainLink α β)) (grown : Chains α β) (hg : grown.Linked)
      (hall : ∀ link ∈ links, link.hash = hash link.key) :
      let all := links.foldl (fun grown link => grown.attach link.key link.value link.hash) grown
      all.Linked ∧ all.pairs = grown.pairs ++ links.map fun link => (link.key, link.value) := by
    induction links generalizing grown with
    | nil => exact ⟨hg, (List.append_nil _).symm⟩
    | cons link rest ih =>
      have hhash : link.hash = hash link.key := hall link List.mem_cons_self
      rw [List.foldl_cons, hhash]
      obtain ⟨hl, hp⟩ := ih _ (hg.attach link.key link.value)
        fun l hl => hall l (List.mem_cons_of_mem _ hl)
      refine ⟨hl, ?_⟩
      rw [hp]
      simp [pairs, Chains.attach]
  have hpos := h.newest_pos
  obtain ⟨hl, hp⟩ := hfold c.links.toList (Chains.withBuckets (2 * c.newest.size))
    (.withBuckets (by omega)) fun link hl => h.hash_eq (Array.mem_toList_iff.1 hl)
  rw [Chains.rehash, ← Array.foldl_toList]
  exact ⟨hl, hp⟩

/-- Seeks a key along a chain. -/
def seek [BEq α] (c : Chains α β) (h : c.Linked) (key : α) (hash : UInt64) (i : Nat) : Option β :=
  match _hi : c.links[i]? with
  | none => none
  | some link =>
    if link.hash == hash && link.key == key then some link.value
    else
      match _hj : link.older with
      | none => none
      | some j => c.seek h key hash j
termination_by i
decreasing_by exact h.older_lt _hi _hj

/-- The value of a key, which is sought in the bucket of its hash. -/
def get? [BEq α] (c : Chains α β) (h : c.Linked) (key : α) : Option β :=
  (c.front (hash key)).bind (c.seek h key (hash key))

end Chains

/-- A table whose links can be followed. -/
structure ChainTable (α β : Type) [Hashable α] where
  chains : Chains α β
  linked : chains.Linked

namespace ChainTable

variable {α β : Type} [Hashable α]

instance : EmptyCollection (ChainTable α β) := ⟨⟨.withBuckets 64, .withBuckets (by decide)⟩⟩

/-- Doubles the buckets once the links outnumber three quarters of them. -/
def grown (t : ChainTable α β) : ChainTable α β :=
  if t.chains.links.size > t.chains.newest.size * 3 / 4 then ⟨t.chains.rehash, t.linked.rehash.1⟩
  else t

/-- Adds a key, which takes the place of an equal one. -/
def insert (t : ChainTable α β) (key : α) (value : β) : ChainTable α β :=
  grown ⟨t.chains.attach key value (hash key), t.linked.attach key value⟩

variable [BEq α]

/-- The value of a key. -/
def get? (t : ChainTable α β) (key : α) : Option β := t.chains.get? t.linked key

def contains (t : ChainTable α β) (key : α) : Bool := (t.get? key).isSome

instance : GetElem? (ChainTable α β) α β fun t key => t.contains key where
  getElem t key h := (t.get? key).get h
  getElem? t key := t.get? key

end ChainTable

end JvmClass
