import JvmClass.Image.Basic
import JvmClass.Proofs.Constant.Growth

/-!
# Copies of pools

The bytes of a pool are a run of entries, and registering those entries gives its answers
(`ConstantPool.Backed`). Requests keep this, so that a copy of what a pool stores is the pool
itself, and an image that has read it finds every constant at the index that requests are answered
with (`ClassImage.Holds`).
-/

namespace JvmClass

/-- The entries of a pool section with their indices. -/
def indexed (v : SlotVec Constant) : List (PoolIndex × Constant) :=
  v.entries.toList.map fun (index, constant) => (UInt16.ofNat index, constant)

theorem indexed_push (v : SlotVec Constant) (c : Constant) :
    indexed (v.push c) = indexed v ++ [(UInt16.ofNat v.nextOffset, c)] := by
  simp [indexed, SlotVec.push]

namespace ConstantPool

variable {p q r : ConstantPool} {v : SlotVec Constant}

theorem registerAll_append (p : ConstantPool) (front rest : List (PoolIndex × Constant)) :
    p.registerAll (front ++ rest) =
      match p.registerAll front with
      | .ok q => q.registerAll rest
      | .error e => .error e := by
  induction front generalizing p with
  | nil => rfl
  | cons entry front ih =>
    obtain ⟨index, constant⟩ := entry
    simp only [List.cons_append, registerAll]
    split
    · rfl
    · exact ih _

/-- What registering entries decides. -/
structure SameAnswers (p q : ConstantPool) : Prop where
  items : q.items = p.items
  indices : q.indices = p.indices
  nextIndex : q.nextIndex = p.nextIndex

theorem SameAnswers.register (h : SameAnswers p q) (index : PoolIndex) (c : Constant) :
    (p.register index c).items = (q.register index c).items ∧
      (p.register index c).indices = (q.register index c).indices := by
  unfold ConstantPool.register
  rw [h.indices, h.items]
  split
  · exact ⟨h.items.symm, h.indices.symm⟩
  · exact ⟨rfl, rfl⟩

/-- Registering an entry leaves the stored bytes and the bootstrap methods alone. -/
theorem register_rest (p : ConstantPool) (index : PoolIndex) (c : Constant) :
    (p.register index c).bytes = p.bytes ∧ (p.register index c).bootstraps = p.bootstraps ∧
      (p.register index c).positions = p.positions := by
  unfold register
  split <;> exact ⟨rfl, rfl, rfl⟩

/-- Registering entries does not look at the stored bytes or at bootstrap methods. -/
theorem SameAnswers.registerAll {entries : List (PoolIndex × Constant)} (h : SameAnswers p q)
    {p' : ConstantPool} (hp : p.registerAll entries = .ok p') :
    ∃ q', q.registerAll entries = .ok q' ∧ SameAnswers p' q' ∧ q'.bytes = q.bytes ∧
      q'.bootstraps = q.bootstraps ∧ q'.positions = q.positions := by
  induction entries generalizing p q with
  | nil =>
    cases hp
    exact ⟨q, rfl, h, rfl, rfl, rfl⟩
  | cons entry rest ih =>
    obtain ⟨index, c⟩ := entry
    simp only [ConstantPool.registerAll] at hp ⊢
    cases hnext : indexAfter index c with
    | error e =>
      rw [hnext] at hp
      cases hp
    | ok next =>
      rw [hnext] at hp
      simp only at hp ⊢
      obtain ⟨hitems, hindices⟩ := h.register index c
      obtain ⟨hbytes, hboots, hpos⟩ := register_rest q index c
      have hsame : SameAnswers { p.register index c with nextIndex := next }
          { q.register index c with nextIndex := next } := ⟨hitems.symm, hindices.symm, rfl⟩
      obtain ⟨q', hq', hs, hb, ho, hm⟩ := ih hsame hp
      exact ⟨q', hq', hs, hb.trans hbytes, ho.trans hboots, hm.trans hpos⟩

/-- What adding bootstrap methods decides. -/
theorem foldl_addBootstrap (methods : List BootstrapMethod) (p : ConstantPool) :
    methods.foldl addBootstrap p =
      { p with
        bootstraps := p.bootstraps ++ methods.toArray
        positions := (methods.foldl addBootstrap p).positions } := by
  induction methods generalizing p with
  | nil => simp
  | cons m rest ih =>
    rw [List.foldl_cons, ih]
    simp [addBootstrap]

theorem foldl_addBootstrap_congr (methods : List BootstrapMethod)
    (hboots : q.bootstraps = p.bootstraps) (hpos : q.positions = p.positions) :
    (methods.foldl addBootstrap q).positions = (methods.foldl addBootstrap p).positions := by
  induction methods generalizing p q with
  | nil => exact hpos
  | cons m rest ih =>
    refine ih ?_ ?_
    · simp only [addBootstrap, hboots]
    · simp only [addBootstrap, hboots, hpos]

/-- The pool stores the entries, and answers as registering them makes it. -/
structure Backed (p : ConstantPool) (v : SlotVec Constant) : Prop where
  run : Constant.Run (.startingAt 1) p.bytes.toList v
  next : p.nextIndex.toNat = v.nextOffset
  registered : ∃ q, empty.registerAll (indexed v) = .ok q ∧ SameAnswers p q
  positions : (p.bootstraps.toList.foldl addBootstrap empty).positions = p.positions

theorem backed_empty : empty.Backed (.startingAt 1) :=
  ⟨.nil _, rfl, ⟨empty, rfl, rfl, rfl, rfl⟩, rfl⟩

/-- A copy of what a pool stores is the pool. -/
theorem Backed.copy (h : p.Backed v) :
    ConstantPool.copy p.bytes (indexed v) p.bootstraps.toList = .ok p := by
  obtain ⟨q, hq, hitems, hindices, hnext⟩ := h.registered
  have hsame : SameAnswers empty { empty with bytes := p.bytes } := ⟨rfl, rfl, rfl⟩
  obtain ⟨q', hq', ⟨hitems', hindices', hnext'⟩, hbytes, hboots, hpos⟩ := hsame.registerAll hq
  unfold ConstantPool.copy
  rw [hq']
  simp only
  have hp := foldl_addBootstrap_congr (p := empty) p.bootstraps.toList hboots hpos
  rw [foldl_addBootstrap, hp, h.positions]
  cases p
  cases q'
  simp_all [empty]

theorem toNat_indexAfter {index next : PoolIndex} {c : Constant}
    (h : indexAfter index c = .ok next) : next.toNat = index.toNat + c.width := by
  unfold indexAfter at h
  simp only at h
  split at h
  · cases h
    rw [UInt16.toNat_ofNat_of_lt' (by assumption)]
  · cases h

/-- What the second pool has more than the first one: constants behind those that are stored. -/
structure Appended (p : ConstantPool) (v : SlotVec Constant) (q : ConstantPool)
    (constants : List Constant) : Prop where
  backed : q.Backed (v.append constants)
  items : ∃ fresh, indexed (v.append constants) = indexed v ++ fresh ∧
    q.items.toList = p.items.toList ++ fresh
  bytes : q.bytes.toList = p.bytes.toList ++ constants.flatMap Constant.encode

theorem Backed.appended (h : p.Backed v) : p.Appended v p [] :=
  ⟨h, ⟨[], by simp [SlotVec.append_nil]⟩, by simp⟩

theorem Appended.trans {w : SlotVec Constant} {cs ds : List Constant} (h : p.Appended v q cs)
    (hw : v.append cs = w) (h' : q.Appended w r ds) : p.Appended v r (cs ++ ds) := by
  subst hw
  obtain ⟨fresh, hv, hq⟩ := h.items
  obtain ⟨fresh', hw, hr⟩ := h'.items
  refine ⟨?_, ⟨fresh ++ fresh', ?_, ?_⟩, ?_⟩
  · rw [SlotVec.append_append]
    exact h'.backed
  · rw [SlotVec.append_append, hw, hv, List.append_assoc]
  · rw [hr, hq, List.append_assoc]
  · rw [h'.bytes, h.bytes, List.flatMap_append, List.append_assoc]

/-- A request for a constant keeps what is stored and what is answered together. -/
theorem Backed.intern (h : p.Backed v) {c : Constant} (hc : c.Fits) {i : PoolIndex}
    (hi : ConstantPool.intern c p = .ok i q) : ∃ cs, p.Appended v q cs := by
  unfold ConstantPool.intern at hi
  split at hi
  · cases hi
    exact ⟨[], h.appended⟩
  · rename_i hnone
    cases hnext : indexAfter p.nextIndex c with
    | error e =>
      rw [hnext] at hi
      cases hi
    | ok next =>
      rw [hnext] at hi
      cases hi
      obtain ⟨r, hr, hitems, hindices, hnextr⟩ := h.registered
      have hindex : UInt16.ofNat v.nextOffset = p.nextIndex := by
        rw [← h.next, UInt16.ofNat_toNat]
      refine ⟨[c], ⟨?_, ?_, ?_, h.positions⟩, ⟨[(p.nextIndex, c)], ?_, ?_⟩, ?_⟩
      · rw [Bytes.toList_putAll]
        exact h.run.concat (Constant.reads_encode hc _)
      · rw [toNat_indexAfter hnext, h.next]
        rfl
      · have hcontains : r.indices.contains c = false := by
          rw [hindices, ChainTable.contains_eq_isSome_getElem?, hnone]
          rfl
        refine ⟨{ r.register p.nextIndex c with nextIndex := next }, ?_, ?_⟩
        · rw [SlotVec.append_cons, SlotVec.append_nil, indexed_push, registerAll_append, hr, hindex]
          simp only [registerAll, hnext]
        · unfold register
          rw [hcontains]
          exact ⟨by simp [hitems], by simp [hindices], rfl⟩
      · rw [SlotVec.append_cons, SlotVec.append_nil, indexed_push, hindex]
      · rw [Array.toList_push]
      · rw [Bytes.toList_putAll]
        simp

/-- A request for a bootstrap method leaves the constants alone. -/
theorem bootstrapAt_rest {m : BootstrapMethod} {k : UInt16} (h : bootstrapAt m p = .ok k q) :
    q.items = p.items ∧ q.bytes = p.bytes := by
  unfold bootstrapAt at h
  split at h
  · cases h
    exact ⟨rfl, rfl⟩
  · split at h
    · cases h
      exact ⟨rfl, rfl⟩
    · cases h

theorem Backed.bootstrapAt (h : p.Backed v) {m : BootstrapMethod} {k : UInt16}
    (hk : ConstantPool.bootstrapAt m p = .ok k q) : q.Backed v := by
  unfold ConstantPool.bootstrapAt at hk
  split at hk
  · cases hk
    exact h
  · split at hk
    · cases hk
      obtain ⟨r, hr, hitems, hindices, hnext⟩ := h.registered
      refine ⟨h.run, h.next, ⟨r, hr, hitems, hindices, hnext⟩, ?_⟩
      have hboots : (p.bootstraps.toList.foldl addBootstrap empty).bootstraps = p.bootstraps := by
        rw [foldl_addBootstrap]
        simp [empty]
      simp only [addBootstrap, Array.toList_push, List.foldl_append, List.foldl_cons,
        List.foldl_nil, h.positions, hboots]
    · cases hk

/-- Requests append constants to what is stored. -/
theorem Backed.extended (h : p.Backed v) (hq : p.Extended q) : ∃ cs, p.Appended v q cs := by
  induction hq with
  | refl => exact ⟨[], h.appended⟩
  | intern _ hc answer ih =>
    obtain ⟨cs, hcs⟩ := ih
    obtain ⟨ds, hds⟩ := hcs.backed.intern hc answer
    exact ⟨cs ++ ds, hcs.trans rfl hds⟩
  | bootstrapAt _ answer ih =>
    obtain ⟨cs, hcs⟩ := ih
    obtain ⟨hitems, hbytes⟩ := bootstrapAt_rest answer
    exact ⟨cs, hcs.backed.bootstrapAt answer, hitems ▸ hcs.items, hbytes ▸ hcs.bytes⟩

/-- Requests leave no more bootstrap methods than there are positions. -/
theorem Extended.size_bootstraps_le (h : p.Extended q) (hp : p.bootstraps.size ≤ 65536) :
    q.bootstraps.size ≤ 65536 := by
  induction h with
  | refl => exact hp
  | intern _ _ answer ih =>
    unfold ConstantPool.intern at answer
    split at answer
    · cases answer
      exact ih
    · split at answer
      · cases answer
      · cases answer
        exact ih
  | bootstrapAt _ answer ih =>
    unfold ConstantPool.bootstrapAt at answer
    split at answer
    · cases answer
      exact ih
    · split at answer
      · rename_i hlt
        cases answer
        simp only [addBootstrap, Array.size_push]
        omega
      · cases answer

/-- The next index is the one after the last entry. -/
theorem nextIndex_registerAll (hlaid : v.Laid) (hstart : v.start = 1) (hv : v.nextOffset < 65536)
    (h : empty.registerAll (indexed v) = .ok q) : q.nextIndex.toNat = v.nextOffset := by
  cases hlaid with
  | startingAt start =>
    cases h
    exact hstart.symm
  | @push w c hw =>
    rw [indexed_push, registerAll_append] at h
    have hlt : w.nextOffset < 65536 := Nat.lt_of_le_of_lt (Nat.le_add_right _ _) hv
    split at h
    · rename_i r hr
      simp only [registerAll] at h
      split at h
      · cases h
      · rename_i next hnext
        cases h
        rw [toNat_indexAfter hnext, UInt16.toNat_ofNat_of_lt' hlt]
        rfl
    · cases h

/-- A pool that starts as a copy of stored entries. -/
theorem backed_copy {bytes : Bytes} {methods : List BootstrapMethod}
    (hrun : Constant.Run (.startingAt 1) bytes.toList v) (hv : v.nextOffset < 65536)
    (h : ConstantPool.copy bytes (indexed v) methods = .ok p) :
    p.Backed v ∧ p.bytes = bytes ∧ p.bootstraps.toList = methods := by
  unfold ConstantPool.copy at h
  cases hq : ({ empty with bytes } : ConstantPool).registerAll (indexed v) with
  | error e =>
    rw [hq] at h
    cases h
  | ok q =>
    rw [hq] at h
    cases h
    have hsame : SameAnswers { empty with bytes } empty := ⟨rfl, rfl, rfl⟩
    obtain ⟨r, hr, ⟨hitems, hindices, hnext⟩, -, hrboots, hrpos⟩ := hsame.registerAll hq
    have hback : SameAnswers empty { empty with bytes } := ⟨rfl, rfl, rfl⟩
    obtain ⟨q', hq', -, hbytes, hboots, hpos⟩ := hback.registerAll hr
    obtain rfl : q = q' := Except.ok.inj (hq.symm.trans hq')
    have hlaid := hrun.laid (.startingAt 1)
    have hnextOffset := nextIndex_registerAll hlaid hrun.start_eq hv hr
    rw [foldl_addBootstrap]
    refine ⟨⟨?_, ?_, ⟨r, hr, hitems, hindices, hnext⟩, ?_⟩, hbytes, ?_⟩
    · rw [hbytes]
      exact hrun
    · rw [← hnext]
      exact hnextOffset
    · rw [hboots]
      simp only [empty, Array.toList_append, List.nil_append]
      exact foldl_addBootstrap_congr _ hboots.symm hpos.symm
    · rw [hboots]
      simp [empty]

/-- A constant that has an index keeps it. -/
theorem getElem?_register (p : ConstantPool) (index : PoolIndex) (c d : Constant) :
    (p.register index c).indices[d]? =
      p.indices[d]?.or (if c == d then some index else none) := by
  unfold register
  split
  · rename_i hc
    rw [ChainTable.contains_eq_isSome_getElem?] at hc
    split
    · rename_i he
      obtain ⟨i, hi⟩ := Option.isSome_iff_exists.1 hc
      rw [← eq_of_beq he, hi]
      rfl
    · rw [Option.or_none]
  · rename_i hc
    rw [ChainTable.contains_eq_isSome_getElem?, Bool.not_eq_true, Option.isSome_eq_false_iff,
      Option.isNone_iff_eq_none] at hc
    simp only [ChainTable.getElem?_insert]
    split
    · rename_i he
      rw [← eq_of_beq he, hc]
      rfl
    · rw [Option.or_none]

/-- A pool with registered entries answers as before, or with the first index of a constant among
the entries. -/
theorem getElem?_registerAll {entries : List (PoolIndex × Constant)}
    (h : p.registerAll entries = .ok q) (c : Constant) :
    q.indices[c]? = p.indices[c]?.or ((entries.find? (·.2 == c)).map Prod.fst) := by
  induction entries generalizing p with
  | nil =>
    cases h
    rw [List.find?_nil, Option.map_none, Option.or_none]
  | cons entry rest ih =>
    obtain ⟨index, d⟩ := entry
    simp only [registerAll] at h
    split at h
    · cases h
    · rw [ih h]
      simp only [getElem?_register, Option.or_assoc, List.find?_cons]
      cases d == c <;> rfl

theorem mem_of_foldl_addBootstrap {methods : List BootstrapMethod} {m : BootstrapMethod}
    {k : UInt16} (h : (methods.foldl addBootstrap p).positions[m]? = some k) :
    p.positions[m]? = some k ∨
      ∃ j, k = UInt16.ofNat (p.bootstraps.size + j) ∧ methods[j]? = some m := by
  induction methods generalizing p with
  | nil => exact Or.inl h
  | cons first rest ih =>
    rcases ih h with hp | ⟨j, rfl, hj⟩
    · simp only [addBootstrap, Std.HashMap.getElem?_insertIfNew] at hp
      split at hp
      · rename_i he
        cases hp
        rw [← eq_of_beq he.1]
        exact Or.inr ⟨0, rfl, rfl⟩
      · exact Or.inl hp
    · refine Or.inr ⟨j + 1, ?_, hj⟩
      simp only [addBootstrap, Array.size_push]
      congr 1
      omega

theorem Backed.laid (h : p.Backed v) : v.Laid := h.run.laid (.startingAt 1)

/-- Indices of entries fit sixteen bits. -/
theorem Backed.toNat_offset (h : p.Backed v) {offset : Nat} {c : Constant}
    (hc : (offset, c) ∈ v.entries.toList) : (UInt16.ofNat offset).toNat = offset := by
  obtain ⟨-, hbound, -⟩ := SlotVec.ascending_of_laid (fun c _ => Constant.width_pos c) h.laid
  have hpos := Constant.width_pos c
  have hle : offset + c.width ≤ v.nextOffset := (hbound _ hc).2
  have hlt := p.nextIndex.toNat_lt
  rw [h.next] at hlt
  have hoffset : offset < 65536 := by omega
  exact UInt16.toNat_ofNat_of_lt' hoffset

/-- Requests are answered with the first index of each constant that is stored. -/
theorem Backed.getElem?_indices (h : p.Backed v) (c : Constant) :
    p.indices[c]? =
      (v.entries.toList.find? (·.2 == c)).map fun entry => UInt16.ofNat entry.1 := by
  obtain ⟨q, hq, hsame⟩ := h.registered
  have hempty : empty.indices[c]? = none := ChainTable.getElem?_empty c
  rw [← hsame.indices, getElem?_registerAll hq c, hempty, Option.none_or, indexed, List.find?_map,
    Option.map_map]
  rfl

/-- The entry that a request is answered with stands at the index that is the answer, and nowhere
before it. -/
theorem Backed.first_get? (h : p.Backed v) {c : Constant} {i : PoolIndex}
    (hc : p.indices[c]? = some i) :
    v.get? i.toNat = some c ∧ ∀ n, v.get? n = some c → i.toNat ≤ n := by
  rw [h.getElem?_indices c, Option.map_eq_some_iff] at hc
  obtain ⟨⟨offset, d⟩, hfind, rfl⟩ := hc
  have hmem := List.mem_of_find?_eq_some hfind
  obtain ⟨hd, front, back, hsplit, hfront⟩ := List.find?_eq_some_iff_append.1 hfind
  obtain rfl : d = c := eq_of_beq hd
  simp only
  rw [h.toNat_offset hmem]
  refine ⟨SlotVec.get?_of_mem Constant.width_pos h.laid hmem, fun n hn => ?_⟩
  have hsorted := (SlotVec.ascending_of_laid (fun c _ => Constant.width_pos c) h.laid).1
  have hn := SlotVec.mem_of_get? hn
  rw [hsplit] at hsorted hn
  rcases List.mem_append.1 hn with hn | hn
  · have := hfront _ hn
    simp at this
  · rcases List.mem_cons.1 hn with he | hn
    · cases he
      exact Nat.le_refl _
    · have hrest := (List.pairwise_append.1 hsorted).2.1
      exact Nat.le_of_lt ((List.pairwise_cons.1 hrest).1 _ hn)

theorem Backed.constant_get? (h : p.Backed v) {c : Constant} {i : PoolIndex}
    (hc : p.indices[c]? = some i) : v.get? i.toNat = some c := (h.first_get? hc).1

/-- What is stored has an answer. -/
theorem Backed.answers (h : p.Backed v) {c : Constant} {n : Nat} (hc : v.get? n = some c) :
    ∃ i, p.indices[c]? = some i := by
  rw [h.getElem?_indices c]
  cases hfind : v.entries.toList.find? (·.2 == c) with
  | some entry => exact ⟨_, rfl⟩
  | none =>
    have := List.find?_eq_none.1 hfind _ (SlotVec.mem_of_get? hc)
    simp at this

/-- The bootstrap method that a request is answered with stands at its position. -/
theorem Backed.bootstrap_get? (h : p.Backed v) (hsize : p.bootstraps.size ≤ 65536)
    {m : BootstrapMethod} {k : UInt16} (hk : p.positions[m]? = some k) :
    p.bootstraps[k.toNat]? = some m := by
  rw [← h.positions] at hk
  rcases mem_of_foldl_addBootstrap hk with hp | ⟨j, rfl, hj⟩
  · simp [empty] at hp
  · have hlt : j < p.bootstraps.size := by
      have := (List.getElem?_eq_some_iff.1 hj).1
      rwa [Array.length_toList] at this
    have hj' : j < 65536 := by omega
    have hzero : empty.bootstraps.size + j = j := Nat.zero_add j
    rw [hzero, UInt16.toNat_ofNat_of_lt' hj', ← Array.getElem?_toList]
    exact hj

end ConstantPool

namespace ClassImage

/-- The image has read a pool that answers as the given one does. -/
structure Holds (image : ClassImage) (p : ConstantPool) : Prop where
  constant : ∀ {c : Constant} {i : PoolIndex},
    p.indices[c]? = some i → image.constants.get? i.toNat = some c
  bootstrap : ∀ {m : BootstrapMethod} {k : UInt16},
    p.positions[m]? = some k → image.bootstraps[k.toNat]? = some m
  zero : image.constants.get? 0 = none

theorem Holds.of_grows {image : ClassImage} {p q : ConstantPool} (h : image.Holds q)
    (hp : p.Grows q) : image.Holds p :=
  ⟨fun hc => h.constant (hp.constant hc), fun hm => h.bootstrap (hp.bootstrap hm), h.zero⟩

theorem holds_of_backed {image : ClassImage} {p : ConstantPool} (h : p.Backed image.constants)
    (hsize : p.bootstraps.size ≤ 65536) (hboots : image.bootstraps = p.bootstraps) :
    image.Holds p := by
  refine ⟨h.constant_get?, fun hk => ?_, ?_⟩
  · rw [hboots]
    exact h.bootstrap_get? hsize hk
  · cases hzero : image.constants.get? 0 with
    | none => rfl
    | some c =>
      obtain ⟨-, hbound, -⟩ := SlotVec.ascending_of_laid (fun c _ => Constant.width_pos c) h.laid
      have hle := (hbound _ (SlotVec.mem_of_get? hzero)).1
      rw [h.run.start_eq] at hle
      exact absurd hle (Nat.not_succ_le_zero 0)

/-- Whatever the pool comes to be by requests, some image of any bytes has read it. -/
theorem exists_holds {p : ConstantPool} (h : ConstantPool.empty.Extended p) (data : Bytes) :
    ∃ image : ClassImage, image.data = data ∧ image.Holds p := by
  obtain ⟨cs, hcs⟩ := ConstantPool.backed_empty.extended h
  refine ⟨{ (default : ClassImage) with
    data, constants := (SlotVec.startingAt 1).append cs, bootstraps := p.bootstraps }, rfl,
    holds_of_backed hcs.backed (h.size_bootstraps_le (Nat.zero_le _)) rfl⟩

end ClassImage

end JvmClass
