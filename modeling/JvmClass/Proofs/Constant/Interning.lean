import JvmClass.Proofs.Constant.Copies

/-!
# Interning

What holds of every pool that requests have made from nothing, whether or not they were answered
(`ConstantPool.Interned`). A request asks for the parts of a constant before the constant itself, so
that an entry is only ever added behind the entries that it refers to: `ConstantPool.Sound` says of
a request that it keeps an invariant provided that some indices are those of entries, and that its
answer names entries in turn. Whatever such additions keep is therefore kept by every run of
requests (`ConstantPool.Kept`). An answer stands for what was asked for, now and after any further
requests (`PoolRequest.Answered`).
-/

namespace JvmClass

/-- The indices of other entries that an entry holds. -/
def Constant.references : Constant → List PoolIndex
  | .cls name | .string name | .methodType name | .module name | .package name => [name]
  | .fieldRef owner member | .methodRef owner member _ => [owner, member]
  | .nameAndType name descriptor => [name, descriptor]
  | .methodHandle _ member | .dynamic _ member | .invokeDynamic _ member => [member]
  | .int _ | .float _ | .long _ | .double _ | .utf8 _ => []

/-- A request to a pool. Numbers, strings, classes, method types, method handles and computed
constants are asked for as loadable values. -/
inductive PoolRequest where
  | utf8 (text : String)
  | nameAndType (name descriptor : String)
  | fieldRef (owner name descriptor : String)
  | methodRef (owner name descriptor : String) (ownerIsInterface : Bool)
  | module (name : String)
  | package (name : String)
  | loadable (value : Loadable)
  | invokeDynamic (name descriptor : String) (handle : Handle) (arguments : List Loadable)
  /-- Answered with a position in the table of bootstrap methods, the others with an index. -/
  | bootstrap (handle : Handle) (arguments : List Loadable)

/-- Puts the request to a pool. -/
def PoolRequest.ask : PoolRequest → ConstantPool.Request UInt16
  | utf8 text => ConstantPool.utf8 text
  | nameAndType name descriptor => ConstantPool.nameAndType name descriptor
  | fieldRef owner name descriptor => ConstantPool.fieldRef owner name descriptor
  | methodRef owner name descriptor ownerIsInterface =>
    ConstantPool.methodRef owner name descriptor ownerIsInterface
  | module name => ConstantPool.module name
  | package name => ConstantPool.package name
  | loadable value => ConstantPool.loadable value
  | invokeDynamic name descriptor handle arguments =>
    ConstantPool.invokeDynamic name descriptor handle arguments
  | bootstrap handle arguments => ConstantPool.bootstrap handle arguments

namespace ConstantPool

variable {α β : Type} {p q r : ConstantPool} {c : Constant} {i j : PoolIndex}

/-- The pool that a request leaves behind, answered or not. -/
def after (p : ConstantPool) (request : Request α) : ConstantPool :=
  match request p with
  | .ok _ q | .error _ q => q

/-- The pool that requests leave behind, one after another. -/
def afterAll (p : ConstantPool) (requests : List PoolRequest) : ConstantPool :=
  requests.foldl (fun p r => p.after r.ask) p

/-- The constants of the pool in the order of their indices. -/
def constants (p : ConstantPool) : List Constant := p.items.toList.map Prod.snd

/-- A pool that requests have made from nothing. -/
structure Interned (p : ConstantPool) : Prop where
  /-- No two entries hold equal constants. -/
  distinct : p.constants.Nodup
  /-- The index of an entry is one more than the slots of the entries before it. -/
  placed : ∀ k i c, p.items.toList[k]? = some (i, c) →
    i.toNat = 1 + total Constant.width (p.constants.take k)
  /-- The count is one more than the slots of all entries. -/
  counted : p.nextIndex.toNat = 1 + total Constant.width p.constants
  /-- Entries refer to entries before them. -/
  backwards : ∀ i c, (i, c) ∈ p.items.toList → ∀ j ∈ c.references, j < i
  /-- Requests are answered with the indices of entries. -/
  answered : ∀ (c : Constant) (i : PoolIndex), p.indices[c]? = some i ↔ (i, c) ∈ p.items.toList
  /-- Requests for bootstrap methods are answered with their positions. -/
  methods : ∀ (m : BootstrapMethod) (k : UInt16),
    p.positions[m]? = some k → p.bootstraps[k.toNat]? = some m

section Order

/-- The slots of an entry, by its place among the entries. -/
theorem Interned.slots (h : p.Interned) {k : Nat} (hk : p.items.toList[k]? = some (i, c)) :
    i.toNat + c.width = 1 + total Constant.width (p.constants.take (k + 1)) := by
  have hc : p.constants[k]? = some c := by rw [constants, List.getElem?_map, hk]; rfl
  rw [h.placed k i c hk, List.take_add_one, hc, total_append]
  simp
  omega

theorem total_take_le (size : α → Nat) (things : List α) {k l : Nat} (h : k ≤ l) :
    total size (things.take k) ≤ total size (things.take l) := by
  rw [← List.take_append_drop k (things.take l), List.take_take, Nat.min_eq_left h, total_append]
  omega

/-- The slots of an entry end where those of a later one start, or before. -/
theorem Interned.apart (h : p.Interned) {k l : Nat} {d : Constant} (hkl : k < l)
    (hk : p.items.toList[k]? = some (i, c)) (hl : p.items.toList[l]? = some (j, d)) :
    i.toNat + c.width ≤ j.toNat := by
  rw [h.slots hk, h.placed l j d hl]
  have := total_take_le Constant.width p.constants (show k + 1 ≤ l from hkl)
  omega

theorem Interned.slots_le (h : p.Interned) (hm : (i, c) ∈ p.items.toList) :
    1 ≤ i.toNat ∧ i.toNat + c.width ≤ p.nextIndex.toNat := by
  obtain ⟨k, hk⟩ := List.getElem?_of_mem hm
  have hplaced := h.placed k i c hk
  have := total_take_le Constant.width p.constants
    (Nat.le_max_left (k + 1) p.constants.length)
  rw [List.take_of_length_le (Nat.le_max_right _ _)] at this
  rw [h.slots hk, h.counted]
  omega

theorem Interned.lt_next (h : p.Interned) (hm : (i, c) ∈ p.items.toList) : i < p.nextIndex := by
  have := (h.slots_le hm).2
  have := Constant.width_pos c
  rw [UInt16.lt_iff_toNat_lt]
  omega

/-- An entry is found under its index. -/
theorem Interned.get?_of_mem (h : p.Interned) (hm : (i, c) ∈ p.items.toList) :
    p.get? i = some c := by
  let entries := p.items.map fun e => (e.1.toNat, e.2)
  obtain ⟨k, hk⟩ := List.getElem?_of_mem hm
  obtain ⟨hlt, hget⟩ := List.getElem?_eq_some_iff.1 hk
  have hsorted : entries.toList.Pairwise fun x y => x.1 < y.1 := by
    simp only [entries, Array.toList_map]
    refine List.pairwise_map.2 (List.pairwise_iff_getElem.2 fun a b ha hb hab => ?_)
    have hapart : p.items.toList[a].1.toNat + p.items.toList[a].2.width ≤
        p.items.toList[b].1.toNat :=
      h.apart hab (List.getElem?_eq_getElem ha) (List.getElem?_eq_getElem hb)
    have := Constant.width_pos p.items.toList[a].2
    omega
  have hk' : k < entries.toList.length := by simpa [entries]
  have hkey : entries.toList[k].1 = i.toNat := by
    simp only [entries, Array.toList_map, List.getElem_map, hget]
  have hplace := partitionPoint_of_sorted hsorted hk' hkey
  rw [Array.getElem?_toList] at hk
  unfold ConstantPool.get?
  generalize hp : partitionPoint p.items.size _ = position
  obtain rfl : position = k := by
    rw [← hp, ← hplace, show entries.size = p.items.size by simp [entries]]
    congr 1
    funext x
    simp only [entries, Array.getElem?_map]
    cases p.items[x]? <;> rfl
  simp only [hk, if_true]

theorem mem_of_get? (h : p.get? i = some c) : (i, c) ∈ p.items.toList := by
  unfold get? at h
  simp only at h
  split at h
  · rename_i start constant hentry
    split at h
    · rename_i he
      cases h
      rw [← he]
      exact Array.mem_toList_iff.2 (Array.mem_of_getElem? hentry)
    · cases h
  · cases h

/-- Indices of entries are not zero, and not within the slots of others. -/
theorem Interned.get?_apart (h : p.Interned) (hi : p.get? i = some c) :
    i ≠ 0 ∧ ∀ j d, (j, d) ∈ p.items.toList → j < i → j.toNat + d.width ≤ i.toNat := by
  have hm := mem_of_get? hi
  refine ⟨?_, fun j d hd hji => ?_⟩
  · rintro rfl
    exact absurd (h.slots_le hm).1 (by decide)
  · obtain ⟨l, hl⟩ := List.getElem?_of_mem hm
    obtain ⟨k, hk⟩ := List.getElem?_of_mem hd
    rw [UInt16.lt_iff_toNat_lt] at hji
    rcases Nat.lt_trichotomy k l with hkl | rfl | hlk
    · exact h.apart hkl hk hl
    · rw [hk] at hl
      cases hl
      omega
    · have := h.apart hlk hl hk
      omega

/-- What requests are answered with is found. -/
theorem Interned.get? (h : p.Interned) (hc : p.indices[c]? = some i) : p.get? i = some c :=
  h.get?_of_mem ((h.answered c i).1 hc)

end Order

section Steps

theorem interned_empty : empty.Interned where
  distinct := List.nodup_nil
  placed k i c hk := by simp [empty] at hk
  counted := rfl
  backwards i c hm := by simp [empty] at hm
  answered c i := by simp [empty]
  methods m k hm := by simp [empty] at hm

/-- A new entry, which refers to entries that are there. -/
theorem Interned.push (h : p.Interned) (hnew : p.indices[c]? = none)
    (hrefs : ∀ j ∈ c.references, j < p.nextIndex) {next : PoolIndex}
    (hnext : indexAfter p.nextIndex c = .ok next) :
    ({ p with
      items := p.items.push (p.nextIndex, c)
      indices := p.indices.insert c p.nextIndex
      bytes := p.bytes.putAll c.encode
      nextIndex := next } : ConstantPool).Interned where
  distinct := by
    simp only [constants, Array.toList_push, List.map_append, List.map_singleton]
    refine List.nodup_append.2 ⟨h.distinct, List.pairwise_singleton _ c, ?_⟩
    rintro d hd _ hc rfl
    obtain rfl := List.mem_singleton.1 hc
    obtain ⟨⟨i, d⟩, hm, rfl⟩ := List.mem_map.1 hd
    rw [(h.answered d i).2 hm] at hnew
    cases hnew
  placed k i d hk := by
    have hsize : p.constants.length = p.items.toList.length := List.length_map ..
    simp only [constants, Array.toList_push, List.map_append, List.map_singleton] at hk ⊢
    rcases Nat.lt_trichotomy k p.items.toList.length with hlt | rfl | hgt
    · rw [List.getElem?_append_left hlt] at hk
      rw [List.take_append_of_le_length (by rw [List.length_map]; omega)]
      exact h.placed k i d hk
    · rw [List.getElem?_concat_length] at hk
      cases hk
      rw [List.take_left' (List.length_map ..)]
      exact h.counted
    · rw [List.getElem?_eq_none (by rw [List.length_append, List.length_singleton]; omega)] at hk
      cases hk
  counted := by
    simp only [constants, Array.toList_push, List.map_append, List.map_singleton, total_append,
      total_cons, total_nil, Nat.add_zero]
    rw [toNat_indexAfter hnext, h.counted, Nat.add_assoc]
    rfl
  backwards i d hm := by
    rw [Array.toList_push, List.mem_append, List.mem_singleton] at hm
    rcases hm with hm | he
    · exact h.backwards i d hm
    · cases he
      exact hrefs
  answered d i := by
    rw [ChainTable.getElem?_insert, Array.toList_push, List.mem_append, List.mem_singleton,
      Prod.mk.injEq]
    split
    · rename_i he
      rw [← eq_of_beq he]
      constructor
      · rintro ⟨⟩
        exact Or.inr ⟨rfl, rfl⟩
      · rintro (hm | ⟨rfl, -⟩)
        · rw [(h.answered c i).2 hm] at hnew
          cases hnew
        · rfl
    · rename_i hne
      rw [h.answered d i]
      refine ⟨Or.inl, ?_⟩
      rintro (hm | ⟨-, rfl⟩)
      · exact hm
      · exact absurd (beq_self_eq_true d) hne
  methods := h.methods

theorem Interned.after_intern (h : p.Interned) (hrefs : ∀ j ∈ c.references, j < p.nextIndex) :
    (p.after (intern c)).Interned := by
  unfold after intern
  cases hc : p.indices[c]? with
  | some i => exact h
  | none =>
    cases hnext : indexAfter p.nextIndex c with
    | error e => exact h
    | ok next => exact h.push hc hrefs hnext

theorem Interned.after_bootstrapAt (h : p.Interned) (m : BootstrapMethod) :
    (p.after (bootstrapAt m)).Interned := by
  unfold after bootstrapAt
  cases hm : p.positions[m]? with
  | some k => exact h
  | none =>
    simp only
    by_cases hsize : p.bootstraps.size < 65536
    · rw [if_pos hsize]
      refine ⟨h.distinct, h.placed, h.counted, h.backwards, h.answered, fun m' k hk => ?_⟩
      simp only [addBootstrap, Std.HashMap.getElem?_insertIfNew] at hk ⊢
      split at hk
      · rename_i he
        cases hk
        rw [UInt16.toNat_ofNat_of_lt' hsize, Array.getElem?_push_size, eq_of_beq he.1]
      · have hfound := h.methods m' k hk
        obtain ⟨hlt, -⟩ := Array.getElem?_eq_some_iff.1 hfound
        rw [Array.getElem?_push_lt hlt, ← Array.getElem?_eq_getElem hlt, hfound]
    · rw [if_neg hsize]
      exact h

end Steps

/-- The index is one that requests are answered with. -/
def Names (p : ConstantPool) (i : PoolIndex) : Prop := ∃ c : Constant, p.indices[c]? = some i

theorem Names.grows (h : p.Names i) (hq : p.Grows q) : q.Names i := h.imp fun _ hc => hq.constant hc

/-- What additions of entries that refer to entries keep, and additions of bootstrap methods. -/
structure Kept (invariant : ConstantPool → Prop) : Prop where
  intern : ∀ {p : ConstantPool} {c : Constant}, invariant p → (∀ j ∈ c.references, p.Names j) →
    invariant (p.after (intern c))
  bootstrapAt : ∀ {p : ConstantPool} (m : BootstrapMethod), invariant p →
    invariant (p.after (bootstrapAt m))

theorem kept_interned : Kept Interned where
  intern {p c} h hrefs := by
    refine h.after_intern fun j hj => ?_
    obtain ⟨d, hd⟩ := hrefs j hj
    exact h.lt_next ((h.answered d j).1 hd)
  bootstrapAt m h := h.after_bootstrapAt m

theorem kept_true : Kept fun _ => True := ⟨fun _ _ => trivial, fun _ _ => trivial⟩

/-- A request that keeps an invariant of the pool, which it only adds to, as long as the known
indices are those of entries; so are then the indices that its answer names. -/
def Sound (invariant : ConstantPool → Prop) (known : List PoolIndex) (request : Request α)
    (named : α → List PoolIndex) : Prop :=
  ∀ p : ConstantPool, invariant p → (∀ i ∈ known, p.Names i) →
    invariant (p.after request) ∧ p.Extended (p.after request) ∧
      ∀ a q, request p = .ok a q → ∀ i ∈ named a, q.Names i

section Requests

variable {invariant : ConstantPool → Prop} {known : List PoolIndex} {request : Request α}
  {named : α → List PoolIndex}

theorem after_of_ok {a : α} (h : request p = .ok a q) : p.after request = q := by
  unfold after
  rw [h]

theorem sound_pure (a : α) (h : ∀ i ∈ named a, i ∈ known) :
    Sound invariant known (pure a) named := by
  intro p hp hknown
  refine ⟨hp, .refl, fun b q hb i hi => ?_⟩
  obtain ⟨rfl, rfl⟩ := Step.pure_ok.1 hb
  exact hknown i (h i hi)

theorem sound_throw (e : ClassError) : Sound invariant known (throw e : Request α) named :=
  fun _ hp _ => ⟨hp, .refl, fun _ _ h => (Step.throw_ok.1 h).elim⟩

theorem Sound.bind {k : α → Request β} {named' : β → List PoolIndex}
    (h : Sound invariant known request named)
    (hk : ∀ a, Sound invariant (named a ++ known) (k a) named') :
    Sound invariant known (request >>= k) named' := by
  intro p hp hknown
  obtain ⟨hmid, hext, hnamed⟩ := h p hp hknown
  have hafter : p.after (request >>= k) = match request p with
      | .ok a q => q.after (k a)
      | .error _ q => q := by
    show (match EStateM.bind request k p with | .ok _ q | .error _ q => q) = _
    unfold EStateM.bind after
    cases request p <;> rfl
  cases hr : request p with
  | error e q =>
    have hq : p.after request = q := by
      unfold after
      rw [hr]
    rw [hafter, hr]
    refine ⟨hq ▸ hmid, hq ▸ hext, fun b q' hb => ?_⟩
    obtain ⟨a, mid, ha, -⟩ := Step.bind_ok.1 hb
    rw [hr] at ha
    cases ha
  | ok a q =>
    rw [after_of_ok hr] at hmid hext
    rw [hafter, hr]
    have hall : ∀ i ∈ named a ++ known, q.Names i := by
      intro i hi
      rcases List.mem_append.1 hi with hi | hi
      · exact hnamed a q hr i hi
      · exact (hknown i hi).grows hext.grows
    obtain ⟨hlast, hext', hnamed'⟩ := hk a q hmid hall
    refine ⟨hlast, hext.trans hext', fun b q' hb => ?_⟩
    obtain ⟨a', mid, ha, hb⟩ := Step.bind_ok.1 hb
    rw [hr] at ha
    cases ha
    exact hnamed' b q' hb

/-- The index of one entry as an answer. -/
abbrev one (i : PoolIndex) : List PoolIndex := [i]

/-- No index at all, which is what a position among the bootstrap methods names. -/
abbrev nothing (_ : UInt16) : List PoolIndex := []

variable (kept : Kept invariant)

include kept

theorem sound_intern (hc : c.Fits) (hrefs : c.references ⊆ known) :
    Sound invariant known (intern c) one := by
  intro p hp hknown
  refine ⟨kept.intern hp fun j hj => hknown j (hrefs hj), ?_, fun i q h j hj => ?_⟩
  · cases h : intern c p with
    | ok i q => exact after_of_ok h ▸ .intern .refl hc h
    | error e q =>
      have hq : q = p := by
        unfold intern at h
        split at h
        · cases h
        · split at h
          · cases h
            rfl
          · cases h
      unfold after
      rw [h, hq]
      exact .refl
  · obtain rfl := List.mem_singleton.1 hj
    exact ⟨c, (intern_ok h).2⟩

theorem sound_bootstrapAt (m : BootstrapMethod) :
    Sound invariant known (bootstrapAt m) nothing := by
  intro p hp _
  refine ⟨kept.bootstrapAt m hp, ?_, fun k q h j hj => absurd hj List.not_mem_nil⟩
  cases h : bootstrapAt m p with
  | ok k q => exact after_of_ok h ▸ .bootstrapAt .refl h
  | error e q =>
    have hq : q = p := by
      unfold bootstrapAt at h
      split at h
      · cases h
      · split at h
        · cases h
        · cases h
          rfl
    unfold after
    rw [h, hq]
    exact .refl

theorem sound_utf8 (text : String) : Sound invariant known (utf8 text) one := by
  unfold utf8
  simp only
  split
  · rename_i hsize
    exact sound_intern kept hsize (List.nil_subset _)
  · exact sound_throw _

/-- An entry that holds the index of a text. -/
theorem sound_named (entry : PoolIndex → Constant) (hfits : ∀ i, (entry i).Fits)
    (hrefs : ∀ i, (entry i).references = [i]) (text : String) :
    Sound invariant known (do intern (entry (← utf8 text))) one := by
  refine (sound_utf8 kept text).bind fun i => sound_intern kept (hfits i) ?_
  rw [hrefs]
  exact List.subset_append_left [i] known

theorem sound_cls (name : String) : Sound invariant known (cls name) one :=
  sound_named kept .cls (fun _ => trivial) (fun _ => rfl) name

theorem sound_nameAndType (name descriptor : String) :
    Sound invariant known (nameAndType name descriptor) one := by
  refine (sound_utf8 kept name).bind fun n => (sound_utf8 kept descriptor).bind fun d => ?_
  refine sound_intern kept trivial ?_
  simp [Constant.references]

/-- An entry that holds the indices of a class and of a name with a descriptor. -/
theorem sound_member (entry : PoolIndex → PoolIndex → Constant) (hfits : ∀ i j, (entry i j).Fits)
    (hrefs : ∀ i j, (entry i j).references = [i, j]) (owner name descriptor : String) :
    Sound invariant known (do
      let owner ← cls owner
      let member ← nameAndType name descriptor
      intern (entry owner member)) one := by
  refine (sound_cls kept owner).bind fun o =>
    (sound_nameAndType kept name descriptor).bind fun m => ?_
  refine sound_intern kept (hfits o m) ?_
  rw [hrefs]
  simp

theorem sound_methodHandle (h : Handle) : Sound invariant known (methodHandle h) one := by
  have hlast (m : PoolIndex) :
      Sound invariant ([m] ++ known) (intern (.methodHandle h.kind m)) one :=
    sound_intern kept trivial (List.subset_append_left [m] known)
  unfold methodHandle
  split
  · exact (sound_member kept .fieldRef (fun _ _ => trivial) (fun _ _ => rfl) _ _ _).bind hlast
  · exact (sound_member kept (.methodRef · · h.ownerIsInterface) (fun _ _ => trivial)
      (fun _ _ => rfl) _ _ _).bind hlast

/-- An entry that holds the position of a bootstrap method and the index of a name with a
descriptor. -/
theorem sound_computed (entry : PoolIndex → Constant) (hfits : ∀ i, (entry i).Fits)
    (hrefs : ∀ i, (entry i).references = [i]) (name descriptor : String) :
    Sound invariant known (do intern (entry (← nameAndType name descriptor))) one := by
  refine (sound_nameAndType kept name descriptor).bind fun m => sound_intern kept (hfits m) ?_
  rw [hrefs]
  exact List.subset_append_left [m] known

omit kept in
mutual

theorem sound_loadable (kept : Kept invariant) : (value : Loadable) →
    (known : List PoolIndex) → Sound invariant known (loadable value) one
  | .int _, _ | .float _, _ | .long _, _ | .double _, _ =>
    sound_intern kept trivial (List.nil_subset _)
  | .string text, _ => sound_named kept .string (fun _ => trivial) (fun _ => rfl) text
  | .cls name, _ => sound_cls kept name
  | .methodType descriptor, _ =>
    sound_named kept .methodType (fun _ => trivial) (fun _ => rfl) descriptor
  | .methodHandle handle, _ => sound_methodHandle kept handle
  | .dynamic name descriptor handle arguments, _ =>
    (sound_methodHandle kept handle).bind fun _ =>
      (sound_loadables kept arguments [] _).bind fun _ =>
        (sound_bootstrapAt kept _).bind fun k =>
          sound_computed kept (.dynamic k) (fun _ => trivial) (fun _ => rfl) name descriptor

theorem sound_loadables (kept : Kept invariant) : (values : List Loadable) →
    (done known : List PoolIndex) → Sound invariant known (loadables done values) fun _ => []
  | [], _, _ => sound_pure _ (fun _ h => absurd h List.not_mem_nil)
  | value :: rest, done, known =>
    (sound_loadable kept value known).bind fun i => sound_loadables kept rest (i :: done) _

end

theorem sound_bootstrap (handle : Handle) (arguments : List Loadable) :
    Sound invariant known (bootstrap handle arguments) nothing :=
  (sound_methodHandle kept handle).bind fun _ => (sound_loadables kept arguments [] _).bind fun _ =>
    sound_bootstrapAt kept _

theorem sound_ask (r : PoolRequest) : ∃ named, Sound invariant [] r.ask named := by
  cases r with
  | utf8 text => exact ⟨_, sound_utf8 kept text⟩
  | nameAndType name descriptor => exact ⟨_, sound_nameAndType kept name descriptor⟩
  | fieldRef owner name descriptor =>
    exact ⟨_, sound_member kept .fieldRef (fun _ _ => trivial) (fun _ _ => rfl) _ _ _⟩
  | methodRef owner name descriptor ownerIsInterface =>
    exact ⟨_, sound_member kept (.methodRef · · ownerIsInterface) (fun _ _ => trivial)
      (fun _ _ => rfl) _ _ _⟩
  | module name => exact ⟨_, sound_named kept .module (fun _ => trivial) (fun _ => rfl) name⟩
  | package name => exact ⟨_, sound_named kept .package (fun _ => trivial) (fun _ => rfl) name⟩
  | loadable value => exact ⟨_, sound_loadable kept value []⟩
  | invokeDynamic name descriptor handle arguments =>
    exact ⟨_, (sound_bootstrap kept handle arguments).bind fun k =>
      sound_computed kept (.invokeDynamic k) (fun _ => trivial) (fun _ => rfl) name descriptor⟩
  | bootstrap handle arguments => exact ⟨_, sound_bootstrap kept handle arguments⟩

theorem Kept.after_ask (h : invariant p) (r : PoolRequest) :
    invariant (p.after r.ask) ∧ p.Extended (p.after r.ask) := by
  obtain ⟨named, hr⟩ := sound_ask kept r
  obtain ⟨hafter, hext, -⟩ := hr p h fun _ hi => absurd hi List.not_mem_nil
  exact ⟨hafter, hext⟩

/-- A run of requests keeps what additions keep, and only adds to the pool. -/
theorem Kept.afterAll (h : invariant p) (requests : List PoolRequest) :
    invariant (p.afterAll requests) ∧ p.Extended (p.afterAll requests) := by
  induction requests generalizing p with
  | nil => exact ⟨h, .refl⟩
  | cons r rest ih =>
    obtain ⟨hr, hext⟩ := kept.after_ask h r
    obtain ⟨hrest, hext'⟩ := ih hr
    exact ⟨hrest, hext.trans hext'⟩

omit kept in
theorem extended_afterAll (p : ConstantPool) (requests : List PoolRequest) :
    p.Extended (p.afterAll requests) := (kept_true.afterAll trivial requests).2

omit kept in
theorem stable_ask (r : PoolRequest) : Stable r.ask := by
  cases r with
  | utf8 text => exact stable_utf8 text
  | nameAndType name descriptor => exact stable_nameAndType name descriptor
  | fieldRef owner name descriptor => exact stable_fieldRef owner name descriptor
  | methodRef owner name descriptor ownerIsInterface =>
    exact stable_methodRef owner name descriptor ownerIsInterface
  | module name => exact (stable_utf8 name).bind fun _ => stable_intern trivial
  | package name => exact (stable_utf8 name).bind fun _ => stable_intern trivial
  | loadable value => exact stable_loadable value
  | invokeDynamic name descriptor handle arguments =>
    exact stable_invokeDynamic name descriptor handle arguments
  | bootstrap handle arguments => exact stable_bootstrap handle arguments

end Requests

section Answers

/-- The pool holds a text at an index. -/
def HoldsText (p : ConstantPool) (i : PoolIndex) (text : String) : Prop :=
  p.get? i = some (.utf8 text)

/-- The pool holds an entry of a kind that refers to a text. -/
def HoldsNamed (p : ConstantPool) (entry : PoolIndex → Constant) (i : PoolIndex) (text : String) :
    Prop := ∃ n, p.get? i = some (entry n) ∧ p.HoldsText n text

/-- The pool holds a name with a descriptor. -/
def HoldsNameAndType (p : ConstantPool) (i : PoolIndex) (name descriptor : String) : Prop :=
  ∃ n d, p.get? i = some (.nameAndType n d) ∧ p.HoldsText n name ∧ p.HoldsText d descriptor

/-- The pool holds an entry of a kind that refers to a member of a class. -/
def HoldsMember (p : ConstantPool) (entry : PoolIndex → PoolIndex → Constant) (i : PoolIndex)
    (owner name descriptor : String) : Prop :=
  ∃ o m, p.get? i = some (entry o m) ∧ p.HoldsNamed .cls o owner ∧
    p.HoldsNameAndType m name descriptor

/-- The pool holds a method handle. -/
def HoldsHandle (p : ConstantPool) (i : PoolIndex) (h : Handle) : Prop :=
  ∃ m, p.get? i = some (.methodHandle h.kind m) ∧
    p.HoldsMember (if h.kind.isField then .fieldRef else (.methodRef · · h.ownerIsInterface)) m
      h.owner h.name h.descriptor

mutual

/-- The pool holds a value. -/
def HoldsValue (p : ConstantPool) (i : PoolIndex) : Loadable → Prop
  | .int value => p.get? i = some (.int value)
  | .float bits => p.get? i = some (.float bits)
  | .long value => p.get? i = some (.long value)
  | .double bits => p.get? i = some (.double bits)
  | .string text => p.HoldsNamed .string i text
  | .cls name => p.HoldsNamed .cls i name
  | .methodType descriptor => p.HoldsNamed .methodType i descriptor
  | .methodHandle handle => p.HoldsHandle i handle
  | .dynamic name descriptor handle arguments =>
    ∃ k m method values, p.get? i = some (.dynamic k m) ∧ p.HoldsNameAndType m name descriptor ∧
      p.bootstraps[k.toNat]? = some ⟨method, values⟩ ∧ p.HoldsHandle method handle ∧
      HoldsValues p values arguments

/-- The pool holds values in order. -/
def HoldsValues (p : ConstantPool) (indices : List PoolIndex) : List Loadable → Prop
  | [] => indices = []
  | value :: rest =>
    ∃ i others, indices = i :: others ∧ HoldsValue p i value ∧ HoldsValues p others rest

end

/-- The pool holds a bootstrap method at a position. -/
def HoldsBootstrap (p : ConstantPool) (k : UInt16) (handle : Handle)
    (arguments : List Loadable) : Prop :=
  ∃ method values, p.bootstraps[k.toNat]? = some ⟨method, values⟩ ∧ p.HoldsHandle method handle ∧
    p.HoldsValues values arguments

end Answers

end ConstantPool

/-- What was asked for is in the pool, at the index or position that was the answer. -/
def PoolRequest.Answered (p : ConstantPool) (answer : UInt16) : PoolRequest → Prop
  | utf8 text => p.HoldsText answer text
  | nameAndType name descriptor => p.HoldsNameAndType answer name descriptor
  | fieldRef owner name descriptor => p.HoldsMember .fieldRef answer owner name descriptor
  | methodRef owner name descriptor ownerIsInterface =>
    p.HoldsMember (.methodRef · · ownerIsInterface) answer owner name descriptor
  | module name => p.HoldsNamed .module answer name
  | package name => p.HoldsNamed .package answer name
  | loadable value => p.HoldsValue answer value
  | invokeDynamic name descriptor handle arguments =>
    ∃ k m, p.get? answer = some (.invokeDynamic k m) ∧ p.HoldsNameAndType m name descriptor ∧
      p.HoldsBootstrap k handle arguments
  | bootstrap handle arguments => p.HoldsBootstrap answer handle arguments

namespace ConstantPool

section Lookup

variable {p q r : ConstantPool} {i : PoolIndex} (hr : r.Interned)

include hr

theorem holds_text {text : String} (h : utf8 text p = .ok i q) (hq : q.Grows r) :
    r.HoldsText i text := by
  unfold utf8 at h
  split at h
  · exact hr.get? (hq.constant (intern_ok h).2)
  · exact (Step.throw_ok.1 h).elim

theorem holds_named (entry : PoolIndex → Constant) {text : String}
    (h : (do intern (entry (← utf8 text)) : Request PoolIndex) p = .ok i q) (hq : q.Grows r) :
    r.HoldsNamed entry i text := by
  obtain ⟨n, mid, h1, h2⟩ := Step.bind_ok.1 h
  obtain ⟨hgrows, hfound⟩ := intern_ok h2
  exact ⟨n, hr.get? (hq.constant hfound), holds_text hr h1 (hgrows.trans hq)⟩

theorem holds_nameAndType {name descriptor : String} (h : nameAndType name descriptor p = .ok i q)
    (hq : q.Grows r) : r.HoldsNameAndType i name descriptor := by
  obtain ⟨n, p1, h1, h⟩ := Step.bind_ok.1 h
  obtain ⟨d, p2, h2, h3⟩ := Step.bind_ok.1 h
  obtain ⟨hgrows, hfound⟩ := intern_ok h3
  have hq2 := hgrows.trans hq
  have hq1 := (stable_utf8 _ _ _ _ h2).1.grows.trans hq2
  exact ⟨n, d, hr.get? (hq.constant hfound), holds_text hr h1 hq1, holds_text hr h2 hq2⟩

theorem holds_member (entry : PoolIndex → PoolIndex → Constant) {owner name descriptor : String}
    (h : (do
      let owner ← cls owner
      let member ← nameAndType name descriptor
      intern (entry owner member) : Request PoolIndex) p = .ok i q) (hq : q.Grows r) :
    r.HoldsMember entry i owner name descriptor := by
  obtain ⟨o, p1, h1, h⟩ := Step.bind_ok.1 h
  obtain ⟨m, p2, h2, h3⟩ := Step.bind_ok.1 h
  obtain ⟨hgrows, hfound⟩ := intern_ok h3
  have hq2 := hgrows.trans hq
  have hq1 := (stable_nameAndType _ _ _ _ _ h2).1.grows.trans hq2
  exact ⟨o, m, hr.get? (hq.constant hfound), holds_named hr _ h1 hq1, holds_nameAndType hr h2 hq2⟩

theorem holds_handle {handle : Handle} (h : methodHandle handle p = .ok i q) (hq : q.Grows r) :
    r.HoldsHandle i handle := by
  unfold methodHandle at h
  unfold HoldsHandle
  split at h
  · rename_i hk
    obtain ⟨m, mid, h1, h2⟩ := Step.bind_ok.1 h
    obtain ⟨hgrows, hfound⟩ := intern_ok h2
    refine ⟨m, hr.get? (hq.constant hfound), ?_⟩
    rw [if_pos hk]
    exact holds_member hr _ h1 (hgrows.trans hq)
  · rename_i hk
    obtain ⟨m, mid, h1, h2⟩ := Step.bind_ok.1 h
    obtain ⟨hgrows, hfound⟩ := intern_ok h2
    refine ⟨m, hr.get? (hq.constant hfound), ?_⟩
    rw [if_neg hk]
    exact holds_member hr _ h1 (hgrows.trans hq)

end Lookup

variable {p q r : ConstantPool}

mutual

theorem holds_value (hr : r.Interned) : (value : Loadable) → ∀ {p i q}, loadable value p = .ok i q →
    q.Grows r → r.HoldsValue i value
  | .int _, _, _, _, h, hq | .float _, _, _, _, h, hq | .long _, _, _, _, h, hq
  | .double _, _, _, _, h, hq => hr.get? (hq.constant (intern_ok h).2)
  | .string _, _, _, _, h, hq => holds_named hr .string h hq
  | .cls _, _, _, _, h, hq => holds_named hr .cls h hq
  | .methodType _, _, _, _, h, hq => holds_named hr .methodType h hq
  | .methodHandle _, _, _, _, h, hq => holds_handle hr h hq
  | .dynamic name descriptor handle arguments, p, i, q, h, hq => by
    obtain ⟨method, p1, h1, h⟩ := Step.bind_ok.1 h
    obtain ⟨values, p2, h2, h⟩ := Step.bind_ok.1 h
    obtain ⟨k, p3, h3, h⟩ := Step.bind_ok.1 h
    obtain ⟨m, p4, h4, h5⟩ := Step.bind_ok.1 h
    obtain ⟨hgrows, hfound⟩ := intern_ok h5
    obtain ⟨hgrows3, hplaced⟩ := bootstrapAt_ok h3
    have hq4 := hgrows.trans hq
    have hq3 := (stable_nameAndType _ _ _ _ _ h4).1.grows.trans hq4
    have hq2 := hgrows3.trans hq3
    have hq1 := (stable_loadables _ _ _ _ _ h2).1.grows.trans hq2
    obtain ⟨others, hothers, hvalues⟩ := holds_values hr arguments h2 hq2
    obtain rfl : values = others := hothers
    exact ⟨k, m, method, values, hr.get? (hq.constant hfound), holds_nameAndType hr h4 hq4,
      hr.methods _ _ (hq3.bootstrap hplaced), holds_handle hr h1 hq1, hvalues⟩

theorem holds_values (hr : r.Interned) : (values : List Loadable) → ∀ {done p indices q},
    loadables done values p = .ok indices q → q.Grows r →
    ∃ others, indices = done.reverse ++ others ∧ r.HoldsValues others values
  | [], done, p, indices, q, h, _ => by
    obtain ⟨rfl, rfl⟩ := Step.pure_ok.1 h
    exact ⟨[], (List.append_nil _).symm, rfl⟩
  | value :: rest, done, p, indices, q, h, hq => by
    obtain ⟨i, mid, h1, h2⟩ := Step.bind_ok.1 h
    have hmid := (stable_loadables _ _ _ _ _ h2).1.grows.trans hq
    obtain ⟨others, rfl, hothers⟩ := holds_values hr rest h2 hq
    exact ⟨i :: others, by simp, i, others, rfl, holds_value hr value h1 hmid, hothers⟩

end

theorem holds_bootstrap (hr : r.Interned) {handle : Handle} {arguments : List Loadable} {k : UInt16}
    (h : bootstrap handle arguments p = .ok k q) (hq : q.Grows r) :
    r.HoldsBootstrap k handle arguments := by
  obtain ⟨method, p1, h1, h⟩ := Step.bind_ok.1 h
  obtain ⟨values, p2, h2, h3⟩ := Step.bind_ok.1 h
  obtain ⟨hgrows, hplaced⟩ := bootstrapAt_ok h3
  have hq2 := hgrows.trans hq
  have hq1 := (stable_loadables _ _ _ _ _ h2).1.grows.trans hq2
  obtain ⟨others, hothers, hvalues⟩ := holds_values hr arguments h2 hq2
  obtain rfl : values = others := hothers
  exact ⟨method, values, hr.methods _ _ (hq.bootstrap hplaced), holds_handle hr h1 hq1, hvalues⟩

/-- An answer stands for what was asked for in every later pool. -/
theorem answered_of_ask (hr : r.Interned) {request : PoolRequest} {answer : UInt16}
    (h : request.ask p = .ok answer q) (hq : q.Grows r) : request.Answered r answer := by
  cases request with
  | utf8 text => exact holds_text hr h hq
  | nameAndType name descriptor => exact holds_nameAndType hr h hq
  | fieldRef owner name descriptor => exact holds_member hr .fieldRef h hq
  | methodRef owner name descriptor ownerIsInterface =>
    exact holds_member hr (.methodRef · · ownerIsInterface) h hq
  | module name => exact holds_named hr .module h hq
  | package name => exact holds_named hr .package h hq
  | loadable value => exact holds_value hr value h hq
  | invokeDynamic name descriptor handle arguments =>
    obtain ⟨k, p1, h1, h⟩ := Step.bind_ok.1 h
    obtain ⟨m, p2, h2, h3⟩ := Step.bind_ok.1 h
    obtain ⟨hgrows, hfound⟩ := intern_ok h3
    have hq2 := hgrows.trans hq
    have hq1 := (stable_nameAndType _ _ _ _ _ h2).1.grows.trans hq2
    exact ⟨k, m, hr.get? (hq.constant hfound), holds_nameAndType hr h2 hq2,
      holds_bootstrap hr h1 hq1⟩
  | bootstrap handle arguments => exact holds_bootstrap hr h hq

/-- What requests make of an empty pool, answered or not: its constants differ, each stands right
behind the slots of the ones before it, none at index zero or in the second slot of another, the
count is the index behind them all, and they refer to constants before them. An answer stays the
answer to its request, and what it stands for is what was asked for. -/
theorem requests_intern (requests : List PoolRequest) :
    let p := empty.afterAll requests
    p.constants.Nodup ∧
      (∀ k i c, p.items.toList[k]? = some (i, c) →
        i.toNat = 1 + total Constant.width (p.constants.take k)) ∧
      (∀ i c, p.get? i = some c →
        i ≠ 0 ∧ ∀ j d, (j, d) ∈ p.items.toList → j < i → j.toNat + d.width ≤ i.toNat) ∧
      (p.nextIndex.toNat = 1 + total Constant.width p.constants ∧
        1 + total Constant.width p.constants ≤ 65535) ∧
      (∀ i c, (i, c) ∈ p.items.toList → ∀ j ∈ c.references, j < i) ∧
      ∀ (r : PoolRequest) answer q, r.ask p = .ok answer q → ∀ later,
        r.ask (q.afterAll later) = .ok answer (q.afterAll later) ∧
          r.Answered (q.afterAll later) answer := by
  intro p
  have hp : p.Interned := (kept_interned.afterAll interned_empty requests).1
  have hlt := p.nextIndex.toNat_lt
  refine ⟨hp.distinct, hp.placed, fun i c hi => ?_, ⟨hp.counted, ?_⟩, hp.backwards, ?_⟩
  · exact hp.get?_apart hi
  · have := hp.counted
    omega
  · intro r answer q h later
    have hq : q.Interned := after_of_ok h ▸ (kept_interned.after_ask hp r).1
    obtain ⟨hlater, hext⟩ := kept_interned.afterAll hq later
    exact ⟨(stable_ask r p answer q h).2 _ hext.grows, answered_of_ask hlater h hext.grows⟩

theorem requests_intern_class : ∃ q,
    (PoolRequest.loadable (.cls "a")).ask (empty.afterAll [.loadable (.long 7), .utf8 "a"]) =
      .ok 4 q ∧
    (PoolRequest.loadable (.cls "a")).ask (q.afterAll [.loadable (.string "b")]) =
      .ok 4 (q.afterAll [.loadable (.string "b")]) ∧
    (PoolRequest.loadable (.cls "a")).Answered (q.afterAll [.loadable (.string "b")]) 4 := by
  have hask : ∃ q, (PoolRequest.loadable (.cls "a")).ask
      (empty.afterAll [.loadable (.long 7), .utf8 "a"]) = .ok 4 q := by
    have hsize : Text.ModifiedUtf8.encodedSize "a" < 65536 := by decide
    simp [PoolRequest.ask, afterAll, after, loadable, long, utf8, cls, hsize, intern, empty,
      indexAfter, Constant.width, bind, EStateM.bind, ChainTable.getElem?_insert]
  obtain ⟨q, hq⟩ := hask
  obtain ⟨-, -, -, -, -, hanswers⟩ := requests_intern [.loadable (.long 7), .utf8 "a"]
  obtain ⟨hagain, hfound⟩ := hanswers _ 4 q hq [.loadable (.string "b")]
  exact ⟨q, hq, hagain, hfound⟩

end ConstantPool

end JvmClass
