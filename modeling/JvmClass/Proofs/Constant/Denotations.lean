import JvmClass.Proofs.Constant.Copies
import Mathlib.Data.Finset.Card
import Mathlib.Order.Interval.Finset.Nat

/-!
# What the answers of requests stand for

The index that a request is answered with stands for what was asked for: an image that has read the
pool looks the same texts up again. The one thing that is not kept is whether the owner of a field
handle is an interface (`Handle.stored`). Values may nest, but no deeper than there are constants,
since the values on a path of arguments have different indices.
-/

namespace JvmClass

/-- The handle as it reads back: references to fields do not say whether the owner is an
interface. -/
def Handle.stored (h : Handle) : Handle :=
  { h with ownerIsInterface := !h.kind.isField && h.ownerIsInterface }

mutual

/-- The value as it reads back. -/
def Loadable.stored : Loadable → Loadable
  | .methodHandle handle => .methodHandle handle.stored
  | .dynamic name descriptor bootstrap arguments =>
    .dynamic name descriptor bootstrap.stored (storedAll arguments)
  | value => value

/-- Values as they read back. -/
def storedAll : List Loadable → List Loadable
  | [] => []
  | value :: rest => value.stored :: storedAll rest

end

mutual

/-- How many values are arguments of one another on the longest path to a value. -/
def Loadable.depth : Loadable → Nat
  | .dynamic _ _ _ arguments => depthOfAll arguments + 1
  | _ => 0

/-- The greatest depth of the values. -/
def depthOfAll : List Loadable → Nat
  | [] => 0
  | value :: rest => max value.depth (depthOfAll rest)

end

namespace ClassImage

open ConstantPool (Request)

variable {image : ClassImage} {p p' : ConstantPool} {i : PoolIndex}

/-- What a request answers is looked up as the given value in every image of the pool. -/
def Denotes {α β : Type} (request : Request α) (look : ClassImage → α → Except ClassError β)
    (b : β) : Prop :=
  ∀ ⦃p a p'⦄, request p = .ok a p' → ∀ ⦃image : ClassImage⦄, image.Holds p' → look image a = .ok b

theorem constant_intern {c : Constant} (h : ConstantPool.intern c p = .ok i p')
    (hi : image.Holds p') : image.constant i = .ok c := by
  unfold constant
  rw [hi.constant (ConstantPool.intern_ok h).2]

/-- Index zero stands for no constant. -/
theorem ne_zero_intern {c : Constant} (h : ConstantPool.intern c p = .ok i p')
    (hi : image.Holds p') : i ≠ 0 := by
  rintro rfl
  have := hi.constant (ConstantPool.intern_ok h).2
  rw [show (0 : UInt16).toNat = 0 from rfl, hi.zero] at this
  cases this

theorem intern_of_utf8 {text : String} (h : ConstantPool.utf8 text p = .ok i p') :
    ConstantPool.intern (.utf8 text) p = .ok i p' := by
  unfold ConstantPool.utf8 at h
  split at h
  · exact h
  · exact (Step.throw_ok.1 h).elim

theorem utf8_back (text : String) : Denotes (ConstantPool.utf8 text) utf8 text := by
  intro p i p' h image hi
  unfold utf8
  rw [constant_intern (intern_of_utf8 h) hi]
  rfl

theorem cls_back (name : String) : Denotes (ConstantPool.cls name) cls name := by
  intro p i p' h image hi
  obtain ⟨j, mid, h1, h2⟩ := Step.bind_ok.1 h
  unfold cls
  rw [constant_intern h2 hi]
  exact utf8_back name h1 (hi.of_grows (ConstantPool.intern_ok h2).1)

theorem nameAndType_back (name descriptor : String) :
    Denotes (ConstantPool.nameAndType name descriptor) nameAndType (name, descriptor) := by
  intro p i p' h image hi
  obtain ⟨n, p1, h1, h⟩ := Step.bind_ok.1 h
  obtain ⟨d, p2, h2, h3⟩ := Step.bind_ok.1 h
  have hi2 := hi.of_grows (ConstantPool.intern_ok h3).1
  have hi1 := hi2.of_grows (ConstantPool.stable_utf8 _ _ _ _ h2).1.grows
  unfold nameAndType
  rw [constant_intern h3 hi]
  simp only [bind, Except.bind, utf8_back name h1 hi1, utf8_back descriptor h2 hi2]
  rfl

theorem fieldRef_back (owner name descriptor : String) :
    Denotes (ConstantPool.fieldRef owner name descriptor) member
      ⟨owner, name, descriptor, false⟩ := by
  intro p i p' h image hi
  obtain ⟨o, p1, h1, h⟩ := Step.bind_ok.1 h
  obtain ⟨m, p2, h2, h3⟩ := Step.bind_ok.1 h
  have hi2 := hi.of_grows (ConstantPool.intern_ok h3).1
  have hi1 := hi2.of_grows (ConstantPool.stable_nameAndType _ _ _ _ _ h2).1.grows
  unfold member
  rw [constant_intern h3 hi]
  simp only [bind, Except.bind, cls_back owner h1 hi1, nameAndType_back name descriptor h2 hi2]
  rfl

theorem methodRef_back (owner name descriptor : String) (ownerIsInterface : Bool) :
    Denotes (ConstantPool.methodRef owner name descriptor ownerIsInterface) member
      ⟨owner, name, descriptor, ownerIsInterface⟩ := by
  intro p i p' h image hi
  obtain ⟨o, p1, h1, h⟩ := Step.bind_ok.1 h
  obtain ⟨m, p2, h2, h3⟩ := Step.bind_ok.1 h
  have hi2 := hi.of_grows (ConstantPool.intern_ok h3).1
  have hi1 := hi2.of_grows (ConstantPool.stable_nameAndType _ _ _ _ _ h2).1.grows
  unfold member
  rw [constant_intern h3 hi]
  simp only [bind, Except.bind, cls_back owner h1 hi1, nameAndType_back name descriptor h2 hi2]
  rfl

theorem handle_back (handle : Handle) :
    Denotes (ConstantPool.methodHandle handle) ClassImage.handle handle.stored := by
  intro p i p' h image hi
  unfold ConstantPool.methodHandle at h
  cases hk : handle.kind.isField with
  | true =>
    rw [if_pos hk] at h
    obtain ⟨m, mid, h1, h2⟩ := Step.bind_ok.1 h
    have := fieldRef_back _ _ _ h1 (hi.of_grows (ConstantPool.intern_ok h2).1)
    unfold ClassImage.handle
    rw [constant_intern h2 hi]
    simp only [bind, Except.bind, this]
    simp [Handle.stored, hk, pure, Except.pure]
  | false =>
    rw [if_neg (by simp [hk])] at h
    obtain ⟨m, mid, h1, h2⟩ := Step.bind_ok.1 h
    have := methodRef_back _ _ _ _ h1 (hi.of_grows (ConstantPool.intern_ok h2).1)
    unfold ClassImage.handle
    rw [constant_intern h2 hi]
    simp only [bind, Except.bind, this]
    simp [Handle.stored, hk, pure, Except.pure]

mutual

theorem loadableWithin_back : (value : Loadable) → (depth : Nat) → value.depth < depth →
    Denotes (ConstantPool.loadable value) (loadableWithin · depth) value.stored
  | .int _, depth + 1, _ | .float _, depth + 1, _ | .long _, depth + 1, _
  | .double _, depth + 1, _ => by
    intro p i p' h image hi
    show image.loadableWithin (depth + 1) i = _
    unfold loadableWithin
    rw [constant_intern h hi]
    rfl
  | .string text, depth + 1, _ | .cls text, depth + 1, _ | .methodType text, depth + 1, _ => by
    intro p i p' h image hi
    obtain ⟨j, mid, h1, h2⟩ := Step.bind_ok.1 h
    have := utf8_back text h1 (hi.of_grows (ConstantPool.intern_ok h2).1)
    show image.loadableWithin (depth + 1) i = _
    unfold loadableWithin
    rw [constant_intern h2 hi]
    simp only [bind, Except.bind, this]
    rfl
  | .methodHandle handle, depth + 1, _ => by
    intro p i p' h image hi
    have hhandle := handle_back handle h hi
    have hconstant : ∃ m, image.constant i = .ok (.methodHandle handle.kind m) := by
      unfold ConstantPool.loadable ConstantPool.methodHandle at h
      split at h
      · obtain ⟨m, mid, -, h2⟩ := Step.bind_ok.1 h
        exact ⟨m, constant_intern h2 hi⟩
      · obtain ⟨m, mid, -, h2⟩ := Step.bind_ok.1 h
        exact ⟨m, constant_intern h2 hi⟩
    obtain ⟨m, hm⟩ := hconstant
    show image.loadableWithin (depth + 1) i = _
    unfold loadableWithin
    rw [hm]
    simp only [bind, Except.bind, hhandle]
    rfl
  | .dynamic name descriptor handle arguments, depth + 1, hdepth => by
    intro p i p' h image hi
    obtain ⟨m, p1, h1, h⟩ := Step.bind_ok.1 h
    obtain ⟨is, p2, h2, h⟩ := Step.bind_ok.1 h
    obtain ⟨k, p3, h3, h⟩ := Step.bind_ok.1 h
    obtain ⟨j, p4, h4, h5⟩ := Step.bind_ok.1 h
    have hi4 := hi.of_grows (ConstantPool.intern_ok h5).1
    have hi3 := hi4.of_grows (ConstantPool.stable_nameAndType _ _ _ _ _ h4).1.grows
    have hi2 := hi3.of_grows (ConstantPool.bootstrapAt_ok h3).1
    have hi1 := hi2.of_grows (ConstantPool.stable_loadables _ _ _ _ _ h2).1.grows
    have hmethod : image.bootstrapEntry k = .ok ⟨m, is⟩ := by
      unfold bootstrapEntry
      rw [hi3.bootstrap (ConstantPool.bootstrapAt_ok h3).2]
    have hdepth' : depthOfAll arguments < depth := by
      unfold Loadable.depth at hdepth
      omega
    obtain ⟨is', his, harguments⟩ := loadablesWithin_back arguments depth hdepth' h2 hi2
    obtain rfl : is = is' := his
    show image.loadableWithin (depth + 1) i = _
    unfold loadableWithin
    rw [constant_intern h5 hi]
    simp only [bind, Except.bind, nameAndType_back name descriptor h4 hi4, hmethod,
      handle_back handle h1 hi1, harguments]
    rfl

theorem loadablesWithin_back : (values : List Loadable) → (depth : Nat) →
    depthOfAll values < depth → ∀ ⦃done : List PoolIndex⦄ ⦃p is p'⦄,
    ConstantPool.loadables done values p = .ok is p' → ∀ ⦃image : ClassImage⦄, image.Holds p' →
    ∃ is', is = done.reverse ++ is' ∧
      is'.mapM (image.loadableWithin depth) = .ok (storedAll values)
  | [], depth, _, done, p, is, p', h, image, hi => by
    obtain ⟨rfl, rfl⟩ := Step.pure_ok.1 h
    exact ⟨[], (List.append_nil _).symm, rfl⟩
  | value :: rest, depth, hdepth, done, p, is, p', h, image, hi => by
    obtain ⟨i, mid, h1, h2⟩ := Step.bind_ok.1 h
    have hdepth' : value.depth < depth ∧ depthOfAll rest < depth := by
      unfold depthOfAll at hdepth
      omega
    obtain ⟨is', rfl, hrest⟩ := loadablesWithin_back rest depth hdepth'.2 h2 hi
    have hi1 := hi.of_grows (ConstantPool.stable_loadables _ _ _ _ _ h2).1.grows
    have hvalue := loadableWithin_back value depth hdepth'.1 h1 hi1
    refine ⟨i :: is', by simp, ?_⟩
    rw [List.mapM_cons]
    simp only [bind, Except.bind, hvalue, hrest]
    rfl

end

/-- Some request for the value was answered with the index on the way to the pool. -/
def Asked (p : ConstantPool) (value : Loadable) (i : PoolIndex) : Prop :=
  ∃ q r, ConstantPool.loadable value q = .ok i r ∧ r.Grows p

theorem Asked.grows {q : ConstantPool} {value : Loadable} (h : Asked p value i)
    (hq : p.Grows q) : Asked q value i := by
  obtain ⟨r, r', hr, hgrows⟩ := h
  exact ⟨r, r', hr, hgrows.trans hq⟩

theorem asked_of_loadables {values : List Loadable} {done is : List PoolIndex}
    (h : ConstantPool.loadables done values p = .ok is p') :
    ∀ value ∈ values, ∃ i, Asked p' value i := by
  induction values generalizing done p with
  | nil => simp
  | cons value rest ih =>
    obtain ⟨i, mid, h1, h2⟩ := Step.bind_ok.1 h
    intro v hv
    rcases List.mem_cons.1 hv with rfl | hv
    · exact ⟨i, p, mid, h1, (ConstantPool.stable_loadables _ _ _ _ _ h2).1.grows⟩
    · exact ih h2 v hv

/-- The arguments of a value that was asked for were asked for. -/
theorem Asked.arguments {name descriptor : String} {handle : Handle} {arguments : List Loadable}
    (h : Asked p (.dynamic name descriptor handle arguments) i) :
    ∀ value ∈ arguments, ∃ j, Asked p value j := by
  obtain ⟨q, r, hr, hgrows⟩ := h
  obtain ⟨m, p1, h1, hr⟩ := Step.bind_ok.1 hr
  obtain ⟨is, p2, h2, hr⟩ := Step.bind_ok.1 hr
  obtain ⟨k, p3, h3, hr⟩ := Step.bind_ok.1 hr
  obtain ⟨j, p4, h4, h5⟩ := Step.bind_ok.1 hr
  have hp2 : p2.Grows p :=
    (ConstantPool.bootstrapAt_ok h3).1.trans
      ((ConstantPool.stable_nameAndType _ _ _ _ _ h4).1.grows.trans
        ((ConstantPool.intern_ok h5).1.trans hgrows))
  intro value hv
  obtain ⟨j, hj⟩ := asked_of_loadables h2 value hv
  exact ⟨j, hj.grows hp2⟩

theorem exists_depthOfAll (values : List Loadable) (h : 0 < depthOfAll values) :
    ∃ value ∈ values, value.depth = depthOfAll values := by
  induction values with
  | nil => exact absurd h (Nat.lt_irrefl 0)
  | cons value rest ih =>
    simp only [depthOfAll] at h ⊢
    rcases Nat.le_total (depthOfAll rest) value.depth with hle | hle
    · exact ⟨value, List.mem_cons_self, by omega⟩
    · obtain ⟨v, hv, hd⟩ := ih (by omega)
      exact ⟨v, List.mem_cons_of_mem _ hv, by omega⟩

/-- On the way to a value, values of every smaller depth were asked for. -/
theorem Asked.descend {value : Loadable} (h : Asked p value i) {k : Nat} (hk : 0 < k)
    (hle : k ≤ value.depth) : ∃ w j, Asked p w j ∧ w.depth = k := by
  induction hd : value.depth using Nat.strongRecOn generalizing value i with
  | _ d ih =>
    subst hd
    rcases Nat.lt_or_eq_of_le hle with hlt | heq
    · cases value with
      | dynamic name descriptor handle arguments =>
        simp only [Loadable.depth] at hlt
        obtain ⟨w, hw, hdepth⟩ := exists_depthOfAll arguments (by omega)
        obtain ⟨j, hj⟩ := h.arguments w hw
        refine ih w.depth ?_ hj (by omega) rfl
        simp only [Loadable.depth]
        omega
      | _ => exact absurd hlt (Nat.not_lt_zero k)
    · exact ⟨value, i, h, heq.symm⟩

end ClassImage

mutual

theorem Loadable.depth_stored : (value : Loadable) → value.stored.depth = value.depth
  | .int _ | .float _ | .long _ | .double _ | .string _ | .cls _ | .methodType _
  | .methodHandle _ => rfl
  | .dynamic name descriptor bootstrap arguments => by
    simp only [Loadable.stored, Loadable.depth, depthOfAll_stored arguments]

theorem depthOfAll_stored : (values : List Loadable) →
    depthOfAll (storedAll values) = depthOfAll values
  | [] => rfl
  | value :: rest => by
    simp only [storedAll, depthOfAll, value.depth_stored, depthOfAll_stored rest]

end

namespace ClassImage

variable {image : ClassImage} {p p' : ConstantPool} {i : PoolIndex}

/-- The index that a value was asked for with determines its depth. -/
theorem Asked.depth_eq {v w : Loadable} (hi : image.Holds p) (hv : Asked p v i)
    (hw : Asked p w i) : v.depth = w.depth := by
  obtain ⟨q, r, hr, hgrows⟩ := hv
  obtain ⟨q', r', hr', hgrows'⟩ := hw
  have h1 := loadableWithin_back v (v.depth + w.depth + 1) (by omega) hr (hi.of_grows hgrows)
  have h2 := loadableWithin_back w (v.depth + w.depth + 1) (by omega) hr' (hi.of_grows hgrows')
  have he : v.stored = w.stored := Except.ok.inj (h1.symm.trans h2)
  rw [← v.depth_stored, he, w.depth_stored]

theorem Asked.found {v : Loadable} (hi : image.Holds p) (hv : Asked p v i) :
    i.toNat ∈ image.constants.entries.toList.map Prod.fst := by
  obtain ⟨q, r, hr, hgrows⟩ := hv
  have hback : image.loadableWithin (v.depth + 1) i = .ok v.stored :=
    loadableWithin_back v (v.depth + 1) (by omega) hr (hi.of_grows hgrows)
  cases hc : image.constants.get? i.toNat with
  | some c => exact List.mem_map.2 ⟨_, SlotVec.mem_of_get? hc, rfl⟩
  | none =>
    unfold loadableWithin constant at hback
    rw [hc] at hback
    cases hback

/-- Values nest no deeper than there are constants. -/
theorem Asked.depth_le {v : Loadable} (hi : image.Holds p) (hv : Asked p v i) :
    v.depth ≤ image.constants.size := by
  have hex (k : Nat) : ∃ j : Nat, 0 < k → k ≤ v.depth →
      ∃ (x : PoolIndex) (w : Loadable), j = x.toNat ∧ Asked p w x ∧ w.depth = k := by
    by_cases hk : 0 < k ∧ k ≤ v.depth
    · obtain ⟨w, x, hw, hd⟩ := hv.descend hk.1 hk.2
      exact ⟨x.toNat, fun _ _ => ⟨x, w, rfl, hw, hd⟩⟩
    · exact ⟨0, fun h1 h2 => absurd ⟨h1, h2⟩ hk⟩
  choose f hf using hex
  have hcard : (Finset.Icc 1 v.depth).card ≤
      (image.constants.entries.toList.map Prod.fst).toFinset.card := by
    apply Finset.card_le_card_of_injOn f
    · intro k hk
      obtain ⟨h1, h2⟩ := Finset.mem_Icc.1 hk
      obtain ⟨x, w, hx, hw, -⟩ := hf k h1 h2
      rw [hx]
      exact List.mem_toFinset.2 (hw.found hi)
    · intro k hk l hl he
      obtain ⟨h1, h2⟩ := Finset.mem_Icc.1 hk
      obtain ⟨h3, h4⟩ := Finset.mem_Icc.1 hl
      obtain ⟨x, w, hx, hw, hd⟩ := hf k h1 h2
      obtain ⟨y, u, hy, hu, hd'⟩ := hf l h3 h4
      have hxy : x = y := UInt16.toNat_inj.1 (hx.symm.trans (he.trans hy))
      subst hxy
      rw [← hd, ← hd']
      exact Asked.depth_eq hi hw hu
  have hlen := List.toFinset_card_le (image.constants.entries.toList.map Prod.fst)
  simp at hcard hlen
  unfold SlotVec.size
  omega

/-- The value that an index is the answer for. -/
theorem loadable_back (value : Loadable) :
    Denotes (ConstantPool.loadable value) loadable value.stored := by
  intro p i p' h image hi
  have hle := Asked.depth_le hi ⟨p, p', h, .refl p'⟩
  have hlt : value.depth < image.nestingBound := Nat.lt_succ_of_le hle
  exact loadableWithin_back value image.nestingBound hlt h hi

theorem loadables_back {values : List Loadable} {done is : List PoolIndex}
    (h : ConstantPool.loadables done values p = .ok is p') (hi : image.Holds p') :
    ∃ is', is = done.reverse ++ is' ∧ is'.mapM image.loadable = .ok (storedAll values) := by
  refine loadablesWithin_back values image.nestingBound ?_ h hi
  rcases Nat.eq_zero_or_pos (depthOfAll values) with hzero | hpos
  · rw [hzero]
    exact Nat.succ_pos _
  · obtain ⟨w, hw, hd⟩ := exists_depthOfAll values hpos
    obtain ⟨j, hj⟩ := asked_of_loadables h w hw
    rw [← hd]
    exact Nat.lt_succ_of_le (Asked.depth_le hi hj)

/-- The bootstrap method that a position is the answer for. -/
theorem bootstrap_back (handle : Handle) (arguments : List Loadable) :
    Denotes (ConstantPool.bootstrap handle arguments) bootstrap
      (handle.stored, storedAll arguments) := by
  intro p k p' h image hi
  obtain ⟨m, p1, h1, h⟩ := Step.bind_ok.1 h
  obtain ⟨is, p2, h2, h3⟩ := Step.bind_ok.1 h
  have hi2 := hi.of_grows (ConstantPool.bootstrapAt_ok h3).1
  have hi1 := hi2.of_grows (ConstantPool.stable_loadables _ _ _ _ _ h2).1.grows
  have hmethod : image.bootstrapEntry k = .ok ⟨m, is⟩ := by
    unfold bootstrapEntry
    rw [hi.bootstrap (ConstantPool.bootstrapAt_ok h3).2]
  obtain ⟨is', his, harguments⟩ := loadables_back h2 hi2
  obtain rfl : is = is' := his
  unfold bootstrap
  simp only [bind, Except.bind, hmethod, handle_back handle h1 hi1, harguments]
  rfl

end ClassImage

/-- Asking for a handle as it reads back is asking for the handle. -/
theorem Handle.request_stored (h : Handle) :
    ConstantPool.methodHandle h.stored = ConstantPool.methodHandle h := by
  unfold ConstantPool.methodHandle
  cases hk : h.kind.isField <;> simp [Handle.stored, hk]

mutual

theorem Loadable.request_stored : (value : Loadable) →
    ConstantPool.loadable value.stored = ConstantPool.loadable value
  | .int _ | .float _ | .long _ | .double _ | .string _ | .cls _ | .methodType _ => rfl
  | .methodHandle handle => handle.request_stored
  | .dynamic name descriptor bootstrap arguments => by
    simp only [Loadable.stored, ConstantPool.loadable, bootstrap.request_stored,
      requests_storedAll arguments]

theorem requests_storedAll : (values : List Loadable) → (done : List PoolIndex) →
    ConstantPool.loadables done (storedAll values) = ConstantPool.loadables done values
  | [], done => rfl
  | value :: rest, done => by
    simp only [storedAll, ConstantPool.loadables, value.request_stored,
      requests_storedAll rest]

end

theorem request_bootstrap_stored (handle : Handle) (arguments : List Loadable) :
    ConstantPool.bootstrap handle.stored (storedAll arguments) =
      ConstantPool.bootstrap handle arguments := by
  simp only [ConstantPool.bootstrap, handle.request_stored, requests_storedAll]

theorem Loadable.isWide_stored (value : Loadable) : value.stored.isWide = value.isWide := by
  cases value <;> rfl

/-- Initial values of fields read back as they are. -/
theorem Loadable.stored_of_isInitializer {value : Loadable} (h : value.isInitializer = true) :
    value.stored = value := by
  cases value <;> first | rfl | cases h

end JvmClass
