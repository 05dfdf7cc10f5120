import JvmClass.Assembly.Member
import JvmClass.Proofs.ChainTable
import JvmClass.Proofs.Constant.Encoding

/-!
# Requests only add to a pool

What a pool answers it goes on answering (`ConstantPool.Grows`). A request adds constants and
bootstrap methods one at a time (`ConstantPool.Extended`), so that the same request to any later
pool gets the same answer and changes nothing (`ConstantPool.Stable`). Requests that are made again
in the same order therefore get the same answers, whether they start from the same pool or from one
that has everything that the first run asked for (`ConstantPool.Mirrors`).
-/

namespace JvmClass.ConstantPool

/-- The second pool answers whatever the first one does, in the same way. -/
structure Grows (p q : ConstantPool) : Prop where
  constant : ∀ {c : Constant} {i : PoolIndex}, p.indices[c]? = some i → q.indices[c]? = some i
  bootstrap : ∀ {m : BootstrapMethod} {k : UInt16},
    p.positions[m]? = some k → q.positions[m]? = some k

variable {α β : Type} {p q r : ConstantPool} {a : α}

theorem Grows.refl (p : ConstantPool) : p.Grows p := ⟨id, id⟩

theorem Grows.trans (h : p.Grows q) (h' : q.Grows r) : p.Grows r :=
  ⟨fun hc => h'.constant (h.constant hc), fun hm => h'.bootstrap (h.bootstrap hm)⟩

/-- A constant that a pool lacks is added without a change to the others. -/
theorem grows_insert {c : Constant} {i : PoolIndex} (hc : p.indices[c]? = none)
    (hindices : q.indices = p.indices.insert c i) (hpositions : q.positions = p.positions) :
    p.Grows q where
  constant {d j} hd := by
    rw [hindices, ChainTable.getElem?_insert]
    split
    · rename_i he
      rw [← eq_of_beq he, hc] at hd
      cases hd
    · exact hd
  bootstrap {m k} hm := by rwa [hpositions]

/-- What an answered request for a constant leaves behind. -/
theorem intern_ok {c : Constant} {i : PoolIndex} (h : intern c p = .ok i q) :
    p.Grows q ∧ q.indices[c]? = some i := by
  unfold intern at h
  split at h
  · rename_i index hindex
    cases h
    exact ⟨.refl p, hindex⟩
  · rename_i hnone
    split at h
    · cases h
    · cases h
      refine ⟨grows_insert hnone rfl rfl, ?_⟩
      rw [ChainTable.getElem?_insert, if_pos (beq_self_eq_true c)]

theorem intern_again {c : Constant} {i : PoolIndex} (h : p.indices[c]? = some i) :
    intern c p = .ok i p := by
  unfold intern
  rw [h]

/-- What an answered request for a bootstrap method leaves behind. -/
theorem bootstrapAt_ok {m : BootstrapMethod} {k : UInt16} (h : bootstrapAt m p = .ok k q) :
    p.Grows q ∧ q.positions[m]? = some k := by
  unfold bootstrapAt at h
  split at h
  · rename_i position hposition
    cases h
    exact ⟨.refl p, hposition⟩
  · rename_i hnone
    split at h
    · cases h
      refine ⟨⟨id, fun {m' k'} hm => ?_⟩, ?_⟩
      · simp only [addBootstrap, Std.HashMap.getElem?_insertIfNew]
        split
        · rename_i he
          rw [← eq_of_beq he.1, hnone] at hm
          cases hm
        · exact hm
      · have hmem : m ∉ p.positions := by
          intro hmem
          rw [Std.HashMap.getElem?_eq_some_getElem hmem] at hnone
          cases hnone
        simp only [addBootstrap, Std.HashMap.getElem?_insertIfNew]
        rw [if_pos ⟨beq_self_eq_true m, hmem⟩]
    · cases h

/-- The second pool comes about from the first one by requests for constants that can be stored and
for bootstrap methods. -/
inductive Extended (p : ConstantPool) : ConstantPool → Prop where
  | refl : Extended p p
  | intern {q r : ConstantPool} {c : Constant} {i : PoolIndex} (h : Extended p q) (hc : c.Fits)
    (answer : intern c q = .ok i r) : Extended p r
  | bootstrapAt {q r : ConstantPool} {m : BootstrapMethod} {k : UInt16} (h : Extended p q)
    (answer : bootstrapAt m q = .ok k r) : Extended p r

theorem Extended.trans (h : p.Extended q) (h' : q.Extended r) : p.Extended r := by
  induction h' with
  | refl => exact h
  | intern _ hc answer ih => exact .intern ih hc answer
  | bootstrapAt _ answer ih => exact .bootstrapAt ih answer

theorem Extended.grows (h : p.Extended q) : p.Grows q := by
  induction h with
  | refl => exact .refl p
  | intern _ _ answer ih => exact ih.trans (intern_ok answer).1
  | bootstrapAt _ answer ih => exact ih.trans (bootstrapAt_ok answer).1

/-- A request that adds to the pool, and that a pool with these additions answers in the same way
without changing. -/
def Stable (request : Request α) : Prop :=
  ∀ p a p', request p = .ok a p' → p.Extended p' ∧ ∀ q, p'.Grows q → request q = .ok a q

theorem stable_pure (a : α) : Stable (pure a) := by
  intro p a' p' h
  obtain ⟨rfl, rfl⟩ := Step.pure_ok.1 h
  exact ⟨.refl, fun q _ => rfl⟩

theorem stable_throw (e : ClassError) : Stable (throw e : Request α) := by
  intro p a p' h
  exact (Step.throw_ok.1 h).elim

theorem stable_of (x : Except ClassError α) : Stable (Step.of x) := by
  cases x with
  | ok a => exact stable_pure a
  | error e => exact stable_throw e

theorem Stable.bind {request : Request α} {k : α → Request β} (h : Stable request)
    (hk : ∀ a, Stable (k a)) : Stable (request >>= k) := by
  intro p b p' hb
  obtain ⟨a, mid, ha, hb⟩ := Step.bind_ok.1 hb
  obtain ⟨hext, hagain⟩ := h p a mid ha
  obtain ⟨hext', hagain'⟩ := hk a mid b p' hb
  refine ⟨hext.trans hext', fun q hq => ?_⟩
  exact Step.bind_ok.2 ⟨a, q, hagain q (hext'.grows.trans hq), hagain' q hq⟩

theorem Stable.map {f : α → β} {request : Request α} (h : Stable request) :
    Stable (do return f (← request)) := h.bind fun a => stable_pure (f a)

theorem Stable.fmap {f : α → β} {request : Request α} (h : Stable request) :
    Stable (f <$> request) := h.map

theorem stable_ite {c : Prop} [Decidable c] {request request' : Request α} (h : Stable request)
    (h' : Stable request') : Stable (if c then request else request') := by
  split
  · exact h
  · exact h'

theorem stable_mapM {f : α → Request β} (h : ∀ a, Stable (f a)) (items : List α) :
    Stable (items.mapM f) := by
  induction items with
  | nil =>
    rw [List.mapM_nil]
    exact stable_pure []
  | cons a rest ih =>
    rw [List.mapM_cons]
    exact (h a).bind fun b => ih.bind fun bs => stable_pure (b :: bs)

theorem stable_intern {c : Constant} (hc : c.Fits) : Stable (intern c) := by
  intro p i p' h
  exact ⟨.intern .refl hc h, fun q hq => intern_again (hq.constant (intern_ok h).2)⟩

theorem stable_bootstrapAt (m : BootstrapMethod) : Stable (bootstrapAt m) := by
  intro p k p' h
  refine ⟨.bootstrapAt .refl h, fun q hq => ?_⟩
  unfold bootstrapAt
  rw [hq.bootstrap (bootstrapAt_ok h).2]

theorem stable_utf8 (text : String) : Stable (utf8 text) := by
  unfold utf8
  simp only
  split
  · rename_i hsize
    exact stable_intern hsize
  · exact stable_throw _

theorem stable_cls (name : String) : Stable (cls name) :=
  (stable_utf8 name).bind fun _ => stable_intern trivial

theorem stable_string (text : String) : Stable (string text) :=
  (stable_utf8 text).bind fun _ => stable_intern trivial

theorem stable_nameAndType (name descriptor : String) : Stable (nameAndType name descriptor) :=
  (stable_utf8 name).bind fun _ => (stable_utf8 descriptor).bind fun _ => stable_intern trivial

theorem stable_fieldRef (owner name descriptor : String) :
    Stable (fieldRef owner name descriptor) :=
  (stable_cls owner).bind fun _ => (stable_nameAndType name descriptor).bind fun _ =>
    stable_intern trivial

theorem stable_methodRef (owner name descriptor : String) (ownerIsInterface : Bool) :
    Stable (methodRef owner name descriptor ownerIsInterface) :=
  (stable_cls owner).bind fun _ => (stable_nameAndType name descriptor).bind fun _ =>
    stable_intern trivial

theorem stable_methodType (descriptor : String) : Stable (methodType descriptor) :=
  (stable_utf8 descriptor).bind fun _ => stable_intern trivial

theorem stable_methodHandle (h : Handle) : Stable (methodHandle h) := by
  unfold methodHandle
  refine stable_ite ?_ ?_
  · exact (stable_fieldRef _ _ _).bind fun _ => stable_intern trivial
  · exact (stable_methodRef _ _ _ _).bind fun _ => stable_intern trivial

mutual

theorem stable_loadable : (value : Loadable) → Stable (loadable value)
  | .int _ | .float _ | .long _ | .double _ => stable_intern trivial
  | .string text => stable_string text
  | .cls name => stable_cls name
  | .methodType descriptor => stable_methodType descriptor
  | .methodHandle handle => stable_methodHandle handle
  | .dynamic name descriptor handle arguments =>
    (stable_methodHandle handle).bind fun _ => (stable_loadables [] arguments).bind fun _ =>
      (stable_bootstrapAt _).bind fun _ => (stable_nameAndType name descriptor).bind fun _ =>
        stable_intern trivial

theorem stable_loadables (done : List PoolIndex) :
    (values : List Loadable) → Stable (loadables done values)
  | [] => stable_pure _
  | value :: rest => (stable_loadable value).bind fun index => stable_loadables (index :: done) rest

end

theorem stable_bootstrap (handle : Handle) (arguments : List Loadable) :
    Stable (bootstrap handle arguments) :=
  (stable_methodHandle handle).bind fun _ => (stable_loadables [] arguments).bind fun _ =>
    stable_bootstrapAt _

theorem stable_invokeDynamic (name descriptor : String) (handle : Handle)
    (arguments : List Loadable) : Stable (invokeDynamic name descriptor handle arguments) :=
  (stable_bootstrap handle arguments).bind fun _ =>
    (stable_nameAndType name descriptor).bind fun _ => stable_intern trivial

theorem stable_utf8? (text : Option String) : Stable (utf8? text) := by
  cases text with
  | none => exact stable_pure none
  | some text => exact (stable_utf8 text).fmap

theorem stable_clsOrZero (name : Option String) : Stable (clsOrZero name) := by
  cases name with
  | none => exact stable_pure 0
  | some name => exact stable_cls name

theorem stable_utf8OrZero (text : Option String) : Stable (utf8OrZero text) := by
  cases text with
  | none => exact stable_pure 0
  | some text => exact stable_utf8 text

theorem stable_classes (names : List String) : Stable (classes names) :=
  stable_mapM stable_cls names

/-- A pool to which the requests of a run are put again: where the run stands, or the final pool,
which has everything that the run asks for. -/
def Mirrors (final p q : ConstantPool) : Prop := q = p ∨ (q = final ∧ p.Grows final)

/-- A request that is put again gets the same answer. -/
theorem Stable.again {request : Request α} (hr : Stable request) {final p' : ConstantPool}
    (h : request p = .ok a p') (hfinal : p'.Grows final) (hm : Mirrors final p q) :
    ∃ q', request q = .ok a q' ∧ Mirrors final p' q' := by
  rcases hm with rfl | ⟨rfl, -⟩
  · exact ⟨p', h, Or.inl rfl⟩
  · exact ⟨q, (hr p a p' h).2 q hfinal, Or.inr ⟨rfl, hfinal⟩⟩

end JvmClass.ConstantPool
