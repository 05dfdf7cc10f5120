import JvmClass.Proofs.Assembly.Finishing
import JvmClass.Proofs.Assembly.Keeping
import JvmClass.Proofs.Reencoding.Following

/-!
# Bodies completed again

Where nothing is computed, the end of a body fills in its distances and puts one request to the pool
for all that the body stores (`MethodBuilder.codeRequest`). Two bodies that correspond put the same
request, so that they get the same attribute (`MethodBuilder.Following.completes`).
-/

namespace JvmClass

open ConstantPool (Stable)

/-- A label of one graph has the offset of a label of another graph. -/
def LabelGraph.Agree (g g' : LabelGraph) (l l' : Label) : Prop := g'.offset l' = g.offset l

namespace Handlers

variable {g g' : LabelGraph} {handlers handlers' : Handlers} {u : Unit} {s s' : PoolOutput}

/-- Handlers whose labels have the same offsets. -/
structure Agree (g g' : LabelGraph) (h h' : ExceptionHandler) : Prop where
  start : g.Agree g' h.start h'.start
  stop : g.Agree g' h.stop h'.stop
  handler : g.Agree g' h.handler h'.handler
  catchType : h'.catchType = h.catchType

/-- The range of every handler has a place. -/
def Settled (g : LabelGraph) (handlers : Handlers) : Prop :=
  ∀ h ∈ handlers, ∃ empty, h.isEmpty g = .ok empty

theorem Agree.isEmpty {h h' : ExceptionHandler} (ha : Agree g g' h h') :
    h'.isEmpty g' = h.isEmpty g := by
  unfold ExceptionHandler.isEmpty
  rw [show g'.offset h'.start = g.offset h.start from ha.start,
    show g'.offset h'.stop = g.offset h.stop from ha.stop]

theorem putPlace_agree {l l' : Label} (ha : g.Agree g' l l') : putPlace g' l' = putPlace g l := by
  unfold putPlace LabelGraph.codeOffset
  rw [show g'.offset l' = g.offset l from ha]

theorem Agree.putEntry {h h' : ExceptionHandler} (ha : Agree g g' h h') :
    Handlers.putEntry g' h' = Handlers.putEntry g h := by
  unfold Handlers.putEntry
  rw [putPlace_agree ha.start, putPlace_agree ha.stop, putPlace_agree ha.handler, ha.catchType]

theorem putEntries_agree (h : List.Forall₂ (Agree g g') handlers handlers') (count : Nat) :
    putEntries g' count handlers' = putEntries g count handlers := by
  induction h generalizing count with
  | nil => rfl
  | cons hfirst _ ih => rw [putEntries, putEntries, hfirst.isEmpty, hfirst.putEntry, ih, ih]

/-- Handlers whose ranges hold no code do not matter. -/
theorem putEntries_filter (h : Settled g handlers) (count : Nat) :
    putEntries g count (handlers.filter (holdsCode g)) = putEntries g count handlers := by
  induction handlers generalizing count with
  | nil => rfl
  | cons handler rest ih =>
    obtain ⟨⟨empty, hempty⟩, hrest⟩ := List.forall_mem_cons.1 h
    cases empty with
    | true =>
      rw [List.filter_cons_of_neg (by simp [holdsCode, hempty]), ih hrest]
      funext s
      simp only [putEntries, hempty]
      rfl
    | false =>
      rw [List.filter_cons_of_pos (by simp [holdsCode, hempty]), putEntries, putEntries, ih hrest,
        ih hrest]

theorem settled_filterM {f : ExceptionHandler → Except ClassError Bool} (kept : Handlers) :
    (∃ left, handlers.filterAuxM f kept = .ok left) ↔ ∀ h ∈ handlers, ∃ keep, f h = .ok keep := by
  induction handlers generalizing kept with
  | nil => exact ⟨fun _ => nofun, fun _ => ⟨_, rfl⟩⟩
  | cons handler rest ih =>
    rw [List.filterAuxM, List.forall_mem_cons]
    constructor
    · rintro ⟨left, h⟩
      obtain ⟨keep, hkeep, hrest⟩ := Step.except_bind_ok.1 h
      exact ⟨⟨keep, hkeep⟩, (ih _).1 ⟨left, hrest⟩⟩
    · rintro ⟨⟨keep, hkeep⟩, hrest⟩
      obtain ⟨left, hleft⟩ := (ih _).2 hrest
      exact ⟨left, Step.except_bind_ok.2 ⟨keep, hkeep, hleft⟩⟩

theorem byteSize_ok : (∃ n, byteSize g handlers = .ok n) ↔ Settled g handlers := by
  have hkeep (h : ExceptionHandler) : (∃ keep, (do return !(← h.isEmpty g)) = Except.ok keep) ↔
      ∃ empty, h.isEmpty g = .ok empty := by
    cases h.isEmpty g with
    | ok empty => exact ⟨fun _ => ⟨_, rfl⟩, fun _ => ⟨_, rfl⟩⟩
    | error e => exact ⟨fun ⟨_, h⟩ => (nomatch h), fun ⟨_, h⟩ => (nomatch h)⟩
  unfold byteSize nonempty List.filterM Settled
  simp only [← hkeep, ← settled_filterM []]
  cases List.filterAuxM (fun h => do return !(← ExceptionHandler.isEmpty g h)) handlers [] with
  | ok left => exact ⟨fun _ => ⟨_, rfl⟩, fun _ => ⟨_, rfl⟩⟩
  | error e => exact ⟨fun ⟨_, h⟩ => (nomatch h), fun ⟨_, h⟩ => (nomatch h)⟩

theorem Settled.agree (h : Settled g handlers)
    (ha : List.Forall₂ (Agree g g') (handlers.filter (holdsCode g)) handlers') :
    Settled g' handlers' := by
  intro handler hmem
  obtain ⟨original, hmem', hagree⟩ := exists_of_forall₂ ha hmem
  obtain ⟨empty, hempty⟩ := h original (List.mem_of_mem_filter hmem')
  exact ⟨empty, hagree.isEmpty.trans hempty⟩

/-- The stored table. -/
def table (g : LabelGraph) (handlers : Handlers) : ConstantPool.Request Bytes := fun pool =>
  match put g handlers ⟨pool, #[]⟩ with
  | .ok _ s => .ok s.out s.pool
  | .error e s => .error e s.pool

theorem table_ok {p p' : ConstantPool} {out : Bytes} :
    table g handlers p = .ok out p' ↔ put g handlers ⟨p, #[]⟩ = .ok () ⟨p', out⟩ := by
  unfold table
  cases put g handlers ⟨p, #[]⟩ with
  | ok _ s => obtain ⟨pool, bytes⟩ := s; simp [and_comm]
  | error e s => simp

theorem table_agree (h : Settled g handlers)
    (ha : List.Forall₂ (Agree g g') (handlers.filter (holdsCode g)) handlers') :
    table g' handlers' = table g handlers := by
  have hput : put g' handlers' = put g handlers := by
    unfold put
    rw [putEntries_agree ha, putEntries_filter h]
  unfold table
  rw [hput]

theorem spells_putPlace (g : LabelGraph) (label : Label) :
    Store.Spells (putPlace g label) fun _ _ => True := by
  intro s u s' h
  obtain ⟨place, hplace, rfl⟩ := putPlace_ok h
  refine ⟨.refl, _, rfl, fun _ _ => trivial, fun q out _ => ?_⟩
  simp only [putPlace, LabelGraph.codeOffset, hplace, bind, Except.bind, Step.of, EStateM.bind,
    if_pos place.toNat_lt, UInt16.ofNat_toNat]
  rfl

theorem spells_putEntry (g : LabelGraph) (h : ExceptionHandler) :
    Store.Spells (Handlers.putEntry g h) fun _ _ => True := by
  have hplaces (store : Store Unit) (hstore : Store.Spells store fun _ _ => True) :
      Store.Spells (do putPlace g h.start; putPlace g h.stop; putPlace g h.handler; store)
        fun _ _ => True :=
    ((spells_putPlace g _).andThen ((spells_putPlace g _).andThen
      ((spells_putPlace g _).andThen hstore))).mono fun _ _ _ => trivial
  unfold Handlers.putEntry
  cases h.catchType with
  | none =>
    refine hplaces _ fun s u s' hs => ?_
    obtain rfl := Step.modify_ok.1 hs
    exact ⟨.refl, _, rfl, fun _ _ => trivial, fun _ _ _ => rfl⟩
  | some name =>
    exact hplaces _ ((Store.spells_index (ConstantPool.stable_cls name)
      (ClassImage.cls_back name)).mono fun _ _ _ => trivial)

/-- What is appended for handlers is appended again, wherever the pool answers as it did. -/
theorem putEntries_again {count : Nat} {n : UInt16} (h : putEntries g count handlers s = .ok n s') :
    ∃ bytes, s'.out = s.out.putAll bytes ∧ ∀ q out, s'.pool.Grows q →
      putEntries g count handlers ⟨q, out⟩ = .ok n ⟨q, out.putAll bytes⟩ := by
  induction handlers generalizing count s with
  | nil =>
    obtain ⟨rfl, rfl⟩ := Step.pure_ok.1 h
    exact ⟨[], rfl, fun _ _ _ => rfl⟩
  | cons handler rest ih =>
    simp only [putEntries, Step.bind_ok, Step.of_ok] at h
    obtain ⟨empty, _, ⟨hempty, rfl⟩, h⟩ := h
    have hrun (q : PoolOutput) : putEntries g count (handler :: rest) q = (if empty then
        putEntries g count rest else do
          Handlers.putEntry g handler
          if count + 1 < 65536 then putEntries g (count + 1) rest
          else throw (.tooManyEntries "exception handlers" (count + 1))) q := by
      rw [putEntries, hempty]
      rfl
    cases empty with
    | true =>
      obtain ⟨bytes, hout, hagain⟩ := ih h
      exact ⟨bytes, hout, fun q out hq => (hrun _).trans (hagain q out hq)⟩
    | false =>
      simp only [Bool.false_eq_true, if_false, Step.bind_ok] at h hrun
      obtain ⟨_, mid, hentry, h⟩ := h
      obtain ⟨-, front, hfront, -, hagain⟩ := spells_putEntry g handler _ _ _ hentry
      split at h
      · rename_i hlt
        obtain ⟨bytes, hout, hagain'⟩ := ih h
        have hgrows := (pool_putEntries h).grows
        refine ⟨front ++ bytes, by rw [hout, hfront, Bytes.putAll_append], fun q out hq => ?_⟩
        rw [hrun, if_pos hlt]
        refine Step.bind_ok.2 ⟨(), _, hagain q out (hgrows.trans hq), ?_⟩
        rw [hagain' q _ hq, Bytes.putAll_append]
      · exact (Step.throw_ok.1 h).elim

theorem stable_table (g : LabelGraph) (handlers : Handlers) : Stable (table g handlers) := by
  intro p out p' h
  rw [table_ok] at h
  refine ⟨pool_put h, fun q hq => table_ok.2 ?_⟩
  simp only [put, Step.bind_ok, Step.get_ok, Step.modify_ok] at h ⊢
  obtain ⟨_, _, ⟨rfl, rfl⟩, _, _, rfl, n, mid, hput, hlast⟩ := h
  obtain ⟨bytes, hout, hagain⟩ := putEntries_again hput
  simp only [PoolOutput.mk.injEq] at hlast
  obtain ⟨rfl, rfl⟩ := hlast
  refine ⟨_, _, ⟨rfl, rfl⟩, (), _, rfl, n, _, hagain q _ hq, ?_⟩
  rw [hout]

end Handlers

namespace LabelGraph

variable {g g' : LabelGraph}

theorem lineNumberTable_agree {lines lines' : List (UInt16 × Label)}
    (h : List.Forall₂ (fun x y => y.1 = x.1 ∧ g.Agree g' x.2 y.2) lines lines') :
    g'.lineNumberTable lines' = g.lineNumberTable lines := by
  have hempty : lines'.isEmpty = lines.isEmpty := by
    cases h <;> rfl
  have hstored : lines'.mapM g'.storedLine = lines.mapM g.storedLine := by
    clear hempty
    induction h with
    | nil => rfl
    | @cons x y _ _ hfirst _ ih =>
      have hline : g'.storedLine y = g.storedLine x := by
        unfold storedLine codeOffset
        rw [hfirst.1, show g'.offset y.2 = g.offset x.2 from hfirst.2]
      rw [List.mapM_cons, List.mapM_cons, hline, ih]
  unfold lineNumberTable
  rw [hempty, hstored]

/-- Variables that are the same, with ranges that have the same offsets. -/
structure VariableAgree (g g' : LabelGraph) (v v' : VariableRange Label) : Prop where
  name : v'.name = v.name
  descriptor : v'.descriptor = v.descriptor
  start : g.Agree g' v.start v'.start
  stop : g.Agree g' v.stop v'.stop
  slot : v'.slot = v.slot

theorem localVariableTable_agree {vars vars' : List (VariableRange Label)}
    (h : List.Forall₂ (VariableAgree g g') vars vars') :
    g'.localVariableTable vars' = g.localVariableTable vars := by
  have hempty : vars'.isEmpty = vars.isEmpty := by
    cases h <;> rfl
  have hstored : vars'.mapM g'.storedVariable = vars.mapM g.storedVariable := by
    clear hempty
    induction h with
    | nil => rfl
    | @cons v v' _ _ hfirst _ ih =>
      have hvariable : g'.storedVariable v' = g.storedVariable v := by
        unfold storedVariable codeOffset
        rw [hfirst.name, hfirst.descriptor, hfirst.slot,
          show g'.offset v'.start = g.offset v.start from hfirst.start,
          show g'.offset v'.stop = g.offset v.stop from hfirst.stop]
      rw [List.mapM_cons, List.mapM_cons, hvariable, ih]
  unfold localVariableTable
  rw [hempty, hstored]

end LabelGraph

namespace MethodBuilder

variable {b b' c : MethodBuilder} {u : Unit} {g g' : LabelGraph} {places : Places}
  {final : ConstantPool}

/-- Types that are the same once labels are replaced by offsets. -/
theorem mapM_agree {t t' : LabelledType} (h : TypeSame g places t t')
    (hagree : ∀ l l', Same g places l l' → g.Agree g' l l') :
    (t'.mapM pure g'.offset : Except ClassError NamedType) = t.mapM pure g.offset := by
  cases h with
  | @uninitialized l l' same =>
    have hsame : g'.offset l' = g.offset l := hagree l l' same
    simp only [VerificationType.mapM, hsame]
  | other initialized =>
    cases t with
    | uninitialized l => exact absurd rfl (initialized l)
    | _ => rfl

theorem givenLayout_agree {x y : Nat × Layout LabelledType} (h : FrameSame g places x y)
    (hagree : ∀ l l', Same g places l l' → g.Agree g' l l') :
    givenLayout g' y = givenLayout g x := by
  have htypes {ts ts' : List LabelledType} (ht : List.Forall₂ (TypeSame g places) ts ts') :
      (ts'.mapM fun t => t.mapM pure g'.offset : Except ClassError (List NamedType)) =
        ts.mapM fun t => t.mapM pure g.offset := by
    induction ht with
    | nil => rfl
    | cons hfirst _ ih => rw [List.mapM_cons, List.mapM_cons, mapM_agree hfirst hagree, ih]
  simp only [givenLayout, h.offset, htypes h.locals, htypes h.stack]

/-- The frames that were given, as they are stored. -/
def storedFrames (b : MethodBuilder) (g : LabelGraph) :
    Except ClassError (List (Nat × Layout NamedType)) := b.givenFrames.toList.mapM (givenLayout g)

/-- The body with its code and its tables, which get their constants. -/
def codeRequest (b : MethodBuilder) (g : LabelGraph) (stack locals : UInt16)
    (frames : List (Nat × Layout NamedType)) (code : Bytes) : ConstantPool.Request Attribute := do
  let stackMap ← stackMapTable b.entryFrame.layout frames
  let table ← Handlers.table g b.handlers.toList
  let lines ← g.lineNumberTable b.lines.toList
  let vars ← g.localVariableTable b.vars.toList
  let raw ← Attribute.makeRaw b.codeAttributes.toList
  let attributes := lines ++ vars ++ raw ++ stackMap
  let _ ← Step.of (count16 "code attributes" attributes.length)
  Attribute.make (.code stack locals code table attributes)

theorem stable_codeRequest (b : MethodBuilder) (g : LabelGraph) (stack locals : UInt16)
    (frames : List (Nat × Layout NamedType)) (code : Bytes) :
    Stable (b.codeRequest g stack locals frames code) :=
  (stable_stackMapTable _ _).bind fun _ => (Handlers.stable_table _ _).bind fun _ =>
    (LabelGraph.stable_lineNumberTable _ _).bind fun _ =>
      (LabelGraph.stable_localVariableTable _ _).bind fun _ =>
        (Attribute.gives_makeRaw _).stable.bind fun _ => (ConstantPool.stable_of _).bind fun _ =>
          (Attribute.gives_make _).stable

/-- What the end of a body does if nothing is computed. -/
structure Completes (b : MethodBuilder) (stack locals : UInt16) (code : Bytes)
    (frames : List (Nat × Layout NamedType)) (a : Attribute) (pool : ConstantPool) : Prop where
  begun : b.entry.isSome = true
  size : b.code.size < 65536
  patch : patch b.fixups.toList { b with graph := b.graph.resolve } =
    .ok () { b with graph := b.graph.resolve, code }
  stored : b.storedFrames b.graph.resolve = .ok frames
  settled : Handlers.Settled b.graph.resolve b.handlers.toList
  request : b.codeRequest b.graph.resolve stack locals frames code b.pool = .ok a pool

/-- A body that has been completed. -/
def completed (b : MethodBuilder) (a : Attribute) (pool : ConstantPool) : MethodBuilder :=
  { b with
    graph := b.graph.resolve, pool, lines := #[], vars := #[], codeAttributes := #[], code := #[]
    body := some a }

theorem limits_plain {entry : Label} {stack locals : UInt16} {lim : Limits}
    (hplainly : b.setting.compute = ⟨false, false⟩) :
    limits entry stack locals b = .ok lim b' ↔ ∃ frames stackMap pool,
      b.storedFrames b.graph = .ok frames ∧
      stackMapTable b.entryFrame.layout frames b.pool = .ok stackMap pool ∧
      lim = ⟨stack, locals.toNat, stackMap⟩ ∧ b' = { b with pool } := by
  simp only [limits, Step.bind_ok, Step.get_ok]
  constructor
  · rintro ⟨_, _, ⟨rfl, rfl⟩, h⟩
    simp only [hplainly, Compute.computesMaxs, Bool.false_eq_true, if_false, Bool.or_self,
      Step.bind_ok, Step.pure_ok, givenStackMap, Step.get_ok, Step.of_ok] at h
    obtain ⟨stackMap, _, ⟨_, _, ⟨rfl, rfl⟩, frames, _, ⟨hframes, rfl⟩, hask⟩, rfl, rfl⟩ := h
    obtain ⟨pool, hpool, rfl⟩ := Step.on_ok.1 hask
    exact ⟨frames, stackMap, pool, hframes, hpool, rfl, rfl⟩
  · rintro ⟨frames, stackMap, pool, hframes, hpool, rfl, rfl⟩
    refine ⟨b, b, ⟨rfl, rfl⟩, ?_⟩
    simp only [hplainly, Compute.computesMaxs, Bool.false_eq_true, if_false, Bool.or_self,
      Step.bind_ok, Step.pure_ok, givenStackMap, Step.get_ok, Step.of_ok]
    exact ⟨stackMap, _, ⟨_, _, ⟨rfl, rfl⟩, frames, _, ⟨hframes, rfl⟩, Step.on_ok.2 ⟨pool, hpool,
      rfl⟩⟩, rfl, rfl⟩

theorem exceptionTable_plain {table : Bytes} : exceptionTable b = .ok table b' ↔ ∃ pool,
    Handlers.Settled b.graph b.handlers.toList ∧
    Handlers.table b.graph b.handlers.toList b.pool = .ok table pool ∧ b' = { b with pool } := by
  rw [← Handlers.byteSize_ok]
  simp only [exceptionTable, Step.bind_ok, Step.get_ok, Step.of_ok]
  constructor
  · rintro ⟨_, _, ⟨rfl, rfl⟩, n, _, ⟨hn, rfl⟩, h⟩
    obtain ⟨pool, hput, rfl⟩ := Step.on_ok.1 h
    exact ⟨pool, ⟨n, hn⟩, hput, rfl⟩
  · rintro ⟨pool, ⟨n, hn⟩, hput, rfl⟩
    exact ⟨b, b, ⟨rfl, rfl⟩, n, _, ⟨hn, rfl⟩, Step.on_ok.2 ⟨pool, hput, rfl⟩⟩

/-- Where nothing is computed, a body is completed with one request to the pool. -/
theorem finishBody_plain {stack locals : UInt16} (hplainly : b.setting.compute = ⟨false, false⟩) :
    finishBody stack locals b = .ok u b' ↔ ∃ code frames a pool,
      b.Completes stack locals code frames a pool ∧ b' = b.completed a pool := by
  simp only [finishBody, Step.bind_ok, Step.get_ok]
  constructor
  · rintro ⟨_, _, ⟨rfl, rfl⟩, h⟩
    cases hentry : b.entry with
    | none =>
      rw [hentry] at h
      exact absurd h (by simp [Step.throw_ok])
    | some entry =>
      rw [hentry] at h
      simp only [Step.bind_ok, Step.get_ok] at h
      obtain ⟨_, _, ⟨rfl, rfl⟩, h⟩ := h
      rw [Step.guard_ok] at h
      obtain ⟨hsize, h⟩ := h
      simp only [Step.bind_ok, Step.get_ok, Step.modify_ok] at h
      obtain ⟨_, _, rfl, _, _, ⟨rfl, rfl⟩, _, patched, hpatch, lim, limited, hlimits, h⟩ := h
      obtain ⟨code, rfl⟩ := patch_ok hpatch
      obtain ⟨frames, stackMap, p₁, hframes, h₁, rfl, rfl⟩ :=
        (limits_plain (b := { b with graph := b.graph.resolve, code }) hplainly).1 hlimits
      rw [Step.guard_ok] at h
      obtain ⟨-, h⟩ := h
      simp only [Step.bind_ok, Step.get_ok, Step.set_ok, Step.modify_ok, Step.of_ok] at h
      obtain ⟨table, tabled, htable, _, _, ⟨rfl, rfl⟩, _, _, rfl, lines, _, hlines, _, _, rfl, vars,
        _, hvars, _, _, rfl, raw, _, hraw, n, _, ⟨hcount, rfl⟩, _, _, ⟨rfl, rfl⟩, _, _, rfl, body,
        _, hbody, rfl⟩ := h
      obtain ⟨p₂, hsettled, h₂, rfl⟩ := exceptionTable_plain.1 htable
      obtain ⟨p₃, h₃, rfl⟩ := Step.on_ok.1 hlines
      obtain ⟨p₄, h₄, rfl⟩ := Step.on_ok.1 hvars
      obtain ⟨p₅, h₅, rfl⟩ := Step.on_ok.1 hraw
      obtain ⟨p₆, h₆, rfl⟩ := Step.on_ok.1 hbody
      simp only [UInt16.ofNat_toNat] at h₆
      refine ⟨code, frames, body, p₆, ⟨by rw [hentry]; rfl, Nat.not_le.1 hsize, hpatch, hframes,
        hsettled, ?_⟩, rfl⟩
      simp only [codeRequest, Step.bind_ok, Step.of_ok]
      exact ⟨stackMap, p₁, h₁, table, p₂, h₂, lines, p₃, h₃, vars, p₄, h₄, raw, p₅, h₅, n, p₅,
        ⟨hcount, rfl⟩, h₆⟩
  · rintro ⟨code, frames, a, pool, h, rfl⟩
    obtain ⟨entry, hentry⟩ := Option.isSome_iff_exists.1 h.begun
    have hrequest := h.request
    simp only [codeRequest, Step.bind_ok, Step.of_ok] at hrequest
    obtain ⟨stackMap, p₁, h₁, table, p₂, h₂, lines, p₃, h₃, vars, p₄, h₄, raw, p₅, h₅, n, _,
      ⟨hcount, rfl⟩, h₆⟩ := hrequest
    refine ⟨b, b, ⟨rfl, rfl⟩, ?_⟩
    rw [hentry]
    simp only [Step.bind_ok, Step.get_ok]
    refine ⟨b, b, ⟨rfl, rfl⟩, ?_⟩
    rw [Step.guard_ok]
    refine ⟨Nat.not_le.2 h.size, ?_⟩
    simp only [Step.bind_ok, Step.get_ok, Step.modify_ok]
    refine ⟨(), _, rfl, _, _, ⟨rfl, rfl⟩, (), _, h.patch, _, _,
      (limits_plain (b := { b with graph := b.graph.resolve, code }) hplainly).2
        ⟨frames, stackMap, p₁, h.stored, h₁, rfl, rfl⟩, ?_⟩
    rw [Step.guard_ok]
    refine ⟨Nat.not_le.2 locals.toNat_lt, ?_⟩
    simp only [Step.bind_ok, Step.get_ok, Step.set_ok, Step.modify_ok, Step.of_ok,
      UInt16.ofNat_toNat]
    exact ⟨table, _, exceptionTable_plain.2 ⟨p₂, h.settled, h₂, rfl⟩, _, _, ⟨rfl, rfl⟩, (), _, rfl,
      lines, _, Step.on_ok.2 ⟨p₃, h₃, rfl⟩, (), _, rfl, vars, _, Step.on_ok.2 ⟨p₄, h₄, rfl⟩, (), _,
      rfl,
      raw, _, Step.on_ok.2 ⟨p₅, h₅, rfl⟩, n, _, ⟨hcount, rfl⟩, _, _, ⟨rfl, rfl⟩, (), _, rfl, a, _,
      Step.on_ok.2 ⟨pool, h₆, rfl⟩, rfl⟩

/-- The distances of fixups with targets at the same offsets are filled in alike. -/
theorem patch_agree {fixups fixups' : List Fixup}
    (h : List.Forall₂ (fun x y => y.source = x.source ∧ y.place = x.place ∧ y.wide = x.wide ∧
      g.Agree g' x.target y.target) fixups fixups') (hb : b.graph = g) (hc : c.graph = g')
    (hcode : c.code = b.code) {code : Bytes} (hpatch : patch fixups b = .ok u { b with code }) :
    patch fixups' c = .ok u { c with code } := by
  induction h generalizing b c with
  | nil =>
    obtain ⟨-, he⟩ := Step.pure_ok.1 hpatch
    have hsame : b.code = code := congrArg MethodBuilder.code he
    rw [← hsame, ← hcode]
    rfl
  | @cons x y rest rest' hfirst hrest ih =>
    obtain ⟨hsource, hplace, hwide, htarget⟩ := hfirst
    simp only [patch, Step.bind_ok, Step.get_ok, Step.of_ok] at hpatch ⊢
    obtain ⟨_, _, ⟨rfl, rfl⟩, target, _, ⟨hoffset, rfl⟩, bytes, _, ⟨hbytes, rfl⟩, _, _, hwrite,
      hpatched⟩ := hpatch
    obtain rfl := write_ok hwrite
    refine ⟨c, c, ⟨rfl, rfl⟩, target, c, ⟨?_, rfl⟩, bytes, c, ⟨?_, rfl⟩, (), _, rfl,
      ih (b := { b with code := b.code.overwrite x.place bytes })
        (c := { c with code := c.code.overwrite y.place bytes }) hb hc ?_ hpatched⟩
    · rw [hc, ← hoffset, hb]
      exact htarget
    · rw [← hbytes, Fixup.bytes, Fixup.bytes, hsource, hwide]
    · rw [hplace, hcode]

/-- A body that corresponds to one that can be completed is completed with the same attribute. -/
theorem Following.completes {stack locals : UInt16} {code : Bytes}
    {frames : List (Nat × Layout NamedType)} {a : Attribute} {pool : ConstantPool}
    (h : b.Following b.graph.resolve places final c)
    (hsettled : ∀ o label, places.get? o = some label → c.graph.position? label = some o)
    (hb : b.Completes stack locals code frames a pool) (hfinal : pool.Grows final) :
    ∃ pool', c.Completes stack locals code frames a pool' ∧ ConstantPool.Mirrors final pool pool' :=
    by
  have hagree (l l' : Label) (hl : Same b.graph.resolve places l l') :
      b.graph.resolve.Agree c.graph.resolve l l' := by
    obtain ⟨o, ho, hl'⟩ := hl
    unfold LabelGraph.Agree
    rw [ho, LabelGraph.offset_resolve, hsettled o l' hl']
  have hhandlers : List.Forall₂ (Handlers.Agree b.graph.resolve c.graph.resolve)
      (b.handlers.toList.filter (Handlers.holdsCode b.graph.resolve)) c.handlers.toList :=
    h.alike.handlers.imp fun _ _ hh => ⟨hagree _ _ hh.start, hagree _ _ hh.stop,
      hagree _ _ hh.handler, hh.catchType⟩
  have hframes : c.storedFrames c.graph.resolve = b.storedFrames b.graph.resolve := by
    unfold storedFrames
    have hall := h.alike.frames
    generalize b.givenFrames.toList = xs, c.givenFrames.toList = ys at hall
    induction hall with
    | nil => rfl
    | cons hfirst _ ih => rw [List.mapM_cons, List.mapM_cons, givenLayout_agree hfirst hagree, ih]
  have hattributes : c.codeAttributes = b.codeAttributes := by
    have hrest := congrArg MethodBuilder.codeAttributes h.alike.rest
    exact hrest
  have hrequest : c.codeRequest c.graph.resolve stack locals frames code =
      b.codeRequest b.graph.resolve stack locals frames code := by
    unfold codeRequest entryFrame
    rw [h.alike.setting, hattributes, Handlers.table_agree hb.settled hhandlers,
      LabelGraph.lineNumberTable_agree (h.alike.lines.imp fun _ _ hl =>
      ⟨hl.line, hagree _ _ hl.start⟩),
      LabelGraph.localVariableTable_agree (h.alike.vars.imp fun _ _ hv =>
        ⟨hv.name, hv.descriptor, hagree _ _ hv.start, hagree _ _ hv.stop, hv.slot⟩)]
  obtain ⟨pool', hagain, hmirrors⟩ :=
    (b.stable_codeRequest b.graph.resolve stack locals frames code).again hb.request hfinal h.pool
  refine ⟨pool', ⟨h.steady.begun, ?_, ?_, hframes.trans hb.stored, hb.settled.agree hhandlers, ?_⟩,
    hmirrors⟩
  · rw [h.alike.code]
    exact hb.size
  · exact patch_agree (b := { b with graph := b.graph.resolve })
      (c := { c with graph := c.graph.resolve }) (h.alike.fixups.imp fun _ _ hf =>
        ⟨hf.source, hf.place, hf.wide, hagree _ _ hf.target⟩) rfl rfl h.alike.code hb.patch
  · rw [hrequest]
    exact hagain

end MethodBuilder

end JvmClass
