import JvmClass.Proofs.Assembly.Finishing

/-!
# What the events of a body leave alone

The events of a body work on the code, on the control flow and on the pool. `MethodBuilder.Keeps`
says that the pool is only added to, and that what is declared and known about the method as a whole
stays as it is, but for the body itself once it is complete. `MethodBuilder.Keeping` says so of a
step, whatever the state that it starts from.
-/

namespace JvmClass

open ConstantPool (Stable)

namespace Handlers

variable {g : LabelGraph} {handlers : Handlers} {u : Unit} {s s' : PoolOutput}

theorem pool_putEntry {h : ExceptionHandler} (hput : putEntry g h s = .ok u s') :
    s.pool.Extended s'.pool := by
  simp only [putEntry, Step.bind_ok] at hput
  obtain ⟨_, _, h1, _, _, h2, _, _, h3, hclass⟩ := hput
  obtain ⟨_, -, rfl⟩ := putPlace_ok h1
  obtain ⟨_, -, rfl⟩ := putPlace_ok h2
  obtain ⟨_, -, rfl⟩ := putPlace_ok h3
  cases hc : h.catchType with
  | none =>
    rw [hc] at hclass
    obtain rfl := Step.modify_ok.1 hclass
    exact .refl
  | some name =>
    rw [hc] at hclass
    obtain ⟨i, _, h4, h5⟩ := Step.bind_ok.1 hclass
    obtain ⟨pool, hask, rfl⟩ := Step.on_ok.1 h4
    obtain rfl := Step.modify_ok.1 h5
    exact (ConstantPool.stable_cls name _ _ _ hask).1

theorem pool_putEntries {count : Nat} {n : UInt16} (h : putEntries g count handlers s = .ok n s') :
    s.pool.Extended s'.pool := by
  induction handlers generalizing count s with
  | nil =>
    obtain ⟨-, rfl⟩ := Step.pure_ok.1 h
    exact .refl
  | cons handler rest ih =>
    simp only [putEntries, Step.bind_ok, Step.of_ok] at h
    obtain ⟨empty, _, ⟨-, rfl⟩, h⟩ := h
    split at h
    · exact ih h
    · obtain ⟨_, mid, hentry, h⟩ := Step.bind_ok.1 h
      split at h
      · exact (pool_putEntry hentry).trans (ih h)
      · exact (Step.throw_ok.1 h).elim

/-- Storing a table asks the pool for the classes that its handlers catch. -/
theorem pool_put (h : put g handlers s = .ok u s') : s.pool.Extended s'.pool := by
  simp only [put, Step.bind_ok, Step.get_ok, Step.modify_ok] at h
  obtain ⟨_, _, ⟨rfl, rfl⟩, _, _, rfl, n, mid, hput, rfl⟩ := h
  have hext := pool_putEntries hput
  exact hext

end Handlers

namespace MethodBuilder

/-- The body, if there is one, is an attribute for code, whose name the pool has. -/
def CodeNamed (b : MethodBuilder) : Prop :=
  ∀ a, b.body = some a → a.2.name = "Code" ∧ ∀ image, image.Holds b.pool → a.Named image

/-- What a method has apart from its code and its control flow. -/
def known (b : MethodBuilder) :=
  (b.pool, b.setting, b.annotations, b.attributes, b.finished, b.body)

/-- The pool is added to, and nothing else changes of what a method has apart from its body. -/
structure Keeps (b b' : MethodBuilder) : Prop where
  pool : b.pool.Extended b'.pool
  setting : b'.setting = b.setting
  annotations : b'.annotations = b.annotations
  attributes : b'.attributes = b.attributes
  finished : b'.finished = b.finished
  body : b.CodeNamed → b'.CodeNamed

theorem Keeps.refl (b : MethodBuilder) : b.Keeps b := ⟨.refl, rfl, rfl, rfl, rfl, id⟩

theorem Keeps.trans {b b' b'' : MethodBuilder} (h : b.Keeps b') (h' : b'.Keeps b'') :
    b.Keeps b'' where
  pool := h.pool.trans h'.pool
  setting := h'.setting.trans h.setting
  annotations := h'.annotations.trans h.annotations
  attributes := h'.attributes.trans h.attributes
  finished := h'.finished.trans h.finished
  body := h'.body ∘ h.body

/-- The name of a body stays known. -/
theorem CodeNamed.extended {b b' : MethodBuilder} (h : b.CodeNamed)
    (hpool : b.pool.Extended b'.pool) (hbody : b'.body = b.body) : b'.CodeNamed := by
  intro a ha
  obtain ⟨hname, hnamed⟩ := h a (hbody ▸ ha)
  exact ⟨hname, fun image hi => hnamed image (hi.of_grows hpool.grows)⟩

/-- The step, where it succeeds, keeps what a method has apart from its body. -/
def Keeping {α : Type} (step : Assemble α) : Prop :=
  ∀ ⦃b : MethodBuilder⦄ ⦃a : α⦄ ⦃b' : MethodBuilder⦄, step b = .ok a b' → b.Keeps b'

section Combinators

variable {α β : Type} {step step' : Assemble α} {k : α → Assemble β}

theorem keeping_pure (a : α) : Keeping (pure a) := by
  intro b _ b' h
  obtain ⟨-, rfl⟩ := Step.pure_ok.1 h
  exact .refl b

theorem keeping_throw (e : ClassError) : Keeping (throw e : Assemble α) :=
  fun _ _ _ h => (Step.throw_ok.1 h).elim

theorem keeping_of (x : Except ClassError α) : Keeping (Step.of x) := by
  intro b _ b' h
  obtain ⟨-, rfl⟩ := Step.of_ok.1 h
  exact .refl b

theorem keeping_get : Keeping get := by
  intro b _ b' h
  obtain ⟨-, rfl⟩ := Step.get_ok.1 h
  exact .refl b

theorem Keeping.bind (h : Keeping step) (hk : ∀ a, Keeping (k a)) : Keeping (step >>= k) := by
  intro b _ b' hb
  obtain ⟨a, mid, ha, hb⟩ := Step.bind_ok.1 hb
  exact (h ha).trans (hk a hb)

theorem keeping_ite {c : Prop} [Decidable c] (h : c → Keeping step) (h' : ¬ c → Keeping step') :
    Keeping (if c then step else step') := by
  split
  · exact h ‹_›
  · exact h' ‹_›

/-- A step behind a check, or without the check's failure. -/
theorem keeping_guard {c : Prop} [Decidable c] {e : ClassError} {k : PUnit → Assemble α}
    (h : Keeping (k ())) : Keeping (if c then (throw e : Assemble PUnit) >>= k else k PUnit.unit) :=
  keeping_ite (fun _ => (keeping_throw e).bind fun _ => h) fun _ => h

/-- A step that is only made under a condition. -/
theorem keeping_when {c : Prop} [Decidable c] {step : Assemble PUnit} {k : PUnit → Assemble α}
    (h : Keeping step) (hk : Keeping (k ())) :
    Keeping (if c then step >>= k else k PUnit.unit) :=
  keeping_ite (fun _ => h.bind fun _ => hk) fun _ => hk

theorem keeping_modify {f : MethodBuilder → MethodBuilder} (h : ∀ b, (f b).known = b.known) :
    Keeping (modify f) := by
  intro b _ b' hb
  obtain rfl := Step.modify_ok.1 hb
  simp only [known, Prod.mk.injEq] at h
  obtain ⟨hpool, hsetting, hannotations, hattributes, hfinished, hbody⟩ := h b
  have hext : b.pool.Extended (f b).pool := hpool ▸ .refl
  exact ⟨hext, hsetting, hannotations, hattributes, hfinished, fun h => h.extended hext hbody⟩

/-- A change of the current state. -/
theorem keeping_change {f : MethodBuilder → MethodBuilder} {k : MethodBuilder → Assemble α}
    (h : ∀ b, (f b).known = b.known) (hk : ∀ b, Keeping (k b)) :
    Keeping (do
      let b ← get
      set (f b)
      k b) := by
  intro b _ b' hb
  obtain ⟨_, _, hget, hb⟩ := Step.bind_ok.1 hb
  obtain ⟨rfl, rfl⟩ := Step.get_ok.1 hget
  obtain ⟨_, mid, hset, hb⟩ := Step.bind_ok.1 hb
  obtain rfl := Step.set_ok.1 hset
  exact (keeping_modify h (Step.modify_run f _)).trans (hk _ hb)

theorem keeping_ask {request : ConstantPool.Request α} (h : Stable request) :
    Keeping (ask request) := by
  intro b a b' hb
  obtain ⟨pool, hpool, rfl⟩ := Step.on_ok.1 hb
  have hext := (h _ _ _ hpool).1
  exact ⟨hext, rfl, rfl, rfl, rfl, fun hbody => hbody.extended hext rfl⟩

theorem keeping_onGraph (step : Step LabelGraph α) : Keeping (onGraph step) := by
  intro b a b' hb
  obtain ⟨graph, -, rfl⟩ := Step.on_ok.1 hb
  exact ⟨.refl, rfl, rfl, rfl, rfl, id⟩

end Combinators

theorem keeping_write (f : Bytes → Bytes) : Keeping (write f) := keeping_modify fun _ => by rfl

theorem keeping_newLabel : Keeping newLabel :=
  keeping_get.bind fun _ => (keeping_modify fun _ => by rfl).bind fun _ => keeping_pure _

theorem keeping_placeLabel (label : Label) : Keeping (placeLabel label) := by
  refine keeping_get.bind fun b => (keeping_onGraph _).bind fun starts => ?_
  refine keeping_ite (fun _ => keeping_get.bind fun b => ?_) fun _ => keeping_modify fun _ => by rfl
  split
  · exact (keeping_onGraph _).bind fun _ =>
      (keeping_modify fun _ => by rfl).bind fun _ => keeping_modify fun _ => by rfl
  · exact (keeping_modify fun _ => by rfl).bind fun _ =>
      (keeping_modify fun _ => by rfl).bind fun _ => keeping_modify fun _ => by rfl

theorem keeping_splitBlock : Keeping splitBlock :=
  keeping_newLabel.bind fun label => keeping_placeLabel label

theorem keeping_endBlock : Keeping endBlock := keeping_modify fun _ => by rfl

theorem keeping_startInstruction : Keeping startInstruction :=
  keeping_get.bind fun _ => keeping_guard <| keeping_get.bind fun _ =>
    keeping_when keeping_splitBlock <| keeping_get.bind fun _ => keeping_pure _

theorem keeping_record (offset : Nat) (effect : Except ClassError Effect) :
    Keeping (record offset effect) := by
  refine keeping_get.bind fun b => keeping_ite (fun _ => ?_) fun _ => keeping_pure _
  refine (keeping_of effect).bind fun effect => keeping_get.bind fun b => ?_
  split
  · exact keeping_pure _
  · exact keeping_modify fun _ => by rfl

theorem keeping_jumpTo (target : Label) : Keeping (jumpTo target) := by
  refine keeping_get.bind fun b => ?_
  split
  · exact keeping_modify fun _ => by rfl
  · exact (keeping_onGraph _).bind fun _ => keeping_modify fun _ => by rfl

theorem keeping_jumpToAll (targets : List Label) : Keeping (jumpToAll targets) := by
  induction targets with
  | nil => exact keeping_pure _
  | cons target rest ih => exact (keeping_jumpTo target).bind fun _ => ih

theorem keeping_putFixup (source : Nat) (target : Label) (wide : Bool) :
    Keeping (putFixup source target wide) :=
  (keeping_modify fun _ => by rfl).bind fun _ => keeping_write _

theorem keeping_touchLocal (slot : UInt16) (width : Nat) : Keeping (touchLocal slot width) :=
  keeping_modify fun _ => by rfl

theorem keeping_splitAfterStore : Keeping splitAfterStore :=
  keeping_get.bind fun _ => keeping_ite (fun _ => keeping_splitBlock) fun _ => keeping_pure _

theorem keeping_putTargets (source : Nat) (targets : List Label) :
    Keeping (putTargets source targets) := by
  induction targets with
  | nil => exact keeping_pure _
  | cons target rest ih => exact (keeping_putFixup source target true).bind fun _ => ih

theorem keeping_putCases (source : Nat) (cases : List (Int32 × Label)) :
    Keeping (putCases source cases) := by
  induction cases with
  | nil => exact keeping_pure _
  | cons case rest ih =>
    exact (keeping_write _).bind fun _ => (keeping_putFixup source case.2 true).bind fun _ => ih

section Instructions

open Opcode

theorem keeping_beginCode : Keeping beginCode :=
  keeping_newLabel.bind fun _ => (keeping_onGraph _).bind fun _ => keeping_modify fun _ => by rfl

theorem keeping_plain (op : UInt8) : Keeping (plain op) :=
  keeping_startInstruction.bind fun offset => (keeping_write _).bind fun _ =>
    (keeping_record offset _).bind fun _ =>
      keeping_ite (fun _ => keeping_endBlock) fun _ => keeping_pure _

theorem keeping_intOperand (op : UInt8) (operand : Int32) : Keeping (intOperand op operand) := by
  refine keeping_startInstruction.bind fun offset => (keeping_write _).bind fun _ => ?_
  have hend (effect : Except ClassError Effect) : Keeping (record offset effect) :=
    keeping_record offset effect
  refine keeping_ite (fun _ => ?_) fun _ => keeping_ite (fun _ => ?_) fun _ =>
    keeping_ite (fun _ => ?_) fun _ => keeping_throw _
  · exact keeping_ite (fun _ => (keeping_write _).bind fun _ => hend _) fun _ =>
      (keeping_throw _).bind fun _ => hend _
  · exact keeping_ite (fun _ => (keeping_write _).bind fun _ => hend _) fun _ =>
      (keeping_throw _).bind fun _ => hend _
  · simp only
    split
    · exact keeping_throw _
    · exact (keeping_write _).bind fun _ => hend _

theorem keeping_access (op : UInt8) (slot : UInt16) : Keeping (access op slot) := by
  refine keeping_startInstruction.bind fun offset => keeping_get.bind fun b => ?_
  refine keeping_guard <| keeping_guard <| (keeping_write _).bind fun _ =>
    (keeping_touchLocal _ _).bind fun _ => (keeping_record _ _).bind fun _ => ?_
  exact keeping_ite (fun _ => keeping_endBlock) fun _ =>
    keeping_ite (fun _ => keeping_splitAfterStore) fun _ => keeping_pure _

theorem keeping_typeOperand (op : UInt8) (name : String) : Keeping (typeOperand op name) :=
  keeping_startInstruction.bind fun _ => (keeping_ask (ConstantPool.stable_cls name)).bind fun _ =>
    (keeping_write _).bind fun _ => keeping_record _ _

theorem keeping_field (op : UInt8) (owner name descriptor : String) :
    Keeping (field op owner name descriptor) :=
  keeping_startInstruction.bind fun _ =>
    (keeping_ask (ConstantPool.stable_fieldRef owner name descriptor)).bind fun _ =>
      (keeping_write _).bind fun _ => keeping_record _ _

theorem keeping_method (op : UInt8) (owner name descriptor : String) (ownerIsInterface : Bool) :
    Keeping (method op owner name descriptor ownerIsInterface) :=
  keeping_startInstruction.bind fun _ =>
    (keeping_ask (ConstantPool.stable_methodRef owner name descriptor ownerIsInterface)).bind
      fun _ => (keeping_of _).bind fun _ => (keeping_write _).bind fun _ =>
        keeping_when (keeping_write _) (keeping_record _ _)

theorem keeping_invokeDynamic (name descriptor : String) (bootstrap : Handle)
    (arguments : List Loadable) : Keeping (invokeDynamic name descriptor bootstrap arguments) :=
  keeping_startInstruction.bind fun _ =>
    (keeping_ask (ConstantPool.stable_invokeDynamic name descriptor bootstrap arguments)).bind
      fun _ => (keeping_write _).bind fun _ => keeping_record _ _

theorem keeping_jump (op : UInt8) (target : Label) : Keeping (jump op target) := by
  refine keeping_startInstruction.bind fun offset => keeping_get.bind fun b => ?_
  refine keeping_guard <| keeping_guard <| keeping_get.bind fun b => (keeping_write _).bind fun _ =>
    (keeping_putFixup _ _ _).bind fun _ => (keeping_record _ _).bind fun _ =>
      (keeping_jumpTo _).bind fun _ => ?_
  exact keeping_ite (fun _ => keeping_endBlock) fun _ => keeping_splitBlock

theorem keeping_frame (layout : Layout LabelledType) : Keeping (frame layout) := by
  refine keeping_get.bind fun b => keeping_guard <|
    keeping_ite (fun _ => keeping_guard ?_) fun _ => keeping_pure _
  exact keeping_modify fun _ => by rfl

theorem keeping_load (value : Loadable) : Keeping (load value) :=
  keeping_startInstruction.bind fun _ =>
    (keeping_ask (ConstantPool.stable_loadable value)).bind fun _ =>
      (keeping_write _).bind fun _ => keeping_record _ _

theorem keeping_increment (slot : UInt16) (amount : Int16) : Keeping (increment slot amount) :=
  keeping_startInstruction.bind fun _ => (keeping_write _).bind fun _ =>
    (keeping_touchLocal _ _).bind fun _ => (keeping_record _ _).bind fun _ =>
      keeping_splitAfterStore

theorem keeping_tableSwitch (low high : Int32) (fallback : Label) (targets : List Label) :
    Keeping (tableSwitch low high fallback targets) := by
  unfold tableSwitch
  exact keeping_guard <| keeping_startInstruction.bind fun _ => (keeping_write _).bind fun _ =>
    (keeping_putFixup _ _ _).bind fun _ => (keeping_write _).bind fun _ =>
      (keeping_putTargets _ _).bind fun _ => (keeping_record _ _).bind fun _ =>
        (keeping_jumpToAll _).bind fun _ => keeping_endBlock

theorem keeping_lookupSwitch (fallback : Label) (keys : List Int32) (targets : List Label) :
    Keeping (lookupSwitch fallback keys targets) := by
  unfold lookupSwitch
  exact keeping_guard <| keeping_startInstruction.bind fun _ => (keeping_write _).bind fun _ =>
    (keeping_putFixup _ _ _).bind fun _ => (keeping_write _).bind fun _ =>
      (keeping_putCases _ _).bind fun _ => (keeping_record _ _).bind fun _ =>
        (keeping_jumpToAll _).bind fun _ => keeping_endBlock

theorem keeping_newMultiArray (descriptor : String) (dimensions : UInt8) :
    Keeping (newMultiArray descriptor dimensions) :=
  keeping_startInstruction.bind fun _ =>
    (keeping_ask (ConstantPool.stable_cls descriptor)).bind fun _ =>
      (keeping_write _).bind fun _ => keeping_record _ _

theorem keeping_localVariable (v : VariableRange Label) : Keeping (localVariable v) :=
  (keeping_touchLocal _ _).bind fun _ => keeping_modify fun _ => by rfl

end Instructions

section Bodies

theorem keeping_patch (fixups : List Fixup) : Keeping (patch fixups) := by
  induction fixups with
  | nil => exact keeping_pure _
  | cons fixup rest ih =>
    exact keeping_get.bind fun _ => (keeping_of _).bind fun _ => (keeping_of _).bind fun _ =>
      (keeping_write _).bind fun _ => ih

theorem keeping_givenStackMap : Keeping givenStackMap :=
  keeping_get.bind fun _ => (keeping_of _).bind fun _ => keeping_ask (stable_stackMapTable _ _)

theorem keeping_blockEnd (next : Option Label) : Keeping (blockEnd next) := by
  cases next with
  | some next => exact keeping_pure _
  | none =>
    exact keeping_newLabel.bind fun _ => keeping_get.bind fun _ => (keeping_onGraph _).bind fun _ =>
      (keeping_modify fun _ => by rfl).bind fun _ => keeping_pure _

theorem keeping_replaceDead (block : Label) (next : Option Label) (start stop : Nat) :
    Keeping (replaceDead block next start stop) := by
  refine (keeping_write _).bind fun _ => (keeping_blockEnd next).bind fun _ =>
    keeping_get.bind fun _ => ?_
  intro b _ b' h
  obtain ⟨_, -, rfl⟩ := Step.on_ok.1 h
  exact ⟨.refl, rfl, rfl, rfl, rfl, id⟩

theorem keeping_placeFrames (inputs : Std.HashMap Label Frame) (plan : FramePlan)
    (blocks : List Label) : Keeping (placeFrames inputs plan blocks) := by
  induction blocks generalizing plan with
  | nil => exact keeping_pure _
  | cons block rest ih =>
    refine keeping_get.bind fun b => (keeping_of _).bind fun start => ?_
    cases rest.head? with
    | some next =>
      refine (keeping_of _).bind fun stop => ?_
      split
      · exact ih _
      · exact keeping_ite (fun _ => (keeping_replaceDead _ _ _ _).bind fun _ => ih _) fun _ => ih _
    | none =>
      refine (keeping_pure _).bind fun stop => ?_
      split
      · exact ih _
      · exact keeping_ite (fun _ => (keeping_replaceDead _ _ _ _).bind fun _ => ih _) fun _ => ih _

theorem keeping_computeFrames (entry : Label) : Keeping (computeFrames entry) :=
  keeping_get.bind fun _ => (keeping_of _).bind fun _ =>
    (keeping_modify fun _ => by rfl).bind fun _ => keeping_get.bind fun _ =>
      (keeping_placeFrames _ _ _).bind fun _ => keeping_guard <|
        (keeping_ask (stable_stackMapTable _ _)).bind fun _ => keeping_pure _

theorem keeping_limits (entry : Label) (stack locals : UInt16) :
    Keeping (limits entry stack locals) := by
  refine keeping_get.bind fun b => keeping_ite (fun _ => ?_) fun _ => keeping_ite (fun _ => ?_)
    fun _ => keeping_givenStackMap.bind fun _ => keeping_pure _
  · exact (keeping_onGraph _).bind fun _ => (keeping_computeFrames entry).bind fun _ =>
      keeping_get.bind fun _ => keeping_pure _
  · exact (keeping_onGraph _).bind fun _ => keeping_get.bind fun _ => keeping_guard <|
      keeping_givenStackMap.bind fun _ => keeping_get.bind fun _ => keeping_pure _

theorem keeping_exceptionTable : Keeping exceptionTable := by
  refine keeping_get.bind fun b => (keeping_of _).bind fun _ => ?_
  intro b _ b' h
  obtain ⟨pool, hpool, rfl⟩ := Step.on_ok.1 h
  split at hpool
  · rename_i hput
    cases hpool
    have hext := Handlers.pool_put hput
    exact ⟨hext, rfl, rfl, rfl, rfl, fun hbody => hbody.extended hext rfl⟩
  · cases hpool

/-- The body that is made has its name in the pool. -/
theorem keeping_makeBody {body : AttributeBody} (hname : body.name = "Code") :
    Keeping (do
      let body ← ask (Attribute.make body)
      modify fun b => { b with body := some body }) := by
  intro b _ b' h
  obtain ⟨a, mid, hmake, h⟩ := Step.bind_ok.1 h
  obtain rfl := Step.modify_ok.1 h
  obtain ⟨pool, hpool, rfl⟩ := Step.on_ok.1 hmake
  have hgives := Attribute.gives_make body
  refine ⟨(hgives.stable _ _ _ hpool).1, rfl, rfl, rfl, rfl, fun _ => ?_⟩
  rintro _ ⟨⟩
  refine ⟨?_, fun image hi => (hgives.answer hpool hi).2⟩
  obtain ⟨i, _, -, hpool⟩ := Step.bind_ok.1 hpool
  obtain ⟨rfl, -⟩ := Step.pure_ok.1 hpool
  exact hname

theorem keeping_finishBody (stack locals : UInt16) : Keeping (finishBody stack locals) := by
  refine keeping_get.bind fun b => ?_
  split
  · exact keeping_throw _
  refine keeping_get.bind fun b => keeping_guard <| (keeping_modify fun _ => by rfl).bind fun _ =>
    keeping_get.bind fun _ => (keeping_patch _).bind fun _ => (keeping_limits _ _ _).bind fun _ =>
    keeping_guard <| keeping_exceptionTable.bind fun _ => ?_
  refine keeping_change (fun _ => by rfl) fun b => ?_
  refine (keeping_ask (LabelGraph.stable_lineNumberTable _ _)).bind fun _ =>
    (keeping_modify fun _ => by rfl).bind fun _ => ?_
  refine (keeping_ask (LabelGraph.stable_localVariableTable _ _)).bind fun _ =>
    (keeping_modify fun _ => by rfl).bind fun _ => ?_
  refine (keeping_ask (Attribute.gives_makeRaw _).stable).bind fun _ => (keeping_of _).bind fun _ =>
    keeping_get.bind fun _ => (keeping_modify fun _ => by rfl).bind fun _ => ?_
  exact keeping_makeBody rfl

end Bodies

/-- The annotation that an event adds to the method as a whole, if any. -/
def annotation? : MethodEvent → Option Annotated
  | .annotated a visible => some (a, visible)
  | _ => none

/-- The event is neither an attribute of the method as a whole nor its end. -/
def Inside : MethodEvent → Prop
  | .attribute _ | .finish => False
  | _ => True

/-- An event takes up the annotation that it holds, and keeps the rest. -/
theorem feed_inside {event : MethodEvent} (hinside : Inside event) {b b' : MethodBuilder} {u : Unit}
    (h : feed event b = .ok u b') :
    b'.annotations.toList = b.annotations.toList ++ (annotation? event).toList ∧
      b.Keeps { b' with annotations := b.annotations } := by
  have hkeeping (hnone : annotation? event = none) (hfeed : Keeping (feed event)) :
      b'.annotations.toList = b.annotations.toList ++ (annotation? event).toList ∧
        b.Keeps { b' with annotations := b.annotations } := by
    obtain ⟨hpool, hsetting, hannotations, hattributes, hfinished, hbody⟩ := hfeed h
    refine ⟨?_, hpool, hsetting, rfl, hattributes, hfinished, hbody⟩
    rw [hannotations, hnone, Option.toList_none, List.append_nil]
  cases event with
  | annotated a visible =>
    obtain rfl := Step.modify_ok.1 h
    exact ⟨Array.toList_push, .refl b⟩
  | «attribute» a => exact hinside.elim
  | newLabels count => exact hkeeping rfl (keeping_modify fun _ => by rfl)
  | code => exact hkeeping rfl keeping_beginCode
  | plain op => exact hkeeping rfl (keeping_plain op)
  | intOperand op operand => exact hkeeping rfl (keeping_intOperand op operand)
  | access op slot => exact hkeeping rfl (keeping_access op slot)
  | typeOperand op name => exact hkeeping rfl (keeping_typeOperand op name)
  | field op owner name descriptor => exact hkeeping rfl (keeping_field op owner name descriptor)
  | method op owner name descriptor ownerIsInterface =>
    exact hkeeping rfl (keeping_method op owner name descriptor ownerIsInterface)
  | invokeDynamic name descriptor bootstrap arguments =>
    exact hkeeping rfl (keeping_invokeDynamic name descriptor bootstrap arguments)
  | jump op target => exact hkeeping rfl (keeping_jump op target)
  | label label => exact hkeeping rfl (keeping_placeLabel label)
  | frame locals stack => exact hkeeping rfl (keeping_frame _)
  | load value => exact hkeeping rfl (keeping_load value)
  | increment slot amount => exact hkeeping rfl (keeping_increment slot amount)
  | tableSwitch low high fallback targets =>
    exact hkeeping rfl (keeping_tableSwitch low high fallback targets)
  | lookupSwitch fallback keys targets =>
    exact hkeeping rfl (keeping_lookupSwitch fallback keys targets)
  | newMultiArray descriptor dimensions =>
    exact hkeeping rfl (keeping_newMultiArray descriptor dimensions)
  | handler start stop handler catchType => exact hkeeping rfl (keeping_modify fun _ => by rfl)
  | localVariable name descriptor start stop slot => exact hkeeping rfl (keeping_localVariable _)
  | lineNumber line start => exact hkeeping rfl (keeping_modify fun _ => by rfl)
  | codeAttribute a =>
    exact hkeeping rfl (keeping_get.bind fun _ => (keeping_of _).bind fun _ =>
      keeping_modify fun _ => by rfl)
  | maxs stack locals => exact hkeeping rfl (keeping_finishBody stack locals)
  | finish => exact hinside.elim

/-- A run of events takes up the annotations that they hold, and keeps the rest. -/
theorem run_inside {events : List MethodEvent} (hinside : ∀ e ∈ events, Inside e)
    {b b' : MethodBuilder} {u : Unit} (h : ClassBuilder.feedMethod events b = .ok u b') :
    b'.annotations.toList = b.annotations.toList ++ events.filterMap annotation? ∧
      b.Keeps { b' with annotations := b.annotations } := by
  induction events generalizing b with
  | nil =>
    obtain ⟨-, rfl⟩ := Step.pure_ok.1 h
    exact ⟨(List.append_nil _).symm, .refl b⟩
  | cons event rest ih =>
    obtain ⟨_, mid, hfirst, hrest⟩ := Step.bind_ok.1 h
    obtain ⟨hannotations, hkeeps⟩ := feed_inside (hinside event List.mem_cons_self) hfirst
    obtain ⟨hannotations', hkeeps'⟩ := ih (fun e he => hinside e (List.mem_cons_of_mem _ he)) hrest
    refine ⟨?_, ⟨hkeeps.pool.trans hkeeps'.pool, hkeeps'.setting.trans hkeeps.setting, rfl,
      hkeeps'.attributes.trans hkeeps.attributes, hkeeps'.finished.trans hkeeps.finished,
      fun hbody => hkeeps'.body (hkeeps.body hbody)⟩⟩
    rw [hannotations', hannotations, List.append_assoc, List.filterMap_cons]
    cases annotation? event <;> rfl

end MethodBuilder

end JvmClass
