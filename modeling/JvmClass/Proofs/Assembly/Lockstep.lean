import JvmClass.Proofs.Assembly.Charts
import JvmClass.Proofs.Image.ByPlace

/-!
# One body under two settings

What a client tells of a body is the same whatever is computed. The labels that it gets are not,
since some are made on the way: here events number labels in the order in which the client makes
them (`MethodBuilder.feedNumbered`). Two such runs write the same code from the same pool and place
labels with one number in one place, as long as they succeed (`MethodBuilder.parallel_run`).
-/

namespace JvmClass

namespace MethodEvent

variable {name : Label → Label}

theorem stage_relabel (event : MethodEvent) : (event.relabel name).stage = event.stage := by
  cases event <;> rfl

theorem targets_relabel (event : MethodEvent) :
    (event.relabel name).targets = event.targets.map name := by
  cases event <;> rfl

theorem closes_relabel (event : MethodEvent) : (event.relabel name).closes = event.closes := by
  cases event <;> rfl

theorem effects_relabel (event : MethodEvent) (offset : Nat) (effect : Except ClassError Effect) :
    MethodBuilder.Effects offset (event.relabel name) effect ↔
      MethodBuilder.Effects offset event effect := by
  cases event <;> exact Iff.rfl

/-- The targets of an instruction are among its labels. -/
theorem mem_labels_of_target {event : MethodEvent} {label : Label} (h : label ∈ event.targets) :
    label ∈ event.labels := by
  refine List.mem_append_right _ ?_
  cases event <;> first | exact h | cases h

end MethodEvent

namespace LabelGraph

variable {g g' : LabelGraph} {label l : Label} {size p : Nat}

theorem place?_nextLabel (g : LabelGraph) : g.place? g.nextLabel = none := by
  unfold place? data? nextLabel
  rw [Array.getElem?_size]
  rfl

theorem place?_addLabel_nextLabel (g : LabelGraph) :
    g.addLabel.place? g.nextLabel = some ⟨none, none, none⟩ := by
  unfold place? data? addLabel nextLabel
  rw [Array.getElem?_push_size]
  rfl

/-- New labels do not matter to those that there are. -/
theorem place?_addLabels {place : Place} (count : Nat) (h : g.place? label = some place) :
    (g.addLabels count).place? label = some place := by
  induction count generalizing g with
  | zero => exact h
  | succ n ih =>
    refine ih ?_
    rcases place?_addLabel g label with he | ⟨hnone, -⟩
    · rw [he, h]
    · rw [h] at hnone
      cases hnone

/-- New labels are not placed. -/
theorem place?_addLabels_new {count k : Nat} (hk : k < count) :
    (g.addLabels count).place? ⟨g.size + k⟩ = some ⟨none, none, none⟩ := by
  induction count generalizing g k with
  | zero => exact absurd hk (Nat.not_lt_zero k)
  | succ n ih =>
    cases k with
    | zero => exact place?_addLabels n (place?_addLabel_nextLabel g)
    | succ k =>
      have hsize : g.size + (k + 1) = g.addLabel.size + k := by
        unfold size addLabel
        rw [Array.size_push]
        omega
      rw [hsize]
      exact ih (Nat.lt_of_succ_lt_succ hk)

/-- The labels that come next. -/
def fresh (g : LabelGraph) (count : Nat) : List Label :=
  (List.range count).map fun k => ⟨g.size + k⟩

theorem mem_fresh {count : Nat} : label ∈ g.fresh count ↔
    ∃ k, k < count ∧ label = ⟨g.size + k⟩ := by
  simp [fresh, eq_comm]

theorem length_fresh (g : LabelGraph) (count : Nat) : (g.fresh count).length = count := by
  simp [fresh]

theorem nodup_fresh (g : LabelGraph) (count : Nat) : (g.fresh count).Nodup := by
  refine List.nodup_range.map fun j k he => ?_
  have := congrArg Label.number he
  exact Nat.add_left_cancel this

theorem number_lt_of_place {place : Place} (h : g.place? label = some place) :
    label.number < g.size := by
  unfold place? data? at h
  by_contra hle
  rw [Array.getElem?_eq_none (Nat.not_lt.1 hle)] at h
  cases h

end LabelGraph

namespace MethodBuilder

variable {b b' c c' : MethodBuilder} {u u' : Unit}

/-- The pool, the code and the handlers stay as they are, and so do the places of labels. -/
structure Stays (b c : MethodBuilder) : Prop where
  pool : c.pool = b.pool
  code : c.code = b.code
  handlers : c.handlers = b.handlers
  place : ∀ label place, b.graph.place? label = some place → c.graph.place? label = some place

namespace Stays

theorem refl (b : MethodBuilder) : b.Stays b := ⟨rfl, rfl, rfl, fun _ _ h => h⟩

theorem trans (h : b.Stays b') (h' : b'.Stays c) : b.Stays c where
  pool := h'.pool.trans h.pool
  code := h'.code.trans h.code
  handlers := h'.handlers.trans h.handlers
  place label place hl := h'.place label place (h.place label place hl)

theorem of_layout (hpool : c.pool = b.pool) (hcode : c.code = b.code)
    (hhandlers : c.handlers = b.handlers) (hl : b.graph.SameLayout c.graph) : b.Stays c :=
  ⟨hpool, hcode, hhandlers, fun label _ h => (hl.place label).trans h⟩

end Stays

/-- A label gets its position, and the others stay where they are. -/
theorem place?_placing {g g' : LabelGraph} {label : Label} {position : Nat} {starts : Bool}
    (h : LabelGraph.Placing g label position starts g') :
    (∃ place, g'.place? label = some place ∧ place.position = some position) ∧
      ∀ l, l ≠ label → g'.place? l = g.place? l := by
  cases h with
  | joins leader index unplaced last here chain place others => exact ⟨⟨_, place, rfl⟩, others⟩
  | starts leader index last unplaced chain place others => exact ⟨⟨_, place, rfl⟩, others⟩

/-- A label is placed at the end of the code. -/
theorem place?_placeLabel {label : Label} (h : placeLabel label b = .ok u c) :
    (∃ place, c.graph.place? label = some place ∧ place.position = some b.code.size) ∧
      ∀ l, l ≠ label → c.graph.place? l = b.graph.place? l := by
  obtain ⟨g, ⟨hplace, rfl⟩ | ⟨hplace, g', hg', rfl⟩⟩ := placeLabel_ok h
  · exact place?_placing (LabelGraph.placing hplace)
  · obtain ⟨⟨place, hself, hposition⟩, hothers⟩ := place?_placing (LabelGraph.placing hplace)
    have hlayout : g.SameLayout g' := by
      rcases hg' with ⟨previous, -, hedge⟩ | ⟨-, rfl⟩
      · exact LabelGraph.sameLayout_addEdge hedge
      · exact LabelGraph.sameLayout_setFlags _ _ _
    exact ⟨⟨place, (hlayout.place label).trans hself, hposition⟩,
      fun l hl => (hlayout.place l).trans (hothers l hl)⟩

theorem others_placeLabel {label : Label} (h : placeLabel label b = .ok u c) :
    c.pool = b.pool ∧ c.code = b.code ∧ c.handlers = b.handlers := by
  obtain ⟨g, ⟨-, rfl⟩ | ⟨-, g', -, rfl⟩⟩ := placeLabel_ok h <;> exact ⟨rfl, rfl, rfl⟩

theorem stays_splitBlock (h : splitBlock b = .ok u c) : b.Stays c := by
  simp only [splitBlock, newLabel, Step.bind_ok, Step.get_ok, Step.modify_ok, Step.pure_ok] at h
  obtain ⟨_, _, ⟨_, _, ⟨rfl, rfl⟩, _, _, rfl, rfl, rfl⟩, h⟩ := h
  obtain ⟨hpool, hcode, hhandlers⟩ := others_placeLabel h
  refine ⟨hpool, hcode, hhandlers, fun label place hl => ?_⟩
  rw [(place?_placeLabel h).2 label]
  · exact LabelGraph.place?_addLabels 1 hl
  · rintro rfl
    exact absurd (hl.symm.trans (LabelGraph.place?_nextLabel b.graph)) (Option.some_ne_none _)

theorem stays_beginCode (h : beginCode b = .ok u c) : b.Stays c := by
  simp only [beginCode, newLabel, Step.bind_ok, Step.get_ok, Step.modify_ok, Step.pure_ok, onGraph,
    Step.on_ok] at h
  obtain ⟨_, _, ⟨_, _, ⟨rfl, rfl⟩, _, _, rfl, rfl, rfl⟩, starts, _, ⟨g, hplace, rfl⟩, rfl⟩ := h
  refine ⟨rfl, rfl, rfl, fun label place hl => ?_⟩
  show g.place? label = some place
  rw [place?_placing (LabelGraph.placing hplace) |>.2 label]
  · exact LabelGraph.place?_addLabels 1 hl
  · rintro rfl
    exact absurd (hl.symm.trans (LabelGraph.place?_nextLabel b.graph)) (Option.some_ne_none _)

theorem stays_startInstruction {offset : Nat} (h : startInstruction b = .ok offset c) :
    offset = b.code.size ∧ b.Stays c := by
  obtain ⟨rfl, ⟨block, -, rfl⟩ | ⟨-, hsplit⟩⟩ := startInstruction_ok h
  · exact ⟨rfl, .refl _⟩
  · have hs := stays_splitBlock hsplit
    exact ⟨congrArg Array.size hs.code, hs⟩

theorem stays_record {offset : Nat} {effect : Except ClassError Effect}
    (h : record offset effect b = .ok u c) : b.Stays c := by
  obtain ⟨blocks, rfl⟩ := record_eq h
  exact .of_layout rfl rfl rfl (.refl _)

theorem stays_jumpTo {target : Label} (h : jumpTo target b = .ok u c) : b.Stays c := by
  obtain ⟨graph, hl, rfl⟩ := jumpTo_eq h
  exact .of_layout rfl rfl rfl hl

theorem stays_jumpToAll {targets : List Label} (h : jumpToAll targets b = .ok u c) :
    b.Stays c := by
  induction targets generalizing b with
  | nil =>
    obtain ⟨-, rfl⟩ := Step.pure_ok.1 h
    exact .refl _
  | cons target rest ih =>
    obtain ⟨_, mid, h1, h2⟩ := Step.bind_ok.1 h
    exact (stays_jumpTo h1).trans (ih h2)

theorem stays_endBlock (h : endBlock b = .ok u c) : b.Stays c := by
  obtain rfl := Step.modify_ok.1 h
  exact .of_layout rfl rfl rfl (.refl _)

theorem stays_touchLocal {slot : UInt16} {width : Nat} (h : touchLocal slot width b = .ok u c) :
    b.Stays c := by
  obtain rfl := Step.modify_ok.1 h
  exact .of_layout rfl rfl rfl (.refl _)

theorem stays_splitAfterStore (h : splitAfterStore b = .ok u c) : b.Stays c := by
  rcases splitAfterStore_ok h with rfl | hsplit
  · exact .refl _
  · exact stays_splitBlock hsplit

/-- Labels of two bodies that correspond to each other. -/
abbrev LabelPairs := List (Label × Label)

/-- Handlers over ranges that correspond to each other. -/
structure HandlersPaired (pairs : LabelPairs) (h h' : ExceptionHandler) : Prop where
  start : (h.start, h'.start) ∈ pairs
  stop : (h.stop, h'.stop) ∈ pairs
  handler : (h.handler, h'.handler) ∈ pairs

/-- Two bodies have the same code and the same pool, and labels that correspond to each other stand
in the same places. -/
structure InStep (pairs : LabelPairs) (b b' : MethodBuilder) : Prop where
  pool : b'.pool = b.pool
  code : b'.code = b.code
  handlers : List.Forall₂ (HandlersPaired pairs) b.handlers.toList b'.handlers.toList
  placed : ∀ x ∈ pairs, ∃ place place', b.graph.place? x.1 = some place ∧
    b'.graph.place? x.2 = some place' ∧ place'.position = place.position
  distinct : (pairs.map Prod.fst).Nodup
  distinct' : (pairs.map Prod.snd).Nodup

variable {pairs : LabelPairs}

namespace InStep

theorem position (h : InStep pairs b b') {l l' : Label} (hl : (l, l') ∈ pairs) :
    b'.graph.position? l' = b.graph.position? l := by
  obtain ⟨place, place', hp, hp', he⟩ := h.placed _ hl
  rw [LabelGraph.position?_eq, LabelGraph.position?_eq, hp, hp']
  exact he

theorem stays (h : InStep pairs b b') (hs : b.Stays c) (hs' : b'.Stays c') :
    InStep pairs c c' where
  pool := by rw [hs'.pool, h.pool, hs.pool]
  code := by rw [hs'.code, h.code, hs.code]
  handlers := by
    rw [hs.handlers, hs'.handlers]
    exact h.handlers
  placed x hx := by
    obtain ⟨place, place', hp, hp', he⟩ := h.placed x hx
    exact ⟨place, place', hs.place _ _ hp, hs'.place _ _ hp', he⟩
  distinct := h.distinct
  distinct' := h.distinct'

end InStep

/-- Steps that keep two bodies in step, and give the same answer. -/
def Abreast {α : Type} (pairs : LabelPairs) (step step' : Assemble α) : Prop :=
  ∀ ⦃b b' : MethodBuilder⦄ ⦃a a' : α⦄ ⦃c c' : MethodBuilder⦄, InStep pairs b b' →
    step b = .ok a c → step' b' = .ok a' c' → a' = a ∧ InStep pairs c c'

section Combinators

variable {α β : Type} {step step' : Assemble α} {k k' : α → Assemble β}

theorem abreast_pure (a : α) : Abreast pairs (pure a) (pure a) := by
  intro b b' _ _ c c' h h1 h2
  obtain ⟨rfl, rfl⟩ := Step.pure_ok.1 h1
  obtain ⟨rfl, rfl⟩ := Step.pure_ok.1 h2
  exact ⟨rfl, h⟩

theorem abreast_throw {e : ClassError} : Abreast pairs (throw e) step' :=
  fun _ _ _ _ _ _ _ h1 _ => (Step.throw_ok.1 h1).elim

theorem abreast_of (x : Except ClassError α) : Abreast pairs (Step.of x) (Step.of x) := by
  intro b b' _ _ c c' h h1 h2
  obtain ⟨hx, rfl⟩ := Step.of_ok.1 h1
  obtain ⟨hx', rfl⟩ := Step.of_ok.1 h2
  cases hx.symm.trans hx'
  exact ⟨rfl, h⟩

/-- Checks that need not be the same. -/
theorem abreast_check (x x' : Except ClassError Unit) :
    Abreast pairs (Step.of x) (Step.of x') := by
  intro b b' _ _ c c' h h1 h2
  obtain ⟨-, rfl⟩ := Step.of_ok.1 h1
  obtain ⟨-, rfl⟩ := Step.of_ok.1 h2
  exact ⟨rfl, h⟩

theorem Abreast.bind (h : Abreast pairs step step') (hk : ∀ a, Abreast pairs (k a) (k' a)) :
    Abreast pairs (step >>= k) (step' >>= k') := by
  intro b b' _ _ c c' hb h1 h2
  obtain ⟨a, mid, ha, h1⟩ := Step.bind_ok.1 h1
  obtain ⟨a', mid', ha', h2⟩ := Step.bind_ok.1 h2
  obtain ⟨rfl, hmid⟩ := h hb ha ha'
  exact hk _ hmid h1 h2

/-- Steps that depend on what bodies in step have. -/
theorem abreast_get {k k' : MethodBuilder → Assemble α}
    (hk : ∀ b b', InStep pairs b b' → Abreast pairs (k b) (k' b')) :
    Abreast pairs (get >>= k) (get >>= k') := by
  intro b b' _ _ c c' hb h1 h2
  obtain ⟨_, _, hget, h1⟩ := Step.bind_ok.1 h1
  obtain ⟨rfl, rfl⟩ := Step.get_ok.1 hget
  obtain ⟨_, _, hget, h2⟩ := Step.bind_ok.1 h2
  obtain ⟨rfl, rfl⟩ := Step.get_ok.1 hget
  exact hk b b' hb hb h1 h2

theorem abreast_ite {d : Prop} [Decidable d] {other other' : Assemble α}
    (h : Abreast pairs step step') (h' : Abreast pairs other other') :
    Abreast pairs (if d then step else other) (if d then step' else other') := by
  split
  · exact h
  · exact h'

/-- Steps behind checks that need not be the same. -/
theorem abreast_guard {d d' : Prop} [Decidable d] [Decidable d'] {e e' : ClassError}
    {k k' : PUnit → Assemble α} (h : Abreast pairs (k ()) (k' ())) :
    Abreast pairs (if d then (throw e : Assemble PUnit) >>= k else k PUnit.unit)
      (if d' then (throw e' : Assemble PUnit) >>= k' else k' PUnit.unit) := by
  intro b b' _ _ c c' hb h1 h2
  exact h hb (Step.guard_ok.1 h1).2 (Step.guard_ok.1 h2).2

theorem abreast_when {d : Prop} [Decidable d] {step step' : Assemble PUnit}
    {k k' : PUnit → Assemble α} (h : Abreast pairs step step')
    (hk : Abreast pairs (k ()) (k' ())) :
    Abreast pairs (if d then step >>= k else k PUnit.unit)
      (if d then step' >>= k' else k' PUnit.unit) :=
  abreast_ite (h.bind fun _ => hk) hk

/-- Steps that leave what matters as it is. -/
theorem abreast_of_stays {step step' : Assemble Unit}
    (h : ∀ (b : MethodBuilder) u c, step b = .ok u c → b.Stays c)
    (h' : ∀ (b : MethodBuilder) u c, step' b = .ok u c → b.Stays c) :
    Abreast pairs step step' :=
  fun _ _ _ _ _ _ hb h1 h2 => ⟨rfl, hb.stays (h _ _ _ h1) (h' _ _ _ h2)⟩

/-- A change of what does not matter. -/
theorem abreast_modify {f f' : MethodBuilder → MethodBuilder}
    (h : ∀ b : MethodBuilder, b.Stays (f b))
    (h' : ∀ b : MethodBuilder, b.Stays (f' b)) : Abreast pairs (modify f) (modify f') := by
  refine abreast_of_stays (fun b _ _ hb => ?_) fun b _ _ hb => ?_
  · obtain rfl := Step.modify_ok.1 hb
    exact h b
  · obtain rfl := Step.modify_ok.1 hb
    exact h' b

theorem abreast_ask (request : ConstantPool.Request α) :
    Abreast pairs (ask request) (ask request) := by
  intro b b' a a' c c' hb h1 h2
  obtain ⟨pool, hanswer, rfl⟩ := Step.on_ok.1 h1
  obtain ⟨pool', hanswer', rfl⟩ := Step.on_ok.1 h2
  rw [hb.pool] at hanswer'
  cases hanswer.symm.trans hanswer'
  exact ⟨rfl, rfl, hb.code, hb.handlers, hb.placed, hb.distinct, hb.distinct'⟩

theorem abreast_write (f : Bytes → Bytes) : Abreast pairs (write f) (write f) := by
  intro b b' _ _ c c' hb h1 h2
  obtain rfl := write_ok h1
  obtain rfl := write_ok h2
  exact ⟨rfl, hb.pool, congrArg f hb.code, hb.handlers, hb.placed, hb.distinct, hb.distinct'⟩

end Combinators

theorem abreast_startInstruction : Abreast pairs startInstruction startInstruction := by
  intro b b' _ _ c c' hb h1 h2
  obtain ⟨rfl, hs⟩ := stays_startInstruction h1
  obtain ⟨rfl, hs'⟩ := stays_startInstruction h2
  exact ⟨congrArg Array.size hb.code, hb.stays hs hs'⟩

theorem abreast_record (offset : Nat) (effect effect' : Except ClassError Effect) :
    Abreast pairs (record offset effect) (record offset effect') :=
  abreast_of_stays (fun _ _ _ => stays_record) fun _ _ _ => stays_record

theorem abreast_putFixup (source : Nat) (target target' : Label) (wide : Bool) :
    Abreast pairs (putFixup source target wide) (putFixup source target' wide) := by
  refine Abreast.bind ?_ fun _ => abreast_write _
  exact abreast_modify (fun _ => .of_layout rfl rfl rfl (.refl _))
    fun _ => .of_layout rfl rfl rfl (.refl _)

theorem abreast_putTargets (source : Nat) (targets : List Label) (name name' : Label → Label) :
    Abreast pairs (putTargets source (targets.map name))
      (putTargets source (targets.map name')) := by
  induction targets with
  | nil => exact abreast_pure _
  | cons target rest ih => exact (abreast_putFixup source _ _ true).bind fun _ => ih

theorem abreast_putCases (source : Nat) (keys : List Int32) (targets : List Label)
    (name name' : Label → Label) :
    Abreast pairs (putCases source (keys.zip (targets.map name)))
      (putCases source (keys.zip (targets.map name'))) := by
  induction keys generalizing targets with
  | nil => exact abreast_pure _
  | cons key keys ih =>
    cases targets with
    | nil => exact abreast_pure _
    | cons target rest =>
      exact (abreast_write _).bind fun _ => (abreast_putFixup source _ _ true).bind fun _ => ih rest

theorem abreast_jumpToAll (targets targets' : List Label) :
    Abreast pairs (jumpToAll targets) (jumpToAll targets') :=
  abreast_of_stays (fun _ _ _ => stays_jumpToAll) fun _ _ _ => stays_jumpToAll

theorem abreast_endBlock : Abreast pairs endBlock endBlock :=
  abreast_of_stays (fun _ _ _ => stays_endBlock) fun _ _ _ => stays_endBlock

theorem abreast_splitAfterStore : Abreast pairs splitAfterStore splitAfterStore :=
  abreast_of_stays (fun _ _ _ => stays_splitAfterStore) fun _ _ _ => stays_splitAfterStore

theorem abreast_touchLocal (slot : UInt16) (width : Nat) :
    Abreast pairs (touchLocal slot width) (touchLocal slot width) :=
  abreast_of_stays (fun _ _ _ => stays_touchLocal) fun _ _ _ => stays_touchLocal

/-- Labels that correspond to each other are placed. -/
theorem abreast_placeLabel {l l' : Label} (hl : (l, l') ∈ pairs) :
    Abreast pairs (placeLabel l) (placeLabel l') := by
  intro b b' _ _ c c' hb h1 h2
  obtain ⟨⟨place, hself, hposition⟩, hothers⟩ := place?_placeLabel h1
  obtain ⟨⟨place', hself', hposition'⟩, hothers'⟩ := place?_placeLabel h2
  obtain ⟨hpool, hcode, hhandlers⟩ := others_placeLabel h1
  obtain ⟨hpool', hcode', hhandlers'⟩ := others_placeLabel h2
  refine ⟨rfl, by rw [hpool', hb.pool, hpool], by rw [hcode', hb.code, hcode],
    by rw [hhandlers, hhandlers']; exact hb.handlers, fun x hx => ?_, hb.distinct, hb.distinct'⟩
  by_cases he : x = (l, l')
  · subst he
    exact ⟨place, place', hself, hself', by rw [hposition, hposition', hb.code]⟩
  · obtain ⟨p, p', hp, hp', heq⟩ := hb.placed x hx
    refine ⟨p, p', ?_, ?_, heq⟩
    · rw [hothers x.1 fun h => he (List.inj_on_of_nodup_map hb.distinct hx hl h), hp]
    · rw [hothers' x.2 fun h => he (List.inj_on_of_nodup_map hb.distinct' hx hl h), hp']

section Events

open Opcode

theorem abreast_beginCode : Abreast pairs beginCode beginCode :=
  abreast_of_stays (fun _ _ _ => stays_beginCode) fun _ _ _ => stays_beginCode

theorem abreast_plain (op : UInt8) : Abreast pairs (plain op) (plain op) :=
  abreast_startInstruction.bind fun offset => (abreast_write _).bind fun _ =>
    (abreast_record offset _ _).bind fun _ => abreast_ite abreast_endBlock (abreast_pure _)

theorem abreast_intOperand (op : UInt8) (operand : Int32) :
    Abreast pairs (intOperand op operand) (intOperand op operand) := by
  refine abreast_startInstruction.bind fun offset => (abreast_write _).bind fun _ => ?_
  have hend (effect : Except ClassError Effect) :
      Abreast pairs (record offset effect) (record offset effect) := abreast_record offset _ _
  refine abreast_ite ?_ (abreast_ite ?_ (abreast_ite ?_ abreast_throw))
  · exact abreast_ite ((abreast_write _).bind fun _ => hend _)
      (abreast_throw.bind fun _ => hend _)
  · exact abreast_ite ((abreast_write _).bind fun _ => hend _)
      (abreast_throw.bind fun _ => hend _)
  · simp only
    split
    · exact abreast_throw
    · exact (abreast_write _).bind fun _ => hend _

theorem abreast_access (op : UInt8) (slot : UInt16) :
    Abreast pairs (access op slot) (access op slot) := by
  refine abreast_startInstruction.bind fun offset => abreast_get fun b b' _ => ?_
  refine abreast_guard <| abreast_guard <| (abreast_write _).bind fun _ =>
    (abreast_touchLocal _ _).bind fun _ => (abreast_record _ _ _).bind fun _ => ?_
  exact abreast_ite abreast_endBlock (abreast_ite abreast_splitAfterStore (abreast_pure _))

theorem abreast_typeOperand (op : UInt8) (name : String) :
    Abreast pairs (typeOperand op name) (typeOperand op name) :=
  abreast_startInstruction.bind fun _ => (abreast_ask _).bind fun _ =>
    (abreast_write _).bind fun _ => abreast_record _ _ _

theorem abreast_field (op : UInt8) (owner name descriptor : String) :
    Abreast pairs (field op owner name descriptor) (field op owner name descriptor) :=
  abreast_startInstruction.bind fun _ => (abreast_ask _).bind fun _ =>
    (abreast_write _).bind fun _ => abreast_record _ _ _

theorem abreast_method (op : UInt8) (owner name descriptor : String) (ownerIsInterface : Bool) :
    Abreast pairs (method op owner name descriptor ownerIsInterface)
      (method op owner name descriptor ownerIsInterface) :=
  abreast_startInstruction.bind fun _ => (abreast_ask _).bind fun _ => (abreast_of _).bind fun _ =>
    (abreast_write _).bind fun _ => abreast_when (abreast_write _) (abreast_record _ _ _)

theorem abreast_invokeDynamic (name descriptor : String) (bootstrap : Handle)
    (arguments : List Loadable) :
    Abreast pairs (invokeDynamic name descriptor bootstrap arguments)
      (invokeDynamic name descriptor bootstrap arguments) :=
  abreast_startInstruction.bind fun _ => (abreast_ask _).bind fun _ =>
    (abreast_write _).bind fun _ => abreast_record _ _ _

/-- Jumps to labels that correspond to each other have one form. -/
theorem abreast_jump (op : UInt8) {target target' : Label} (ht : (target, target') ∈ pairs) :
    Abreast pairs (jump op target) (jump op target') := by
  refine abreast_startInstruction.bind fun offset => abreast_get fun b b' _ => ?_
  refine abreast_guard <| abreast_guard <| abreast_get fun b b' hb => ?_
  have hform : b'.jumpForm op offset target' = b.jumpForm op offset target := by
    unfold jumpForm
    rw [hb.position ht]
  rw [hform]
  refine (abreast_write _).bind fun _ => (abreast_putFixup _ _ _ _).bind fun _ =>
    (abreast_record _ _ _).bind fun _ => Abreast.bind ?_ fun _ => abreast_ite abreast_endBlock ?_
  · exact abreast_of_stays (fun _ _ _ => stays_jumpTo) fun _ _ _ => stays_jumpTo
  · exact abreast_of_stays (fun _ _ _ => stays_splitBlock) fun _ _ _ => stays_splitBlock

theorem abreast_load (value : Loadable) : Abreast pairs (load value) (load value) :=
  abreast_startInstruction.bind fun _ => (abreast_ask _).bind fun _ =>
    (abreast_write _).bind fun _ => abreast_record _ _ _

theorem abreast_increment (slot : UInt16) (amount : Int16) :
    Abreast pairs (increment slot amount) (increment slot amount) :=
  abreast_startInstruction.bind fun _ => (abreast_write _).bind fun _ =>
    (abreast_touchLocal _ _).bind fun _ => (abreast_record _ _ _).bind fun _ =>
      abreast_splitAfterStore

theorem abreast_tableSwitch (low high : Int32) (fallback : Label) (targets : List Label)
    (name name' : Label → Label) :
    Abreast pairs (tableSwitch low high (name fallback) (targets.map name))
      (tableSwitch low high (name' fallback) (targets.map name')) := by
  unfold tableSwitch
  exact abreast_guard <| abreast_startInstruction.bind fun _ => (abreast_write _).bind fun _ =>
    (abreast_putFixup _ _ _ _).bind fun _ => (abreast_write _).bind fun _ =>
      (abreast_putTargets _ _ _ _).bind fun _ => (abreast_record _ _ _).bind fun _ =>
        (abreast_jumpToAll _ _).bind fun _ => abreast_endBlock

theorem abreast_lookupSwitch (fallback : Label) (keys : List Int32) (targets : List Label)
    (name name' : Label → Label) :
    Abreast pairs (lookupSwitch (name fallback) keys (targets.map name))
      (lookupSwitch (name' fallback) keys (targets.map name')) := by
  unfold lookupSwitch
  exact abreast_guard <| abreast_startInstruction.bind fun _ => (abreast_write _).bind fun _ =>
    (abreast_putFixup _ _ _ _).bind fun _ => (abreast_write _).bind fun _ =>
      (abreast_putCases _ _ _ _ _).bind fun _ => (abreast_record _ _ _).bind fun _ =>
        (abreast_jumpToAll _ _).bind fun _ => abreast_endBlock

theorem abreast_newMultiArray (descriptor : String) (dimensions : UInt8) :
    Abreast pairs (newMultiArray descriptor dimensions) (newMultiArray descriptor dimensions) :=
  abreast_startInstruction.bind fun _ => (abreast_ask _).bind fun _ =>
    (abreast_write _).bind fun _ => abreast_record _ _ _

theorem stays_frame {layout : Layout LabelledType} (h : frame layout b = .ok u c) : b.Stays c := by
  simp only [frame, Step.bind_ok, Step.get_ok] at h
  obtain ⟨_, _, ⟨rfl, rfl⟩, h⟩ := h
  rw [Step.guard_ok] at h
  obtain ⟨-, h⟩ := h
  split at h
  · rw [Step.guard_ok] at h
    obtain rfl := Step.modify_ok.1 h.2
    exact .of_layout rfl rfl rfl (.refl _)
  · obtain ⟨-, rfl⟩ := Step.pure_ok.1 h
    exact .refl b

/-- One more range with its handler. -/
theorem abreast_handler {h h' : ExceptionHandler} (hpaired : HandlersPaired pairs h h') :
    Abreast pairs (modify fun b => { b with handlers := b.handlers.push h })
      (modify fun b => { b with handlers := b.handlers.push h' }) := by
  intro b b' _ _ c c' hb h1 h2
  obtain rfl := Step.modify_ok.1 h1
  obtain rfl := Step.modify_ok.1 h2
  refine ⟨rfl, hb.pool, hb.code, ?_, hb.placed, hb.distinct, hb.distinct'⟩
  rw [Array.toList_push, Array.toList_push]
  exact List.rel_append hb.handlers (.cons hpaired .nil)

/-- Events of the code of a body that make no labels. -/
def isOfCode : MethodEvent → Bool
  | .newLabels _ | .maxs .. | .finish => false
  | _ => true

/-- Two bodies in step take up an event, each with labels of its own that correspond to those of the
other one. -/
theorem abreast_feed {event : MethodEvent} (he : isOfCode event = true) {name name' : Label → Label}
    (hlabels : ∀ label ∈ event.labels, (name label, name' label) ∈ pairs) :
    Abreast pairs (feed (event.relabel name)) (feed (event.relabel name')) := by
  cases event with
  | annotated a visible =>
    exact abreast_modify (fun _ => .of_layout rfl rfl rfl (.refl _))
      fun _ => .of_layout rfl rfl rfl (.refl _)
  | «attribute» a =>
    exact abreast_get fun _ _ _ => (abreast_check _ _).bind fun _ =>
      abreast_modify (fun _ => .of_layout rfl rfl rfl (.refl _))
        fun _ => .of_layout rfl rfl rfl (.refl _)
  | code => exact abreast_beginCode
  | plain op => exact abreast_plain op
  | intOperand op operand => exact abreast_intOperand op operand
  | access op slot => exact abreast_access op slot
  | typeOperand op name => exact abreast_typeOperand op name
  | field op owner name descriptor => exact abreast_field op owner name descriptor
  | method op owner name descriptor ownerIsInterface =>
    exact abreast_method op owner name descriptor ownerIsInterface
  | invokeDynamic name descriptor bootstrap arguments =>
    exact abreast_invokeDynamic name descriptor bootstrap arguments
  | jump op target => exact abreast_jump op (hlabels target (List.mem_singleton_self _))
  | label label => exact abreast_placeLabel (hlabels label List.mem_cons_self)
  | frame locals stack =>
    exact abreast_of_stays (fun _ _ _ => stays_frame) fun _ _ _ => stays_frame
  | load value => exact abreast_load value
  | increment slot amount => exact abreast_increment slot amount
  | tableSwitch low high fallback targets => exact abreast_tableSwitch low high fallback targets _ _
  | lookupSwitch fallback keys targets => exact abreast_lookupSwitch fallback keys targets _ _
  | newMultiArray descriptor dimensions => exact abreast_newMultiArray descriptor dimensions
  | handler start stop handler catchType =>
    exact abreast_handler ⟨hlabels start (by simp [MethodEvent.labels, MethodEvent.refers]),
      hlabels stop (by simp [MethodEvent.labels, MethodEvent.refers]),
      hlabels handler (by simp [MethodEvent.labels, MethodEvent.refers])⟩
  | localVariable name descriptor start stop slot =>
    exact (abreast_touchLocal _ _).bind fun _ =>
      abreast_modify (fun _ => .of_layout rfl rfl rfl (.refl _))
        fun _ => .of_layout rfl rfl rfl (.refl _)
  | lineNumber line start =>
    exact abreast_modify (fun _ => .of_layout rfl rfl rfl (.refl _))
      fun _ => .of_layout rfl rfl rfl (.refl _)
  | codeAttribute a =>
    exact abreast_get fun _ _ _ => (abreast_check _ _).bind fun _ =>
      abreast_modify (fun _ => .of_layout rfl rfl rfl (.refl _))
        fun _ => .of_layout rfl rfl rfl (.refl _)
  | newLabels | maxs | finish => cases he

end Events

section Runs

/-- The labels that are made, by number. -/
def nameFrom (made : List Label) (label : Label) : Label := made.getD label.number label

/-- Takes up events that number labels in the order in which they are made; those made so far are
given. -/
def feedNumbered (made : List Label) : List MethodEvent → Assemble Unit
  | [] => pure ()
  | event :: rest => do
    let newest := (← get).graph.fresh event.labelsMade
    feed (event.relabel (nameFrom made))
    feedNumbered (made ++ newest) rest

/-- Numbers of labels do not matter where there are no labels. -/
theorem feedNumbered_eq {events : List MethodEvent} (made : List Label)
    (h : ∀ event ∈ events, ∀ name, event.relabel name = event) (b : MethodBuilder) :
    feedNumbered made events b = ClassBuilder.feedMethod events b := by
  induction events generalizing b made with
  | nil => rfl
  | cons event rest ih =>
    have hrest : ∀ c (made : List Label),
        feedNumbered made rest c = ClassBuilder.feedMethod rest c :=
      fun c made => ih made (fun e he => h e (List.mem_cons_of_mem _ he)) c
    show (feed (event.relabel (nameFrom made)) >>= fun _ => feedNumbered _ rest) b = _
    rw [h event List.mem_cons_self]
    exact congrArg (fun next => (feed event >>= fun _ => next) b) (funext fun c => hrest c _)

/-- Whether events have labels only that have been made before. -/
def numbered (made : Nat) : List MethodEvent → Bool
  | [] => true
  | event :: rest =>
    event.labels.all (·.number < made) && numbered (made + event.labelsMade) rest

theorem nameFrom_of_isPrefix {made all : List Label} (h : made <+: all) {label : Label}
    (hlt : label.number < made.length) : nameFrom all label = nameFrom made label := by
  unfold nameFrom
  obtain ⟨later, rfl⟩ := h
  rw [List.getD_eq_getElem?_getD, List.getD_eq_getElem?_getD, List.getElem?_append_left hlt]

theorem mem_zip_nameFrom {made made' : List Label} (hlength : made'.length = made.length)
    {label : Label} (hlt : label.number < made.length) :
    (nameFrom made label, nameFrom made' label) ∈ made.zip made' := by
  have hlt' : label.number < made'.length := hlength ▸ hlt
  unfold nameFrom
  rw [List.getD_eq_getElem?_getD, List.getD_eq_getElem?_getD, List.getElem?_eq_getElem hlt,
    List.getElem?_eq_getElem hlt', Option.getD_some, Option.getD_some]
  have hzip : label.number < (made.zip made').length := by
    rw [List.length_zip]
    omega
  rw [← List.getElem_zip (h := hzip)]
  exact List.getElem_mem hzip

/-- Labels of two bodies that are made at once correspond to each other. -/
theorem InStep.addLabels {made made' : List Label} (hlength : made'.length = made.length)
    (h : InStep (made.zip made') b b') (count : Nat) :
    InStep ((made ++ b.graph.fresh count).zip (made' ++ b'.graph.fresh count))
      { b with graph := b.graph.addLabels count } { b' with graph := b'.graph.addLabels count } := by
  have hfresh : (b'.graph.fresh count).length = (b.graph.fresh count).length := by
    rw [LabelGraph.length_fresh, LabelGraph.length_fresh]
  have hsplit : (made ++ b.graph.fresh count).zip (made' ++ b'.graph.fresh count) =
      made.zip made' ++ (b.graph.fresh count).zip (b'.graph.fresh count) :=
    List.zip_append hlength.symm
  rw [hsplit]
  refine ⟨h.pool, h.code, h.handlers.imp fun _ _ hp => ⟨List.mem_append_left _ hp.start,
    List.mem_append_left _ hp.stop, List.mem_append_left _ hp.handler⟩, fun x hx => ?_, ?_, ?_⟩
  · rcases List.mem_append.1 hx with hx | hx
    · obtain ⟨place, place', hp, hp', he⟩ := h.placed x hx
      exact ⟨place, place', LabelGraph.place?_addLabels count hp,
        LabelGraph.place?_addLabels count hp', he⟩
    · obtain ⟨l, l'⟩ := x
      obtain ⟨hl, hl'⟩ := List.of_mem_zip hx
      obtain ⟨k, hk, rfl⟩ := LabelGraph.mem_fresh.1 hl
      obtain ⟨k', hk', rfl⟩ := LabelGraph.mem_fresh.1 hl'
      exact ⟨_, _, LabelGraph.place?_addLabels_new hk, LabelGraph.place?_addLabels_new hk', rfl⟩
  -- Labels that are made now are none of those made before.
  · rw [List.map_append, List.map_fst_zip (Nat.le_of_eq hfresh.symm), List.nodup_append']
    refine ⟨h.distinct, LabelGraph.nodup_fresh _ _, fun l hl hnew => ?_⟩
    obtain ⟨x, hx, rfl⟩ := List.mem_map.1 hl
    obtain ⟨k, -, he⟩ := LabelGraph.mem_fresh.1 hnew
    obtain ⟨place, _, hp, -⟩ := h.placed x hx
    have := LabelGraph.number_lt_of_place hp
    rw [he] at this
    exact absurd this (Nat.not_lt.2 (Nat.le_add_right _ _))
  · rw [List.map_append, List.map_snd_zip (Nat.le_of_eq hfresh), List.nodup_append']
    refine ⟨h.distinct', LabelGraph.nodup_fresh _ _, fun l hl hnew => ?_⟩
    obtain ⟨x, hx, rfl⟩ := List.mem_map.1 hl
    obtain ⟨k, -, he⟩ := LabelGraph.mem_fresh.1 hnew
    obtain ⟨_, place', -, hp', -⟩ := h.placed x hx
    have := LabelGraph.number_lt_of_place hp'
    rw [he] at this
    exact absurd this (Nat.not_lt.2 (Nat.le_add_right _ _))

/-- One event of two runs. -/
theorem inStep_feed {event : MethodEvent} {made made' : List Label}
    (hlength : made'.length = made.length) (h : InStep (made.zip made') b b')
    (hlabels : ∀ label ∈ event.labels, label.number < made.length)
    (hcode : ∀ n, event.stage = some n → n ≤ 3)
    (hfeed : feed (event.relabel (nameFrom made)) b = .ok u c)
    (hfeed' : feed (event.relabel (nameFrom made')) b' = .ok u' c') :
    InStep ((made ++ b.graph.fresh event.labelsMade).zip
      (made' ++ b'.graph.fresh event.labelsMade)) c c' := by
  by_cases he : isOfCode event = true
  · have hnone : event.labelsMade = 0 := by
      cases event <;> first | rfl | cases he
    have hnil (g : LabelGraph) : g.fresh 0 = [] := rfl
    rw [hnone, hnil, hnil, List.append_nil, List.append_nil]
    exact (abreast_feed he (fun label hl => mem_zip_nameFrom hlength (hlabels label hl)) h hfeed
      hfeed').2
  · cases event with
    | newLabels count =>
      obtain rfl := Step.modify_ok.1 hfeed
      obtain rfl := Step.modify_ok.1 hfeed'
      exact h.addLabels hlength count
    | maxs stack locals => exact absurd (hcode 4 rfl) (by decide)
    | finish => exact absurd (hcode 5 rfl) (by decide)
    | _ => exact absurd rfl he

/-- Two runs of a body: what each takes up, the labels that are made, and what comes of it. -/
structure Parallel (events : List MethodEvent) (b b' c c' : MethodBuilder) (all all' : List Label) :
    Prop where
  run : ClassBuilder.feedMethod (events.map (·.relabel (nameFrom all))) b = .ok () c
  run' : ClassBuilder.feedMethod (events.map (·.relabel (nameFrom all'))) b' = .ok () c'
  length : all'.length = all.length
  inStep : InStep (all.zip all') c c'
  told : List.Forall₂ (fun x x' => x'.1 = x.1 ∧ ∃ event : MethodEvent,
      x.2 = event.relabel (nameFrom all) ∧ x'.2 = event.relabel (nameFrom all') ∧
      ∀ label ∈ event.labels, (nameFrom all label, nameFrom all' label) ∈ all.zip all')
    (told (events.map (·.relabel (nameFrom all))) b)
    (told (events.map (·.relabel (nameFrom all'))) b')

/-- Two runs of a body from bodies in step stay in step as long as they succeed. -/
theorem parallel_run {events : List MethodEvent} {made made' : List Label}
    (hlength : made'.length = made.length) (h : InStep (made.zip made') b b')
    (hnumbered : numbered made.length events = true)
    (hcode : ∀ event ∈ events, ∀ n, event.stage = some n → n ≤ 3)
    (hrun : feedNumbered made events b = .ok u c)
    (hrun' : feedNumbered made' events b' = .ok u' c') :
    ∃ all all', made <+: all ∧ made' <+: all' ∧ Parallel events b b' c c' all all' := by
  induction events generalizing b b' made made' with
  | nil =>
    obtain ⟨-, rfl⟩ := Step.pure_ok.1 hrun
    obtain ⟨-, rfl⟩ := Step.pure_ok.1 hrun'
    exact ⟨made, made', List.prefix_rfl, List.prefix_rfl, rfl, rfl, hlength, h, .nil⟩
  | cons event rest ih =>
    obtain ⟨_, _, hget, hrun⟩ := Step.bind_ok.1 hrun
    obtain ⟨rfl, rfl⟩ := Step.get_ok.1 hget
    obtain ⟨_, mid, hfeed, hrun⟩ := Step.bind_ok.1 hrun
    obtain ⟨_, _, hget, hrun'⟩ := Step.bind_ok.1 hrun'
    obtain ⟨rfl, rfl⟩ := Step.get_ok.1 hget
    obtain ⟨_, mid', hfeed', hrun'⟩ := Step.bind_ok.1 hrun'
    simp only [numbered, Bool.and_eq_true, List.all_eq_true, decide_eq_true_eq] at hnumbered
    obtain ⟨hlabels, hnumbered⟩ := hnumbered
    have hmid := inStep_feed hlength h hlabels (hcode event List.mem_cons_self) hfeed hfeed'
    obtain ⟨all, all', hall, hall', hparallel⟩ := ih (by simp [hlength, LabelGraph.length_fresh])
      hmid (by simpa [LabelGraph.length_fresh] using hnumbered)
      (fun e he => hcode e (List.mem_cons_of_mem _ he)) hrun hrun'
    have hmade := (List.prefix_append made _).trans hall
    have hmade' := (List.prefix_append made' _).trans hall'
    have hname : event.relabel (nameFrom made) = event.relabel (nameFrom all) :=
      MethodEvent.relabel_congr fun label hl => (nameFrom_of_isPrefix hmade (hlabels label hl)).symm
    have hname' : event.relabel (nameFrom made') = event.relabel (nameFrom all') :=
      MethodEvent.relabel_congr fun label hl =>
        (nameFrom_of_isPrefix hmade' (hlength ▸ hlabels label hl)).symm
    rw [hname] at hfeed
    rw [hname'] at hfeed'
    refine ⟨all, all', hmade, hmade', ?_, ?_, hparallel.length, hparallel.inStep, ?_⟩
    · exact Step.bind_ok.2 ⟨_, mid, hfeed, hparallel.run⟩
    · exact Step.bind_ok.2 ⟨_, mid', hfeed', hparallel.run'⟩
    · rw [List.map_cons, List.map_cons, told_cons hfeed, told_cons hfeed',
        MethodEvent.isInstruction_relabel, MethodEvent.isInstruction_relabel]
      split
      · refine .cons ⟨congrArg Array.size h.code, event, rfl, rfl, fun label hl => ?_⟩
          hparallel.told
        exact mem_zip_nameFrom hparallel.length
          (Nat.lt_of_lt_of_le (hlabels label hl) hmade.length_le)
      · exact hparallel.told

end Runs

end MethodBuilder

end JvmClass
