import JvmClass.Proofs.Assembly.Handover
import JvmClass.Proofs.Upholding

/-!
# Why storing fails

When a body has been settled, its frames are stored and it is completed. What can fail then is that
something does not fit where it is stored, or that a label has no place
(`MethodBuilder.storing_completeBody`).
-/

namespace JvmClass

open Step (Upholds upholds_get upholds_modify upholds_of upholds_on upholds_pure upholds_set
  upholds_throw)

/-- The errors of storing: something does not fit, or has no place. -/
def ClassError.isOfStoring : ClassError → Bool
  | constantPoolOverflow _ | stringTooLong _ | tooManyEntries .. | methodCodeOverflow _
  | maxLocalsOverflow _ | unresolvedLabel _ | malformedAttribute .. => true
  | _ => false

/-- The step fails with errors of storing only. -/
abbrev Storing {σ α : Type} (step : Step σ α) : Prop :=
  Upholds (fun _ => True) (·.isOfStoring = true) step

/-- A step on a part of the state. -/
theorem Storing.on {σ τ α : Type} [Inhabited τ] {part : σ → τ} {replace : σ → τ → σ}
    {step : Step τ α} (h : Storing step) : Storing (Step.on part replace step) :=
  upholds_on h fun _ _ _ => trivial

theorem storing_modify {σ : Type} (f : σ → σ) : Storing (modify f : Step σ PUnit) :=
  upholds_modify fun _ _ => trivial

theorem storing_count16 {σ : Type} (what : String) (count : Nat) :
    Storing (Step.of (count16 what count) : Step σ UInt16) :=
  upholds_of (.ite (.ok _) (.error rfl))

section Requests

namespace ConstantPool

theorem storing_intern (c : Constant) : Storing (intern c) := by
  intro p _
  unfold intern
  split
  · trivial
  · split
    · rename_i e he
      refine ⟨trivial, ?_⟩
      unfold indexAfter at he
      simp only at he
      split at he
      · cases he
      · cases he
        rfl
    · trivial

theorem storing_utf8 (text : String) : Storing (utf8 text) :=
  .ite (storing_intern _) (upholds_throw rfl)

theorem storing_cls (name : String) : Storing (cls name) :=
  (storing_utf8 name).bind fun _ => storing_intern _

end ConstantPool

theorem storing_resolve (t : NamedType) : Storing t.resolve := by
  cases t with
  | object cls => exact (ConstantPool.storing_cls cls).bind fun _ => upholds_pure _
  | uninitialized offset =>
    have hplace : Storing (if offset < 65536 then pure (UInt16.ofNat offset)
        else throw (.methodCodeOverflow offset) : ConstantPool.Request UInt16) :=
      .ite (upholds_pure _) (upholds_throw rfl)
    exact hplace.bind fun _ => upholds_pure _
  | _ => exact upholds_pure _

theorem storing_resolveAll (types : List NamedType) : Storing (resolveAll types) :=
  .mapM storing_resolve types

theorem StackMapEntry.storing_resolve (entry : StackMapEntry NamedType) : Storing entry.resolve := by
  cases entry with
  | same | chop => exact upholds_pure _
  | sameWithStack delta t => exact (JvmClass.storing_resolve t).bind fun _ => upholds_pure _
  | append delta locals => exact (storing_resolveAll locals).bind fun _ => upholds_pure _
  | full delta locals stack =>
    exact (storing_resolveAll locals).bind fun _ => (storing_resolveAll stack).bind fun _ =>
      upholds_pure _

namespace Attribute

theorem storing_make (body : AttributeBody) : Storing (make body) :=
  (ConstantPool.storing_utf8 _).bind fun _ => upholds_pure _

theorem storing_makeRaw (attributes : List RawAttribute) : Storing (makeRaw attributes) :=
  .mapM (fun _ => storing_make _) attributes

end Attribute

end Requests

section Tables

variable (g : LabelGraph)

namespace LabelGraph

/-- The computation fails with errors of storing only. -/
abbrev StoresOnly {α : Type} (x : Except ClassError α) : Prop := FailsOnly (·.isOfStoring = true) x

theorem storesOnly_offset (label : Label) : StoresOnly (g.offset label) := by
  unfold offset
  split
  · exact .ok _
  · exact .error rfl

theorem storesOnly_codeOffset (label : Label) : StoresOnly (g.codeOffset label) :=
  (g.storesOnly_offset label).bind fun _ => .ite (.ok _) (.error rfl)

theorem storing_lineNumberTable (lines : List (UInt16 × Label)) :
    Storing (g.lineNumberTable lines) := by
  have hstored : ∀ line, StoresOnly (g.storedLine line) := fun line =>
    (g.storesOnly_codeOffset line.2).bind fun _ => .ok _
  exact .ite (upholds_pure _) ((upholds_of (.mapM hstored lines)).bind fun _ =>
    (Attribute.storing_make _).bind fun _ => upholds_pure _)

theorem storing_storedVariable (v : VariableRange Label) : Storing (g.storedVariable v) :=
  (upholds_of (g.storesOnly_codeOffset _)).bind fun _ =>
    (upholds_of (g.storesOnly_codeOffset _)).bind fun _ => .guard rfl <|
      (ConstantPool.storing_utf8 _).bind fun _ => (ConstantPool.storing_utf8 _).bind fun _ =>
        upholds_pure _

theorem storing_localVariableTable (vars : List (VariableRange Label)) :
    Storing (g.localVariableTable vars) :=
  .ite (upholds_pure _) ((Upholds.mapM g.storing_storedVariable vars).bind fun _ =>
    (Attribute.storing_make _).bind fun _ => upholds_pure _)

end LabelGraph

namespace Handlers

theorem storesOnly_isEmpty (h : ExceptionHandler) : LabelGraph.StoresOnly (h.isEmpty g) :=
  (g.storesOnly_offset h.start).bind fun _ => (g.storesOnly_offset h.stop).bind fun _ => .ok _

theorem storesOnly_byteSize (handlers : Handlers) : LabelGraph.StoresOnly (byteSize g handlers) :=
  (FailsOnly.filterM (fun h => (storesOnly_isEmpty g h).bind fun _ => .ok _) handlers).bind
    fun _ => .ok _

theorem storing_putPlace (label : Label) : Storing (putPlace g label) :=
  (upholds_of (g.storesOnly_codeOffset label)).bind fun _ => storing_modify _

theorem storing_putEntry (h : ExceptionHandler) : Storing (putEntry g h) := by
  refine (storing_putPlace g _).bind fun _ => (storing_putPlace g _).bind fun _ =>
    (storing_putPlace g _).bind fun _ => ?_
  split
  · exact storing_modify _
  · exact (ConstantPool.storing_cls _).on.bind fun _ => storing_modify _

theorem storing_putEntries (count : Nat) (handlers : Handlers) :
    Storing (putEntries g count handlers) := by
  induction handlers generalizing count with
  | nil => exact upholds_pure _
  | cons h rest ih =>
    exact (upholds_of (storesOnly_isEmpty g h)).bind fun _ => .ite (ih _)
      ((storing_putEntry g h).bind fun _ => .ite (ih _) (upholds_throw rfl))

theorem storing_put (handlers : Handlers) : Storing (put g handlers) :=
  upholds_get.bind fun _ => (storing_modify _).bind fun _ =>
    (storing_putEntries g _ handlers).bind fun _ => storing_modify _

end Handlers

end Tables

namespace MethodBuilder

open LabelGraph (StoresOnly)

theorem storesOnly_frameDelta (previous : Option Nat) (offset : Nat) :
    StoresOnly (frameDelta previous offset) := by
  cases previous with
  | none => exact .ite (.ok _) (.error rfl)
  | some previous => exact .ite (.ok _) (.error rfl)

theorem storing_stackMapEntries (previous : Layout NamedType) (previousOffset : Option Nat)
    (done : List (StackMapEntry PooledType)) (frames : List (Nat × Layout NamedType)) :
    Storing (stackMapEntries previous previousOffset done frames) := by
  induction frames generalizing previous previousOffset done with
  | nil => exact upholds_pure _
  | cons f rest ih =>
    exact (upholds_of (storesOnly_frameDelta _ _)).bind fun _ =>
      (StackMapEntry.storing_resolve _).bind fun _ => ih _ _ _

/-- Storing frames fails because one does not fit. -/
theorem storing_storeFrames (h : Handover) : Storing (storeFrames h) := by
  have htable : Storing (stackMapTable h.entry h.frames) :=
    .ite (upholds_pure _) ((storing_stackMapEntries _ _ _ _).bind fun _ =>
      (storing_count16 _ _).bind fun _ => (Attribute.storing_make _).bind fun _ => upholds_pure _)
  exact htable.on.bind fun _ => upholds_get.bind fun _ => upholds_pure _

theorem storing_exceptionTable : Storing exceptionTable := by
  refine upholds_get.bind fun b => (upholds_of (Handlers.storesOnly_byteSize _ _)).bind fun _ => ?_
  refine Storing.on fun pool _ => ?_
  have hput := Handlers.storing_put b.graph b.handlers.toList ⟨pool, #[]⟩ trivial
  split
  · trivial
  · rename_i e s he
    rw [he] at hput
    exact hput

/-- Completing a body fails because something in it does not fit, or has no place. -/
theorem storing_completeBody (limits : Limits) : Storing (completeBody limits) := by
  unfold completeBody
  exact .guard rfl <| storing_exceptionTable.bind fun _ => upholds_get.bind fun b =>
    (upholds_set trivial).bind fun _ => (b.graph.storing_lineNumberTable _).on.bind fun _ =>
      (storing_modify _).bind fun _ => (b.graph.storing_localVariableTable _).on.bind fun _ =>
        (storing_modify _).bind fun _ => (Attribute.storing_makeRaw _).on.bind fun _ =>
          (storing_count16 _ _).bind fun _ => upholds_get.bind fun _ =>
            (storing_modify _).bind fun _ => (Attribute.storing_make _).on.bind fun _ =>
              storing_modify _

end MethodBuilder

end JvmClass
