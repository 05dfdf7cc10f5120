import JvmClass.Proofs.SlotVec
import JvmClass.Typing.Frame

/-!
# Regular frames

Frames that are computed follow the rule for wide locals and have a stack that counts from zero.
Such a stack is given by its entries, so that frames with the same locals and the same entries are
equal. The entry of a method, handlers and stores make such frames.
-/

namespace JvmClass

@[simp] theorem slotWidth_verificationType {Cls New : Type} (t : VerificationType Cls New) :
    SlotWidth.width t = t.width := rfl

/-- Every wide local is followed by a slot that holds `top`. -/
def UpperHalves (locals : Array VType) : Prop :=
  ∀ slot type, locals[slot]? = some type → type.width = 2 → locals[slot + 1]? = some .top

namespace UpperHalves

variable {locals : Array VType} {slot : Nat}

theorem nil : UpperHalves #[] := by
  intro slot type ht
  simp at ht

theorem extend (hl : UpperHalves locals) (missing : Nat) :
    UpperHalves (locals ++ Array.replicate missing .top) := by
  intro s t ht hw
  by_cases hs : s < locals.size
  · rw [Array.getElem?_append_left hs] at ht
    have hnext := hl s t ht hw
    have hlt : s + 1 < locals.size := (Array.getElem?_eq_some_iff.1 hnext).1
    rw [Array.getElem?_append_left hlt]
    exact hnext
  · rw [Array.getElem?_append_right (by omega), Array.getElem?_replicate] at ht
    split at ht
    · cases ht
      cases hw
    · cases ht

/-- A slot may be made unusable. -/
theorem setTop (hl : UpperHalves locals) (i : Nat) : UpperHalves (locals.set! i .top) := by
  intro s t ht hw
  rw [Array.set!_eq_setIfInBounds] at ht ⊢
  rw [Array.getElem?_setIfInBounds] at ht
  split at ht
  · split at ht
    · cases ht
      cases hw
    · cases ht
  · have hnext := hl s t ht hw
    have hlt : s + 1 < locals.size := (Array.getElem?_eq_some_iff.1 hnext).1
    rw [Array.getElem?_setIfInBounds]
    split
    · subst_vars
      rw [if_pos hlt]
    · exact hnext

/-- A slot may be changed if it is no upper half, and a wide type needs one of its own. -/
theorem set (hl : UpperHalves locals) {type : VType}
    (hbelow : ∀ below, slot = below + 1 → (locals[below]?.getD .top).width ≠ 2)
    (habove : type.width = 2 → locals[slot + 1]? = some .top) :
    UpperHalves (locals.set! slot type) := by
  intro s t ht hw
  rw [Array.set!_eq_setIfInBounds] at ht ⊢
  rw [Array.getElem?_setIfInBounds] at ht
  split at ht
  · subst_vars
    split at ht
    · cases ht
      rw [Array.getElem?_setIfInBounds, if_neg (by omega)]
      exact habove hw
    · cases ht
  · have hnext := hl s t ht hw
    rw [Array.getElem?_setIfInBounds, if_neg]
    · exact hnext
    · intro he
      apply hbelow s he
      rw [ht]
      exact hw

/-- The rule can be checked slot by slot. -/
theorem iff_forall_lt : UpperHalves locals ↔ ∀ slot < locals.size,
    (locals[slot]?.getD .top).width = 2 → locals[slot + 1]? = some .top := by
  constructor
  · intro hl slot hlt hw
    rw [Array.getElem?_eq_getElem hlt] at hw
    exact hl slot _ (Array.getElem?_eq_getElem hlt) hw
  · intro h slot type ht hw
    have hlt := (Array.getElem?_eq_some_iff.1 ht).1
    refine h slot hlt ?_
    rw [ht]
    exact hw

instance (locals : Array VType) : Decidable (UpperHalves locals) :=
  decidable_of_iff _ iff_forall_lt.symm

end UpperHalves

namespace Frame

/-- Frames as they are computed. -/
structure Regular (f : Frame) : Prop where
  upperHalves : UpperHalves f.locals
  stacked : f.stack = SlotVec.ofList f.stack.toList

variable {f : Frame}

theorem Regular.wellFormed (hf : f.Regular) : f.WellFormed where
  upperHalf := hf.upperHalves
  measured := by
    rw [hf.stacked]
    exact SlotVec.measured_ofList _

/-- A regular frame is given by its locals and the entries of its stack. -/
theorem Regular.ext {g : Frame} (hf : f.Regular) (hg : g.Regular) (hl : f.locals = g.locals)
    (hs : f.stack.toList = g.stack.toList) : f = g := by
  have hstack : f.stack = g.stack := by rw [hf.stacked, hg.stacked, hs]
  cases f
  cases g
  cases hl
  cases hstack
  rfl

theorem regular_empty : Frame.empty.Regular where
  upperHalves := UpperHalves.nil
  stacked := rfl

theorem Regular.withStack (hf : f.Regular) (types : List VType) :
    ({ f with stack := SlotVec.ofList types } : Frame).Regular where
  upperHalves := hf.upperHalves
  stacked := by rw [SlotVec.toList_ofList]

theorem Regular.push (hf : f.Regular) (type : VType) : (f.push type).Regular where
  upperHalves := hf.upperHalves
  stacked := by
    show f.stack.push type = _
    rw [hf.stacked, ← SlotVec.ofList_concat]
    simp [Frame.push]

theorem setLocal_stack (f : Frame) (slot : Nat) (type : VType) :
    (f.setLocal slot type).stack = f.stack := by
  cases slot <;> rfl

/-- The locals without a wide one that a store to a slot overlaps from above. -/
def cutBelow (locals : Array VType) : Nat → Array VType
  | 0 => locals
  | below + 1 =>
    if (locals[below]?.getD .top).width = 2 then locals.set! below .top else locals

theorem upperHalves_cutBelow {locals : Array VType} (hl : UpperHalves locals) (slot : Nat) :
    UpperHalves (cutBelow locals slot) := by
  cases slot with
  | zero => exact hl
  | succ below =>
    simp only [cutBelow]
    split
    · exact hl.setTop below
    · exact hl

@[simp] theorem size_cutBelow (locals : Array VType) (slot : Nat) :
    (cutBelow locals slot).size = locals.size := by
  cases slot with
  | zero => rfl
  | succ below =>
    simp only [cutBelow]
    split
    · simp
    · rfl

theorem cutBelow_below {locals : Array VType} {below : Nat} (hlt : below < locals.size) :
    ((cutBelow locals (below + 1))[below]?.getD .top).width ≠ 2 := by
  simp only [cutBelow]
  split
  · simp [VerificationType.width, hlt]
  · assumption

/-- The locals with room for a value in a slot. -/
def extended (locals : Array VType) (slot : Nat) (type : VType) : Array VType :=
  locals ++ Array.replicate (slot + type.width - locals.size) .top

theorem setLocal_locals (f : Frame) (slot : Nat) (type : VType) :
    (f.setLocal slot type).locals =
      (if type.width = 2 then
        (cutBelow (extended f.locals slot type) slot).set! (slot + 1) .top
      else cutBelow (extended f.locals slot type) slot).set! slot type := by
  cases slot <;> rfl

theorem le_size_extended (locals : Array VType) (slot : Nat) (type : VType) :
    slot + type.width ≤ (extended locals slot type).size := by
  simp only [extended, Array.size_append, Array.size_replicate]
  omega

/-- A store keeps the rule for wide locals. -/
theorem upperHalves_setLocal (hl : UpperHalves f.locals) (slot : Nat) (type : VType) :
    UpperHalves (f.setLocal slot type).locals := by
  have hpos := type.width_pos
  have hsize := le_size_extended f.locals slot type
  have hcut := upperHalves_cutBelow (hl.extend (slot + type.width - f.locals.size)) slot
  change UpperHalves (cutBelow (extended f.locals slot type) slot) at hcut
  rw [setLocal_locals]
  have hbelow : ∀ below, slot = below + 1 →
      ((cutBelow (extended f.locals slot type) slot)[below]?.getD .top).width ≠ 2 := by
    rintro below rfl
    exact cutBelow_below (by omega)
  by_cases hw : type.width = 2
  · rw [if_pos hw]
    apply (hcut.setTop (slot + 1)).set
    · intro below hb
      have hne : slot + 1 ≠ below := by omega
      rw [Array.set!_eq_setIfInBounds, Array.getElem?_setIfInBounds, if_neg hne]
      exact hbelow below hb
    · intro _
      have hlt : slot + 1 < (extended f.locals slot type).size := by omega
      simp [hlt]
  · rw [if_neg hw]
    exact hcut.set hbelow fun h => absurd h hw

theorem Regular.setLocal (hf : f.Regular) (slot : Nat) (type : VType) :
    (f.setLocal slot type).Regular where
  upperHalves := upperHalves_setLocal hf.upperHalves slot type
  stacked := by
    rw [setLocal_stack]
    exact hf.stacked

theorem Regular.setParameters (hf : f.Regular) (slot : Nat) (types : List FieldType) :
    (f.setParameters slot types).Regular := by
  induction types generalizing f slot with
  | nil => exact hf
  | cons type rest ih => exact ih (hf.setLocal _ _) _

theorem setParameters_stack (f : Frame) (slot : Nat) (types : List FieldType) :
    (f.setParameters slot types).stack = f.stack := by
  induction types generalizing f slot with
  | nil => rfl
  | cons type rest ih => exact (ih _ _).trans (setLocal_stack _ _ _)

theorem regular_entry (thisClass : ClassName) (isStatic isConstructor : Bool)
    (d : MethodDescriptor) : (Frame.entry thisClass isStatic isConstructor d).Regular := by
  unfold entry
  split
  · exact regular_empty.setParameters _ _
  · exact (regular_empty.setLocal _ _).setParameters _ _

/-- The stack is empty on entry to a method. -/
theorem entry_stack (thisClass : ClassName) (isStatic isConstructor : Bool)
    (d : MethodDescriptor) :
    (Frame.entry thisClass isStatic isConstructor d).stack = SlotVec.empty := by
  unfold entry
  split
  · exact setParameters_stack _ _ _
  · exact (setParameters_stack _ _ _).trans (setLocal_stack _ _ _)

theorem regular_handler {locals : Array VType} (hl : UpperHalves locals) (caught : VType) :
    (handler locals caught).Regular where
  upperHalves := hl
  stacked := rfl

@[simp] theorem handler_locals (locals : Array VType) (caught : VType) :
    (handler locals caught).locals = locals := rfl

@[simp] theorem handler_stack (locals : Array VType) (caught : VType) :
    (handler locals caught).stack.toList = [caught] := rfl

end Frame

end JvmClass
