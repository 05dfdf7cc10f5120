import JvmClass.Proofs.Typing.Execution
import JvmClass.Proofs.Typing.Merging

/-!
# Well-formed frames

In a well-formed frame every wide local is followed by a slot that holds `top`, and every stack
entry starts where the widths of those below it end. The frames on entry to methods and handlers are
such frames. Taking an entry off the stack, adding one, storing a local and renaming a type keep a
frame well formed, therefore every instruction does, and so does a merge (`Frame.wellFormed_kept`).
What fails leaves a well-formed frame as well.
-/

namespace JvmClass

namespace Frame

variable {f g : Frame}

theorem WellFormed.pop (hf : f.WellFormed) {entry : Nat × VType} {stack : SlotVec VType}
    (hp : f.stack.pop? = some (entry, stack)) : ({ f with stack } : Frame).WellFormed where
  upperHalf := hf.upperHalf
  measured := hf.measured.pop hp

theorem WellFormed.push (hf : f.WellFormed) (type : VType) : (f.push type).WellFormed where
  upperHalf := hf.upperHalf
  measured := hf.measured.push type

theorem WellFormed.setLocal (hf : f.WellFormed) (slot : Nat) (type : VType) :
    (f.setLocal slot type).WellFormed where
  upperHalf := upperHalves_setLocal hf.upperHalf slot type
  measured := by
    rw [setLocal_stack]
    exact hf.measured

theorem WellFormed.renamed (hf : f.WellFormed) {type other : VType}
    (hw : other.width = type.width) (ht : type ≠ .top) : (f.renamed type other).WellFormed where
  upperHalf := upperHalves_renamed hf.upperHalf hw ht
  measured := hf.measured.map (width_renamed hw)

/-- Instructions keep frames well formed, also when they fail. -/
theorem WellFormed.execute (hf : f.WellFormed) (thisClass : ClassName) (effect : Effect) :
    (f.execute thisClass effect).2.WellFormed := by
  refine rel_execute (R := fun f g => f.WellFormed → g.WellFormed) ?_ ?_ ?_ rfl hf
  · exact ⟨fun _ hf => hf, fun h1 h2 hf => h2 (h1 hf), fun _ _ _ hp hf => hf.pop hp,
      fun _ _ hf => hf.push _⟩
  · exact fun _ _ _ _ hf => hf.setLocal _ _
  · exact fun _ _ _ _ hc hf => hf.renamed hc.width_eq hc.ne_top

theorem wellFormed_mergeBy? {stackHierarchy hierarchy : Hierarchy} (hf : f.WellFormed)
    {m : Frame} (hm : mergeBy? stackHierarchy hierarchy f g = some m) : m.WellFormed :=
  (merged_of_upperHalves hf.upperHalf hm).regular.wellFormed

/-- A merge leaves the merged frame or the one that there was. -/
theorem WellFormed.outcome (hf : f.WellFormed) {m : Option Frame}
    (hm : ∀ k, m = some k → k.WellFormed) (label : Label) (g : Frame) :
    (Frame.outcome label f g m).2.WellFormed := by
  cases m with
  | none => exact hf
  | some k => exact hm k rfl

/-- Frames on entry to methods and handlers are well formed, and they stay so whatever instruction
is carried out, whatever is stored and whatever is merged in, whether it fails or not. -/
theorem wellFormed_kept :
    (∀ thisClass isStatic isConstructor d,
      (Frame.entry thisClass isStatic isConstructor d).WellFormed) ∧
    (∀ locals caught, UpperHalves locals → (Frame.handler locals caught).WellFormed) ∧
    ∀ f : Frame, f.WellFormed →
      (∀ thisClass effect, (f.execute thisClass effect).2.WellFormed) ∧
      (∀ slot type, (f.setLocal slot type).WellFormed) ∧
      ∀ (h : Hierarchy) (label : Label) (g : Frame),
        (f.merge h label g).2.WellFormed ∧ (f.mergeCaught h label g).2.WellFormed := by
  refine ⟨fun thisClass isStatic isConstructor d => ?_, fun locals caught hl => ?_,
    fun f hf => ⟨hf.execute, hf.setLocal, fun h label g => ⟨?_, ?_⟩⟩⟩
  · exact (regular_entry thisClass isStatic isConstructor d).wellFormed
  · exact (regular_handler hl caught).wellFormed
  · exact hf.outcome (fun k hk => wellFormed_mergeBy? hf hk) label g
  · exact hf.outcome (fun k hk => wellFormed_mergeBy? hf hk) label g

/-- A wide local below a narrow one, and so on the stack. -/
def mixedWidths : Frame := ⟨#[.long, .top, .int], SlotVec.ofList [.long, .int]⟩

theorem wellFormed_mixedWidths : mixedWidths.WellFormed where
  upperHalf := show UpperHalves mixedWidths.locals by decide
  measured := SlotVec.measured_ofList _

/-- Swapping fails at the wide entry when the narrow one has been taken off, and a store to the
upper half of the wide local makes it unusable. -/
theorem wellFormed_kept_mixedWidths :
    mixedWidths.WellFormed ∧
      mixedWidths.execute ⟨"C"⟩ (.plain Opcode.swap) =
        (some (.invalidWidth 2), ⟨mixedWidths.locals, SlotVec.empty⟩) ∧
      (⟨mixedWidths.locals, SlotVec.empty⟩ : Frame).WellFormed ∧
      mixedWidths.setLocal 1 .int = ⟨#[.top, .int, .int], mixedWidths.stack⟩ ∧
      (⟨#[.top, .int, .int], mixedWidths.stack⟩ : Frame).WellFormed ∧
      (handler mixedWidths.locals (VType.instanceOf ClassName.throwable)).WellFormed ∧
      (mixedWidths.merge Hierarchy.flat ⟨0⟩ mixedWidths).2.WellFormed := by
  obtain ⟨-, hhandler, hkept⟩ := wellFormed_kept
  obtain ⟨hexecute, hstore, hmerge⟩ := hkept mixedWidths wellFormed_mixedWidths
  have hswap : mixedWidths.execute ⟨"C"⟩ (.plain Opcode.swap) =
      (some (.invalidWidth 2), ⟨mixedWidths.locals, SlotVec.empty⟩) := by cbv
  have hcut : mixedWidths.setLocal 1 .int = ⟨#[.top, .int, .int], mixedWidths.stack⟩ := rfl
  refine ⟨wellFormed_mixedWidths, hswap, ?_, hcut, ?_, ?_, ?_⟩
  · have := hexecute ⟨"C"⟩ (.plain Opcode.swap)
    rwa [hswap] at this
  · rw [← hcut]
    exact hstore 1 .int
  · exact hhandler _ _ wellFormed_mixedWidths.upperHalf
  · exact (hmerge Hierarchy.flat ⟨0⟩ mixedWidths).1

end Frame

end JvmClass
