import JvmClass.Proofs.Typing.Operands

/-!
# Changes in stack height

What an instruction does to the height of the stack is known without types (`Effect.stackDelta`). An
instruction that finds its operands and succeeds changes the height by just that, on every stack
whose entries start where those below them end (`Frame.stackSize_execute_unless_wide`). The one
exception is an element of two slots that is loaded as a reference: it leaves one slot more
(`Frame.stackSize_of_loadsWide`).
-/

namespace JvmClass

/-- An element of two slots takes the place of the array and the index. -/
theorem Simulation.stackSlots_loadsWide {f g : Frame} {u : Unit} {thisClass : ClassName}
    {effect : Effect} (hfinds : effect.Finds f) (hwide : effect.LoadsWide f)
    (h : execute thisClass effect f = .ok u g) : g.stackSlots = f.stackSlots := by
  obtain ⟨rfl, front, index, type, element, hstack, helement, hwidth⟩ := hwide
  have hop : PlainEffect.of? Opcode.aaload = some .loadElement := by decide
  simp only [execute, hop, plain] at h
  obtain ⟨index', mid, h1, h⟩ := Step.bind_ok.1 h
  obtain ⟨array, mid', h2, h3⟩ := Step.bind_ok.1 h
  have htaken : f.stack.toList = mid'.stack.toList ++ [array, index'] := by
    rw [popEntry_ok h1, popEntry_ok h2, List.append_assoc]
    rfl
  obtain ⟨hfront, hpair⟩ := List.append_inj' (hstack.symm.trans htaken) rfl
  cases hpair
  simp only [helement] at h3
  have htotal := hfinds.total_eq hstack rfl
  change _ = 2 at htotal
  unfold Frame.stackSlots
  rw [push_ok h3, hstack, ← hfront, total_append, total_append, htotal, total_cons, total_nil,
    VType.width_ofField, hwidth]

namespace Frame

variable {f g : Frame} {thisClass : ClassName} {effect : Effect} {fault : Option SimulationFault}

theorem stackSize_of_laid (hf : f.stack.Laid) : f.stackSize = f.stack.start + f.stackSlots :=
  hf.nextOffset_eq

/-- Instructions leave every entry of the stack where the one below it ends, also when they fail. -/
theorem laid_execute (hf : f.stack.Laid) (h : f.execute thisClass effect = (fault, g)) :
    g.stack.Laid ∧ g.stack.start = f.stack.start := by
  refine rel_execute
    (R := fun f g => f.stack.Laid → g.stack.Laid ∧ g.stack.start = f.stack.start) ?_ ?_ ?_ h hf
  · refine ⟨fun _ hf => ⟨hf, rfl⟩, fun h1 h2 hf => ?_, fun _ _ _ hp hf => hf.pop hp,
      fun _ type hf => ⟨hf.push type, rfl⟩⟩
    obtain ⟨hg, hstart⟩ := h1 hf
    exact ⟨(h2 hg).1, (h2 hg).2.trans hstart⟩
  · intro _ f slot type hf
    rw [setLocal_stack]
    exact ⟨hf, rfl⟩
  · intro _ f type other hc hf
    exact ⟨hf.map (width_renamed hc.width_eq), rfl⟩

/-- The height of the stack after an instruction that finds its operands differs from the one before
by what is known without types, unless an element of two slots is loaded as a reference. -/
theorem stackSize_execute_unless_wide (hf : f.stack.Laid) (hfinds : effect.Finds f)
    (hwide : ¬ effect.LoadsWide f) (h : f.execute thisClass effect = (none, g)) :
    (g.stackSize : Int) - f.stackSize = effect.stackDelta := by
  obtain ⟨u, hrun⟩ := execute_none h
  obtain ⟨hg, hstart⟩ := laid_execute hf h
  have hslots := Simulation.stackSlots_execute hfinds hwide hrun
  rw [stackSize_of_laid hg, stackSize_of_laid hf, hstart]
  omega

/-- The call of a constructor that takes a `long` and an `int`. -/
def constructorCall : Effect :=
  .invoke Opcode.invokespecial true ⟨[.base .long, .base .int], none⟩

/-- The operands of the call, with a copy of the new object below them and one in a local
variable. -/
def beforeConstructor : Frame :=
  let point : VType := .uninitialized ⟨0, ⟨"Point"⟩⟩
  ⟨#[point], SlotVec.ofList [point, point, .long, .int]⟩

/-- What the call leaves: the copies hold an instance of the class. -/
def afterConstructor : Frame :=
  let point := VType.instanceOf ⟨"Point"⟩
  ⟨#[point], SlotVec.ofList [point]⟩

/-- The call takes four slots and gives nothing back. -/
theorem stackSize_execute_constructorCall :
    beforeConstructor.stack.Laid ∧ constructorCall.Finds beforeConstructor ∧
      ¬ constructorCall.LoadsWide beforeConstructor ∧
      beforeConstructor.execute ⟨"C"⟩ constructorCall = (none, afterConstructor) ∧
      (afterConstructor.stackSize : Int) - beforeConstructor.stackSize =
        constructorCall.stackDelta := by
  have hlaid : beforeConstructor.stack.Laid := SlotVec.laid_ofList _
  have hfinds : constructorCall.Finds beforeConstructor := by decide
  have hwide : ¬ constructorCall.LoadsWide beforeConstructor := fun h => nomatch h.1
  have hrun : beforeConstructor.execute ⟨"C"⟩ constructorCall = (none, afterConstructor) := by
    decide +kernel
  exact ⟨hlaid, hfinds, hwide, hrun, stackSize_execute_unless_wide hlaid hfinds hwide hrun⟩

/-- Where an element of two slots is loaded as a reference, the stack gets one slot higher than is
known without types. -/
theorem stackSize_of_loadsWide (hf : f.stack.Laid) (hfinds : effect.Finds f)
    (hwide : effect.LoadsWide f) (h : f.execute thisClass effect = (none, g)) :
    (g.stackSize : Int) - f.stackSize = effect.stackDelta + 1 := by
  obtain ⟨u, hrun⟩ := execute_none h
  obtain ⟨hg, hstart⟩ := laid_execute hf h
  have hslots := Simulation.stackSlots_loadsWide hfinds hwide hrun
  obtain ⟨rfl, -⟩ := hwide
  have hdelta : (Effect.plain Opcode.aaload).stackDelta = -1 := by decide
  rw [stackSize_of_laid hg, stackSize_of_laid hf, hstart, hdelta]
  omega

/-- An array of `long` under an index. -/
def longElement : Frame := ⟨#[], SlotVec.ofList [.object (RefType.arrayOf (.base .long)), .int]⟩

/-- The operands of `aaload` take one slot each here, but the element that it leaves takes two. -/
theorem stackSize_differs_longElement :
    longElement.stack.Laid ∧ (Effect.plain Opcode.aaload).Finds longElement ∧
      longElement.execute ⟨"C"⟩ (.plain Opcode.aaload) = (none, ⟨#[], SlotVec.ofList [.long]⟩) ∧
      ((⟨#[], SlotVec.ofList [.long]⟩ : Frame).stackSize : Int) - longElement.stackSize ≠
        (Effect.plain Opcode.aaload).stackDelta :=
  ⟨SlotVec.laid_ofList _, by decide, by decide +kernel, by decide⟩

end Frame

end JvmClass
