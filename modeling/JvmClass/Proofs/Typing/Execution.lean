import JvmClass.Proofs.Typing.Frames
import JvmClass.Typing.Simulation
import Mathlib.Tactic.SplitIfs

/-!
# What instructions do to frames

An instruction takes entries off the stack and pushes others, stores write a local variable, and
constructor calls rename a type wherever it stands. A relation between frames that holds along these
holds between the frames before and after every instruction, whether it fails or not
(`Simulation.moves_execute`). Regular frames stay regular, and the locals of an instruction that is
neither a store nor a constructor call stay as they are.
-/

namespace JvmClass

/-- Stores to local variables. -/
def Effect.isStore : Effect → Bool
  | .access op _ => Opcode.isStore op
  | .increment _ => true
  | _ => false

/-- Calls of constructors. -/
def Effect.isConstruction : Effect → Bool
  | .invoke op isConstructor _ => isConstructor && op == Opcode.invokespecial
  | _ => false

/-- The frame in which every entry and every local that holds one type holds another. -/
def Frame.renamed (f : Frame) (type other : VType) : Frame where
  locals := f.locals.map fun t => if t = type then other else t
  stack := f.stack.map fun t => if t = type then other else t

/-- The types that a constructor call renames, and what they are renamed to. -/
inductive VType.Constructs (thisClass : ClassName) : VType → VType → Prop where
  | this : Constructs thisClass .uninitializedThis (VType.instanceOf thisClass)
  | allocated (allocation : Allocation) :
    Constructs thisClass (.uninitialized allocation) (VType.instanceOf allocation.cls)

namespace Simulation

/-- The frame that an outcome leaves behind. -/
def left {α : Type} : EStateM.Result SimulationFault Frame α → Frame
  | .ok _ f => f
  | .error _ f => f

/-- A relation holds between the frame before a computation and the one that it leaves behind. -/
def Moves {α : Type} (R : Frame → Frame → Prop) (m : Simulation α) : Prop := ∀ f, R f (left (m f))

/-- Relations that hold along changes of the stack. -/
structure StackClosed (R : Frame → Frame → Prop) : Prop where
  refl : ∀ f, R f f
  trans : ∀ {f g k}, R f g → R g k → R f k
  pop : ∀ f {entry stack}, f.stack.pop? = some (entry, stack) → R f { f with stack }
  push : ∀ f type, R f (f.push type)

section Moves

variable {α β : Type} {R : Frame → Frame → Prop} (hR : StackClosed R)
include hR

theorem moves_pure (a : α) : Moves R (pure a : Simulation α) := fun f => hR.refl f

theorem moves_throw (fault : SimulationFault) : Moves R (throw fault : Simulation α) :=
  fun f => hR.refl f

theorem moves_get : Moves R (get : Simulation Frame) := fun f => hR.refl f

theorem moves_bind {m : Simulation α} {k : α → Simulation β} (hm : Moves R m)
    (hk : ∀ a, Moves R (k a)) : Moves R (m >>= k) := by
  intro f
  have hf := hm f
  show R f (left (EStateM.bind m k f))
  unfold EStateM.bind
  cases hmf : m f with
  | ok a g =>
    rw [hmf] at hf
    exact hR.trans hf (hk a g)
  | error e g =>
    rw [hmf] at hf
    exact hf

omit hR in
theorem moves_modify {change : Frame → Frame} (h : ∀ f, R f (change f)) :
    Moves R (modify change : Simulation Unit) := h

theorem moves_popEntry : Moves R popEntry := by
  intro f
  unfold popEntry
  split
  · exact hR.refl f
  · rename_i h
    exact hR.pop f h

theorem moves_push (type : VType) : Moves R (push type) := moves_modify fun f => hR.push f type

theorem moves_dropEntries (entries : Nat) : Moves R (dropEntries entries) := by
  induction entries with
  | zero => exact moves_pure hR ()
  | succ n ih => exact moves_bind hR (moves_popEntry hR) fun _ => ih

theorem moves_takeSlots (taken : List VType) (remaining : Nat) :
    Moves R (takeSlots taken remaining) := by
  intro f
  induction remaining using Nat.strongRecOn generalizing taken f with
  | _ remaining ih =>
    unfold takeSlots
    by_cases hz : remaining = 0
    · rw [if_pos hz]
      exact hR.refl f
    · rw [if_neg hz]
      split
      · exact hR.refl f
      · rename_i offset type stack hpop
        split
        · exact hR.pop f hpop
        · have hlt : remaining - type.width < remaining := by
            have := type.width_pos
            omega
          exact hR.trans (hR.pop f hpop) (ih _ hlt _ _)

theorem moves_popSlots (slots : Nat) : Moves R (popSlots slots) := moves_takeSlots hR [] slots

theorem moves_popGroups (groups : List Nat) : Moves R (popGroups groups) := by
  induction groups with
  | nil => exact moves_pure hR []
  | cons slots rest ih =>
    exact moves_bind hR (moves_popSlots hR slots) fun group =>
      moves_bind hR ih fun others => moves_pure hR (group :: others)

theorem moves_pushAll (types : List VType) : Moves R (pushAll types) := by
  intro f
  induction types generalizing f with
  | nil => exact hR.refl f
  | cons type rest ih => exact hR.trans (hR.push f type) (ih (f.push type))

theorem moves_forIn {items : List α} {body : α → Simulation Unit} (h : ∀ a, Moves R (body a)) :
    Moves R (forIn items PUnit.unit fun a _ => do
      body a
      pure (ForInStep.yield PUnit.unit)) := by
  induction items with
  | nil =>
    rw [List.forIn_nil]
    exact moves_pure hR _
  | cons a rest ih =>
    rw [List.forIn_cons]
    refine moves_bind hR (moves_bind hR (h a) fun _ => moves_pure hR _) fun step => ?_
    cases step with
    | done u => exact moves_pure hR u
    | yield u => exact ih

theorem moves_plain (effect : PlainEffect) : Moves R (plain effect) := by
  cases effect with
  | nothing => exact moves_pure hR ()
  | push type => exact moves_push hR type
  | replace entries type =>
    exact moves_bind hR (moves_dropEntries hR entries) fun _ => moves_push hR type
  | drop entries => exact moves_dropEntries hR entries
  | loadElement =>
    refine moves_bind hR (moves_popEntry hR) fun _ =>
      moves_bind hR (moves_popEntry hR) fun array => ?_
    split
    · exact moves_push hR _
    · split
      · exact moves_push hR _
      · exact moves_throw hR _
    · exact moves_throw hR _
  | shuffle which =>
    exact moves_bind hR (moves_popGroups hR _) fun groups =>
      moves_bind hR (moves_forIn hR fun group => moves_pushAll hR (groups.getD group []))
        fun _ => moves_pure hR ()

theorem moves_pushReturn (d : MethodDescriptor) : Moves R (pushReturn d) := by
  unfold pushReturn
  split
  · exact moves_pure hR ()
  · exact moves_push hR _

theorem moves_construct {thisClass : ClassName}
    (hrename : ∀ f {type other}, VType.Constructs thisClass type other → R f (f.renamed type other))
    (receiver : VType) : Moves R (construct receiver thisClass) := by
  cases receiver with
  | uninitializedThis => exact moves_modify fun f => hrename f .this
  | uninitialized allocation => exact moves_modify fun f => hrename f (.allocated allocation)
  | top => exact moves_pure hR ()
  | int => exact moves_pure hR ()
  | float => exact moves_pure hR ()
  | double => exact moves_pure hR ()
  | long => exact moves_pure hR ()
  | null => exact moves_pure hR ()
  | object type => exact moves_pure hR ()

/-- A relation between frames that holds along changes of the stack, and along the stores and
constructor calls that an instruction makes, holds along the instruction. -/
theorem moves_execute {thisClass : ClassName} {effect : Effect}
    (hstore : effect.isStore → ∀ f slot type, R f (f.setLocal slot type))
    (hrename : effect.isConstruction →
      ∀ f {type other}, VType.Constructs thisClass type other → R f (f.renamed type other)) :
    Moves R (execute thisClass effect) := by
  cases effect with
  | plain op =>
    simp only [execute]
    split
    · exact moves_plain hR _
    · exact moves_throw hR _
  | load type => exact moves_push hR type
  | access op slot =>
    simp only [execute]
    split_ifs with h1 h2 h3 h4 h5 h6
    · exact moves_push hR _
    · exact moves_push hR _
    · exact moves_push hR _
    · exact moves_push hR _
    · refine moves_bind hR (moves_get hR) fun f => ?_
      split_ifs
      · exact moves_push hR _
      · exact moves_throw hR _
    · exact moves_bind hR (moves_popEntry hR) fun type =>
        moves_modify fun f => hstore h6 f _ _
    · exact moves_throw hR _
  | increment slot => exact moves_modify fun f => hstore rfl f _ _
  | newArray element => exact moves_bind hR (moves_popEntry hR) fun _ => moves_push hR _
  | newObjectArray element => exact moves_bind hR (moves_popEntry hR) fun _ => moves_push hR _
  | new allocation => exact moves_push hR _
  | checkCast type => exact moves_bind hR (moves_popEntry hR) fun _ => moves_push hR _
  | field op type =>
    simp only [execute]
    split_ifs
    · exact moves_push hR _
    · exact moves_bind hR (moves_popSlots hR _) fun _ => moves_pure hR ()
    · exact moves_bind hR (moves_popEntry hR) fun _ => moves_push hR _
    · exact moves_bind hR (moves_popSlots hR _) fun _ =>
        moves_bind hR (moves_popEntry hR) fun _ => moves_pure hR ()
  | invoke op isConstructor d =>
    refine moves_bind hR (moves_popSlots hR _) fun _ => ?_
    dsimp only
    split
    · refine moves_bind hR (moves_popEntry hR) fun receiver => ?_
      split
      · rename_i hc
        exact moves_bind hR (moves_construct hR (hrename hc) receiver) fun _ =>
          moves_pushReturn hR d
      · exact moves_pushReturn hR d
    · exact moves_pushReturn hR d
  | invokeDynamic d =>
    exact moves_bind hR (moves_popSlots hR _) fun _ => moves_pushReturn hR d
  | newMultiArray type dimensions =>
    exact moves_bind hR (moves_popSlots hR _) fun _ => moves_push hR _

end Moves

end Simulation

namespace VType.Constructs

variable {thisClass : ClassName} {type other : VType}

theorem width_eq (h : VType.Constructs thisClass type other) : other.width = type.width := by
  cases h <;> rfl

theorem ne_top (h : VType.Constructs thisClass type other) : type ≠ .top := by
  cases h <;> simp

end VType.Constructs

namespace Frame

variable {f g : Frame} {thisClass : ClassName} {effect : Effect} {fault : Option SimulationFault}

theorem Regular.pop (hf : f.Regular) {entry : Nat × VType} {stack : SlotVec VType}
    (hp : f.stack.pop? = some (entry, stack)) : ({ f with stack } : Frame).Regular := by
  rw [hf.stacked] at hp
  rcases SlotVec.pop?_ofList_cases f.stack.toList with ⟨-, hn⟩ | ⟨front, a, -, hs⟩
  · rw [hn] at hp
    cases hp
  · rw [hs] at hp
    cases hp
    exact hf.withStack front

theorem width_renamed {type other : VType} (hw : other.width = type.width) (t : VType) :
    (if t = type then other else t).width = t.width := by
  split
  · rename_i he
    rw [he]
    exact hw
  · rfl

theorem upperHalves_renamed (hf : UpperHalves f.locals) {type other : VType}
    (hw : other.width = type.width) (ht : type ≠ .top) :
    UpperHalves (f.renamed type other).locals := by
  intro slot t hs h2
  simp only [Frame.renamed, Array.getElem?_map, Option.map_eq_some_iff] at hs ⊢
  obtain ⟨old, hold, rfl⟩ := hs
  rw [width_renamed hw] at h2
  exact ⟨.top, hf slot old hold h2, if_neg (Ne.symm ht)⟩

theorem Regular.renamed (hf : f.Regular) {type other : VType} (hw : other.width = type.width)
    (ht : type ≠ .top) : (f.renamed type other).Regular where
  upperHalves := upperHalves_renamed hf.upperHalves hw ht
  stacked := by
    simp only [Frame.renamed]
    rw [hf.stacked, SlotVec.map_ofList _ (width_renamed hw), SlotVec.toList_ofList]

/-- An instruction succeeds as its simulation does. -/
theorem execute_none (h : f.execute thisClass effect = (none, g)) :
    ∃ u, Simulation.execute thisClass effect f = .ok u g := by
  unfold Frame.execute at h
  cases he : Simulation.execute thisClass effect f with
  | ok u k =>
    rw [he] at h
    cases h
    exact ⟨u, rfl⟩
  | error e k =>
    rw [he] at h
    cases h

/-- The frame after an instruction is related to the one before. -/
theorem rel_execute {R : Frame → Frame → Prop} (hR : Simulation.StackClosed R)
    (hstore : effect.isStore → ∀ f slot type, R f (f.setLocal slot type))
    (hrename : effect.isConstruction →
      ∀ f {type other}, VType.Constructs thisClass type other → R f (f.renamed type other))
    (h : f.execute thisClass effect = (fault, g)) : R f g := by
  have hm := Simulation.moves_execute hR hstore hrename f
  unfold Frame.execute at h
  cases he : Simulation.execute thisClass effect f with
  | ok u k =>
    rw [he] at h hm
    cases h
    exact hm
  | error e k =>
    rw [he] at h hm
    cases h
    exact hm

/-- Instructions keep frames regular, also when they fail. -/
theorem Regular.execute (hf : f.Regular) (h : f.execute thisClass effect = (fault, g)) :
    g.Regular := by
  refine rel_execute (R := fun f g => f.Regular → g.Regular)
    ⟨fun _ hf => hf, fun h1 h2 hf => h2 (h1 hf), fun _ _ _ hp hf => hf.pop hp,
      fun _ _ hf => hf.push _⟩
    (fun _ _ _ _ hf => hf.setLocal _ _)
    (fun _ _ _ _ hc hf => hf.renamed hc.width_eq hc.ne_top) h hf

/-- Instructions that are neither stores nor constructor calls leave the locals alone. -/
theorem execute_locals (hs : effect.isStore = false) (hc : effect.isConstruction = false)
    (h : f.execute thisClass effect = (fault, g)) : g.locals = f.locals := by
  refine rel_execute (R := fun f g => g.locals = f.locals)
    ⟨fun _ => rfl, fun h1 h2 => h2.trans h1, fun _ _ _ _ => rfl, fun _ _ => rfl⟩ ?_ ?_ h
  · simp [hs]
  · simp [hc]

end Frame

end JvmClass
