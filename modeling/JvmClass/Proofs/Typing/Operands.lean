import JvmClass.Proofs.Bytes
import JvmClass.Proofs.Typing.Execution
import Mathlib.Data.List.GetD

/-!
# Operands of instructions

Every instruction calls for operands of certain widths on top of the stack (`Effect.operands`). An
instruction that finds them changes the height of the stack by what is known without types
(`Frame.Regular.stackSize_execute`), except where `aaload` finds an array of wide values, and needs
no more locals than its slot tells (`Frame.size_locals_execute`).
-/

namespace JvmClass

open Opcode in
/-- The widths of the operands that a plain instruction calls for, the topmost first. The
instructions that move slots about call for none: they take slots whatever values lie there, and
fail where these do not end with the slots. -/
def plainOperands (op : UInt8) : List Nat :=
  if op < iaload then []
  else if op ≤ saload then [1, 1]
  else if op < iastore then []
  else if op = lastore || op = dastore then [2, 1, 1]
  else if op ≤ sastore then [1, 1, 1]
  else if op ≤ Opcode.swap then []
  else if op ≤ drem then if (op - iadd) % 2 = 0 then [1, 1] else [2, 2]
  else if op ≤ dneg then if (op - ineg) % 2 = 0 then [1] else [2]
  else if op ≤ lushr then if (op - ishl) % 2 = 0 then [1, 1] else [1, 2]
  else if op ≤ lxor then if (op - iand) % 2 = 0 then [1, 1] else [2, 2]
  else if op = iinc then []
  else if op = l2i || op = l2f || op = l2d || op = d2i || op = d2l || op = d2f then [2]
  else if op ≤ i2s then [1]
  else if op = lcmp || op = dcmpl || op = dcmpg then [2, 2]
  else if op ≤ dcmpg then [1, 1]
  else if op ≤ ifle then [1]
  else if op ≤ if_acmpne then [1, 1]
  else if op ≤ ret then []
  else if op = lreturn || op = dreturn then [2]
  else if op ≤ areturn then [1]
  else if op = arraylength || op = athrow || op = instanceof then [1]
  else if op = monitorenter || op = monitorexit || op = ifnull || op = ifnonnull then [1]
  else []

/-- What a plain instruction does to the types fits the operands it calls for and the change in
height that it makes. -/
def PlainEffect.Agrees (op : UInt8) : PlainEffect → Prop
  | .nothing => plainOperands op = [] ∧ plainDelta op = 0
  | .push type => plainOperands op = [] ∧ plainDelta op = type.width
  | .replace entries type =>
    (plainOperands op).length = entries ∧ plainDelta op = type.width - total id (plainOperands op)
  | .drop entries =>
    (plainOperands op).length = entries ∧ plainDelta op = -total id (plainOperands op)
  | .loadElement => plainOperands op = [1, 1] ∧ plainDelta op = -1
  | .shuffle which =>
    plainDelta op = total (which.groups.getD · 0) which.result - total id which.groups

instance (op : UInt8) : DecidablePred (PlainEffect.Agrees op) := fun effect => by
  cases effect <;> unfold PlainEffect.Agrees <;> infer_instance

theorem PlainEffect.agrees_of? {op : UInt8} {effect : PlainEffect} (h : of? op = some effect) :
    effect.Agrees op := by
  have hall := Opcode.forall_of_fin (p := fun op => (of? op).all (Agrees op ·) = true)
    (by decide +kernel) op
  rw [h, Option.all_some, decide_eq_true_eq] at hall
  exact hall

theorem VerificationType.width_of_isReference {Cls New : Type} {t : VerificationType Cls New}
    (h : t.isReference = true) : t.width = 1 := by
  cases t <;> first | rfl | cases h

theorem Opcode.isLoad_of_isStore {op : UInt8} (h : isStore op = true) : isLoad op = false := by
  have hall := forall_of_fin (p := fun op => isStore op = true → isLoad op = false)
    (by decide +kernel) op
  exact hall h

namespace Effect

/-- The widths of the operands that an instruction calls for, by its opcode or a descriptor, the
topmost first. -/
def operands : Effect → List Nat
  | plain op => plainOperands op
  | load _ | increment _ | new _ => []
  | access op _ => if Opcode.isStore op then [if Opcode.isWideAccess op then 2 else 1] else []
  | newArray _ | newObjectArray _ | checkCast _ => [1]
  | field op type =>
    if op = Opcode.getstatic then []
    else if op = Opcode.putstatic then [type.width]
    else if op = Opcode.getfield then [1]
    else [type.width, 1]
  | invoke op _ d =>
    d.parameters.reverse.map FieldType.width ++ if op = Opcode.invokestatic then [] else [1]
  | invokeDynamic d => d.parameters.reverse.map FieldType.width
  | newMultiArray _ dimensions => List.replicate dimensions.toNat 1

/-- The operands that an instruction calls for lie on the stack. -/
def Finds (effect : Effect) (f : Frame) : Prop :=
  effect.operands <+: f.stack.toList.reverse.map VerificationType.width

instance (effect : Effect) (f : Frame) : Decidable (effect.Finds f) :=
  inferInstanceAs (Decidable (_ <+: _))

/-- The instruction loads an element of an array of `long` or `double` as a reference. -/
def LoadsWide (effect : Effect) (f : Frame) : Prop :=
  effect = .plain Opcode.aaload ∧ ∃ front index type element,
    f.stack.toList = front ++ [.object type, index] ∧ type.element? = some element ∧
      element.width = 2

end Effect

namespace Simulation

variable {f g : Frame} {u : Unit}

theorem popEntry_ok {type : VType} (h : popEntry f = .ok type g) :
    f.stack.toList = g.stack.toList ++ [type] := by
  unfold popEntry at h
  split at h
  · cases h
  · rename_i hp
    cases h
    exact SlotVec.toList_of_pop? hp

theorem dropEntries_ok {entries : Nat} (h : dropEntries entries f = .ok u g) :
    ∃ ts, f.stack.toList = g.stack.toList ++ ts ∧ ts.length = entries := by
  induction entries generalizing f with
  | zero =>
    obtain ⟨-, rfl⟩ := Step.pure_ok.1 h
    exact ⟨[], (List.append_nil _).symm, rfl⟩
  | succ n ih =>
    obtain ⟨type, mid, h1, h2⟩ := Step.bind_ok.1 h
    obtain ⟨ts, hts, hlength⟩ := ih h2
    refine ⟨ts ++ [type], ?_, ?_⟩
    · rw [popEntry_ok h1, hts, List.append_assoc]
    · rw [List.length_append, hlength, List.length_singleton]

theorem takeSlots_ok {taken answer : List VType} {slots : Nat}
    (h : takeSlots taken slots f = .ok answer g) :
    ∃ ts, answer = ts ++ taken ∧ f.stack.toList = g.stack.toList ++ ts ∧
      total VerificationType.width ts = slots := by
  induction slots using Nat.strongRecOn generalizing taken f with
  | _ slots ih =>
    unfold takeSlots at h
    split at h
    · rename_i hz
      cases h
      exact ⟨[], rfl, (List.append_nil _).symm, hz.symm⟩
    · split at h
      · cases h
      · rename_i offset type stack hpop
        split at h
        · cases h
        · rename_i hle
          have hpos := type.width_pos
          obtain ⟨ts, rfl, hts, htotal⟩ := ih (slots - type.width) (by omega) h
          refine ⟨ts ++ [type], by rw [List.append_assoc]; rfl, ?_, ?_⟩
          · rw [SlotVec.toList_of_pop? hpop, ← List.append_assoc]
            exact congrArg (· ++ [type]) hts
          · rw [total_append, htotal, total_cons, total_nil]
            omega

theorem popSlots_ok {ts : List VType} {slots : Nat} (h : popSlots slots f = .ok ts g) :
    f.stack.toList = g.stack.toList ++ ts ∧ total VerificationType.width ts = slots := by
  obtain ⟨ts, rfl, h⟩ := takeSlots_ok h
  rwa [List.append_nil]

/-- The groups that are taken off lay on each other, the first one on top. -/
theorem popGroups_ok {groups : List (List VType)} {sizes : List Nat}
    (h : popGroups sizes f = .ok groups g) :
    groups.map (total VerificationType.width) = sizes ∧
      f.stack.toList = g.stack.toList ++ groups.reverse.flatten := by
  induction sizes generalizing f groups with
  | nil =>
    obtain ⟨rfl, rfl⟩ := Step.pure_ok.1 h
    exact ⟨rfl, (List.append_nil _).symm⟩
  | cons slots rest ih =>
    simp only [popGroups, Step.bind_ok, Step.pure_ok] at h
    obtain ⟨group, mid, h1, others, _, h2, rfl, rfl⟩ := h
    obtain ⟨hgroup, htotal⟩ := popSlots_ok h1
    obtain ⟨hothers, hrest⟩ := ih h2
    refine ⟨by rw [List.map_cons, htotal, hothers], ?_⟩
    rw [hgroup, hrest, List.append_assoc, List.reverse_cons, List.flatten_append,
      List.flatten_singleton]

theorem push_ok {type : VType} (h : push type f = .ok u g) :
    g.stack.toList = f.stack.toList ++ [type] := by
  cases h
  exact SlotVec.toList_push _ _

theorem pushAll_ok {types : List VType} (h : pushAll types f = .ok u g) :
    g.stack.toList = f.stack.toList ++ types := by
  cases h
  exact SlotVec.toList_append _ _

theorem forIn_pushAll_ok {groups : List (List VType)} {items : List Nat} {v : PUnit}
    (h : (forIn items PUnit.unit fun i _ => do
      pushAll (groups.getD i [])
      pure (ForInStep.yield PUnit.unit) : Simulation PUnit) f = .ok v g) :
    g.stack.toList = f.stack.toList ++ items.flatMap (groups.getD · []) := by
  induction items generalizing f with
  | nil =>
    obtain ⟨-, rfl⟩ := Step.pure_ok.1 h
    exact (List.append_nil _).symm
  | cons i rest ih =>
    simp only [List.forIn_cons, Step.bind_ok, Step.pure_ok] at h
    obtain ⟨_, mid, ⟨_, _, h1, rfl, rfl⟩, h2⟩ := h
    rw [ih h2, pushAll_ok h1, List.flatMap_cons, List.append_assoc]

end Simulation

/-- The slots that the entries on the stack take up. -/
def Frame.stackSlots (f : Frame) : Nat := total VerificationType.width f.stack.toList

theorem Frame.Regular.stackSize_eq {f : Frame} (hf : f.Regular) : f.stackSize = f.stackSlots := by
  unfold Frame.stackSize
  rw [hf.stacked, SlotVec.nextOffset_ofList]
  rfl

/-- The widths of the entries on top of each other add up to their slots. -/
theorem total_widths (types : List VType) :
    total id (types.reverse.map VerificationType.width) = total VerificationType.width types := by
  rw [total_map, total_reverse]
  rfl

/-- Operands that are taken off the stack have the widths that are called for. -/
theorem Effect.Finds.total_eq {effect : Effect} {f : Frame} (h : effect.Finds f)
    {front ts : List VType} (hts : f.stack.toList = front ++ ts)
    (hlength : ts.length = effect.operands.length) :
    total VerificationType.width ts = total id effect.operands := by
  obtain ⟨below, hbelow⟩ := h
  rw [hts, List.reverse_append, List.map_append] at hbelow
  have hwidths := (List.append_inj hbelow (by
    rw [List.length_map, List.length_reverse, hlength])).1
  rw [hwidths, total_widths]

/-- Prefixes of a list of positive numbers are as long as their totals tell. -/
theorem prefix_eq_of_total_eq {as bs ws : List Nat} (ha : as <+: ws) (hb : bs <+: ws)
    (hpos : ∀ w ∈ ws, 0 < w) (htotal : total id as = total id bs) : as = bs := by
  have hshorter : ∀ {as bs : List Nat}, as <+: bs → bs <+: ws → total id as = total id bs →
      as = bs := by
    rintro as _ ⟨rest, rfl⟩ hb htotal
    rw [total_append] at htotal
    cases rest with
    | nil => exact (List.append_nil _).symm
    | cons w rest =>
      have := hpos w (hb.subset (List.mem_append_right _ List.mem_cons_self))
      rw [total_cons, id] at htotal
      omega
  rcases List.prefix_or_prefix_of_prefix ha hb with h | h
  · exact hshorter h hb htotal
  · exact (hshorter h ha htotal.symm).symm

/-- Once the first operands are taken off, the others lie on top. -/
theorem prefix_of_taken {ws rest : List Nat} {front ts : List VType}
    (h : ws ++ rest <+: (front ++ ts).reverse.map VerificationType.width)
    (htotal : total VerificationType.width ts = total id ws) :
    rest <+: front.reverse.map VerificationType.width := by
  rw [List.reverse_append, List.map_append] at h
  have hws : ws = ts.reverse.map VerificationType.width := by
    refine prefix_eq_of_total_eq ((List.prefix_append _ _).trans h) (List.prefix_append _ _) ?_ ?_
    · intro w hw
      rw [← List.map_append, List.mem_map] at hw
      obtain ⟨type, -, rfl⟩ := hw
      exact type.width_pos
    · rw [total_widths, htotal]
  rwa [hws, List.prefix_append_right_inj] at h

/-- The topmost entry is as wide as the operand that is called for. -/
theorem width_of_prefix {w : Nat} {rest : List Nat} {front : List VType} {type : VType}
    (h : w :: rest <+: (front ++ [type]).reverse.map VerificationType.width) : type.width = w := by
  rw [List.reverse_append, List.reverse_singleton, List.singleton_append, List.map_cons] at h
  exact ((List.cons_prefix_cons.1 h).1).symm

theorem PlainEffect.loadElement_of? {op : UInt8} (h : of? op = some .loadElement) :
    op = Opcode.aaload := by
  have hall := Opcode.forall_of_fin
    (p := fun op => of? op = some .loadElement → op = Opcode.aaload) (by decide +kernel) op
  exact hall h

namespace Simulation

variable {f g : Frame} {u : Unit}

/-- A plain instruction that finds its operands changes the height of the stack by its delta. -/
theorem stackSlots_plain {op : UInt8} {effect : PlainEffect} (hop : PlainEffect.of? op = some effect)
    (hfinds : (Effect.plain op).Finds f) (hwide : ¬ (Effect.plain op).LoadsWide f)
    (h : plain effect f = .ok u g) : (g.stackSlots : Int) = f.stackSlots + plainDelta op := by
  have hagrees := PlainEffect.agrees_of? hop
  unfold Frame.stackSlots
  cases effect with
  | nothing =>
    obtain ⟨-, rfl⟩ := Step.pure_ok.1 h
    rw [hagrees.2, Int.add_zero]
  | push type =>
    rw [push_ok h, hagrees.2, total_append, total_cons, total_nil]
    omega
  | replace entries type =>
    obtain ⟨_, mid, h1, h2⟩ := Step.bind_ok.1 h
    obtain ⟨ts, hts, hlength⟩ := dropEntries_ok h1
    have htotal := hfinds.total_eq hts (hlength.trans hagrees.1.symm)
    change _ = total id (plainOperands op) at htotal
    rw [push_ok h2, hts, hagrees.2, total_append, total_append, total_cons, total_nil]
    omega
  | drop entries =>
    obtain ⟨ts, hts, hlength⟩ := dropEntries_ok h
    have htotal := hfinds.total_eq hts (hlength.trans hagrees.1.symm)
    change _ = total id (plainOperands op) at htotal
    rw [hts, hagrees.2, total_append]
    omega
  | loadElement =>
    obtain ⟨index, mid, h1, h⟩ := Step.bind_ok.1 h
    obtain ⟨array, mid', h2, h3⟩ := Step.bind_ok.1 h
    have hstack : f.stack.toList = mid'.stack.toList ++ [array, index] := by
      rw [popEntry_ok h1, popEntry_ok h2, List.append_assoc]
      rfl
    have htotal := hfinds.total_eq hstack (congrArg List.length hagrees.1).symm
    change _ = total id (plainOperands op) at htotal
    rw [hagrees.1] at htotal
    have hpushed : ∃ type : VType, type.width = 1 ∧
        g.stack.toList = mid'.stack.toList ++ [type] := by
      cases array with
      | null => exact ⟨.null, rfl, push_ok h3⟩
      | object type =>
        cases helement : type.element? with
        | none =>
          simp only [helement] at h3
          cases h3
        | some element =>
          simp only [helement] at h3
          refine ⟨VType.ofField element, ?_, push_ok h3⟩
          have hnarrow : element.width ≠ 2 := fun hw =>
            hwide ⟨congrArg _ (PlainEffect.loadElement_of? hop), _, _, _, _, hstack, helement, hw⟩
          rw [VType.width_ofField]
          cases element with
          | ref type => rfl
          | base type => cases type <;> first | rfl | exact absurd rfl hnarrow
      | _ => cases h3
    obtain ⟨type, hwidth, hg⟩ := hpushed
    rw [hg, hstack, hagrees.2, total_append, total_append, htotal, total_cons, total_nil, hwidth]
    simp
    omega
  | shuffle which =>
    obtain ⟨groups, mid, h1, h2⟩ := Step.bind_ok.1 h
    obtain ⟨hgroups, hts⟩ := popGroups_ok h1
    obtain ⟨_, _, h3, h4⟩ := Step.bind_ok.1 h2
    obtain ⟨-, rfl⟩ := Step.pure_ok.1 h4
    have hput : total VerificationType.width (which.result.flatMap (groups.getD · [])) =
        total (which.groups.getD · 0) which.result := by
      rw [total_flatMap, ← hgroups]
      exact congrArg (total · which.result) (funext fun i => (List.getD_map _ _ _).symm)
    have htaken : total VerificationType.width groups.reverse.flatten = total id which.groups := by
      rw [← hgroups, total_map, ← List.flatMap_id, total_flatMap, total_reverse]
      rfl
    rw [forIn_pushAll_ok h3, hts, hagrees, total_append, total_append, hput, htaken]
    omega

theorem stackSlots_push {type : VType} (h : push type f = .ok u g) :
    g.stackSlots = f.stackSlots + type.width := by
  unfold Frame.stackSlots
  rw [push_ok h, total_append, total_cons, total_nil, Nat.add_zero]

theorem stackSlots_popEntry {type : VType} (h : popEntry f = .ok type g) :
    f.stackSlots = g.stackSlots + type.width := by
  unfold Frame.stackSlots
  rw [popEntry_ok h, total_append, total_cons, total_nil, Nat.add_zero]

theorem stackSlots_popSlots {ts : List VType} {slots : Nat} (h : popSlots slots f = .ok ts g) :
    f.stackSlots = g.stackSlots + slots := by
  obtain ⟨hts, htotal⟩ := popSlots_ok h
  unfold Frame.stackSlots
  rw [hts, total_append, htotal]

theorem width_popEntry {type : VType} {w : Nat} {rest : List Nat} (h : popEntry f = .ok type g)
    (hp : w :: rest <+: f.stack.toList.reverse.map VerificationType.width) : type.width = w :=
  width_of_prefix (popEntry_ok h ▸ hp)

/-- Once the slots of the first operands are taken, the others lie on top. -/
theorem prefix_popSlots {ts : List VType} {slots : Nat} {ws rest : List Nat}
    (h : popSlots slots f = .ok ts g)
    (hp : ws ++ rest <+: f.stack.toList.reverse.map VerificationType.width)
    (hslots : slots = total id ws) : rest <+: g.stack.toList.reverse.map VerificationType.width := by
  obtain ⟨hts, htotal⟩ := popSlots_ok h
  exact prefix_of_taken (hts ▸ hp) (htotal.trans hslots)

theorem stackSlots_pushReturn {d : MethodDescriptor} (h : pushReturn d f = .ok u g) :
    g.stackSlots = f.stackSlots + d.returnSlots := by
  obtain ⟨parameters, returnType⟩ := d
  cases returnType with
  | none =>
    obtain ⟨-, rfl⟩ := Step.pure_ok.1 h
    rfl
  | some type => exact (stackSlots_push h).trans (by rw [VType.width_ofField]; rfl)

theorem stackSlots_renamed (f : Frame) {type other : VType} (hw : other.width = type.width) :
    (f.renamed type other).stackSlots = f.stackSlots := by
  unfold Frame.stackSlots Frame.renamed
  rw [SlotVec.toList_map, total_map]
  refine congrArg (total · f.stack.toList) (funext fun t => ?_)
  split
  · rename_i he
    rw [he, hw]
  · rfl

theorem stackSlots_setLocal (f : Frame) (slot : Nat) (type : VType) :
    (f.setLocal slot type).stackSlots = f.stackSlots := by
  unfold Frame.stackSlots
  rw [Frame.setLocal_stack]

theorem stackSlots_construct {receiver : VType} {thisClass : ClassName}
    (h : construct receiver thisClass f = .ok u g) : g.stackSlots = f.stackSlots := by
  cases receiver with
  | uninitializedThis =>
    cases h
    exact stackSlots_renamed f rfl
  | uninitialized allocation =>
    cases h
    exact stackSlots_renamed f rfl
  | _ =>
    obtain ⟨-, rfl⟩ := Step.pure_ok.1 h
    rfl

variable {thisClass : ClassName}

theorem stackSlots_access {op : UInt8} {slot : UInt16} (hfinds : (Effect.access op slot).Finds f)
    (h : execute thisClass (.access op slot) f = .ok u g) :
    (g.stackSlots : Int) = f.stackSlots + (Effect.access op slot).stackDelta := by
  simp only [execute] at h
  split_ifs at h with h1 h2 h3 h4 h5 h6
  · rw [stackSlots_push h, h1]
    rfl
  · rw [stackSlots_push h, h2]
    rfl
  · rw [stackSlots_push h, h3]
    rfl
  · rw [stackSlots_push h, h4]
    rfl
  · obtain ⟨_, _, ⟨rfl, rfl⟩, h⟩ := Step.bind_ok.1 h
    split_ifs at h with href
    · rw [stackSlots_push h, h5, VerificationType.width_of_isReference href]
      rfl
    · cases h
  · obtain ⟨type, mid, h7, h8⟩ := Step.bind_ok.1 h
    cases h8
    simp only [Effect.Finds, Effect.operands, h6, if_true] at hfinds
    have hwidth := width_popEntry h7 hfinds
    have hpop := stackSlots_popEntry h7
    simp only [stackSlots_setLocal, Effect.stackDelta, Opcode.isLoad_of_isStore h6, h6, if_true,
      Bool.false_eq_true, if_false]
    split_ifs at hwidth ⊢ <;> omega
  · cases h

theorem stackSlots_field {op : UInt8} {type : FieldType} (hfinds : (Effect.field op type).Finds f)
    (h : execute thisClass (.field op type) f = .ok u g) :
    (g.stackSlots : Int) = f.stackSlots + (Effect.field op type).stackDelta := by
  simp only [Effect.Finds, Effect.operands] at hfinds
  simp only [execute] at h
  simp only [Effect.stackDelta]
  split_ifs at h hfinds ⊢ with h1 h2 h3
  · rw [stackSlots_push h, VType.width_ofField]
    exact Int.natCast_add _ _
  · obtain ⟨ts, mid, h4, h5⟩ := Step.bind_ok.1 h
    obtain ⟨-, rfl⟩ := Step.pure_ok.1 h5
    have hpop := stackSlots_popSlots h4
    omega
  · obtain ⟨owner, mid, h4, h5⟩ := Step.bind_ok.1 h
    have hwidth := width_popEntry h4 hfinds
    have hpop := stackSlots_popEntry h4
    have hpush := stackSlots_push h5
    rw [VType.width_ofField] at hpush
    omega
  · obtain ⟨ts, mid, h4, h5⟩ := Step.bind_ok.1 h
    obtain ⟨owner, mid', h6, h7⟩ := Step.bind_ok.1 h5
    obtain ⟨-, rfl⟩ := Step.pure_ok.1 h7
    have hreceiver : [1] <+: mid.stack.toList.reverse.map VerificationType.width :=
      prefix_popSlots h4 (show [type.width] ++ [1] <+: _ from hfinds) rfl
    have hwidth := width_popEntry h6 hreceiver
    have hpop := stackSlots_popSlots h4
    have hpop' := stackSlots_popEntry h6
    omega

theorem stackSlots_invoke {op : UInt8} {isConstructor : Bool} {d : MethodDescriptor}
    (hfinds : (Effect.invoke op isConstructor d).Finds f)
    (h : execute thisClass (.invoke op isConstructor d) f = .ok u g) :
    (g.stackSlots : Int) = f.stackSlots + (Effect.invoke op isConstructor d).stackDelta := by
  obtain ⟨ts, mid, h1, h2⟩ := Step.bind_ok.1 h
  have hpop := stackSlots_popSlots h1
  have hslots : d.parameterSlots false = total id (d.parameters.reverse.map FieldType.width) := by
    rw [total_map, total_reverse]
    rfl
  simp only [Effect.Finds, Effect.operands] at hfinds
  have hrest := prefix_popSlots h1 hfinds hslots
  simp only [Effect.stackDelta]
  by_cases hstatic : op = Opcode.invokestatic
  · simp only [hstatic, ne_eq, not_true_eq_false, if_false] at h2
    have hpush := stackSlots_pushReturn h2
    have hslots : d.parameterSlots (op != Opcode.invokestatic) = d.parameterSlots false := by
      rw [hstatic]
      rfl
    omega
  · rw [if_neg hstatic] at hrest
    simp only [hstatic, ne_eq, not_false_eq_true, if_true] at h2
    obtain ⟨receiver, mid', h3, h4⟩ := Step.bind_ok.1 h2
    have hwidth := width_popEntry h3 hrest
    have hpop' := stackSlots_popEntry h3
    have hpush : g.stackSlots = mid'.stackSlots + d.returnSlots := by
      split at h4
      · obtain ⟨_, _, h5, h6⟩ := Step.bind_ok.1 h4
        rw [stackSlots_pushReturn h6, stackSlots_construct h5]
      · exact stackSlots_pushReturn h4
    have hslots : d.parameterSlots (op != Opcode.invokestatic) = d.parameterSlots false + 1 := by
      rw [bne_iff_ne.2 hstatic]
      rfl
    omega

/-- An instruction that finds its operands changes the height of the stack by its delta, except
where `aaload` finds an array of wide values. -/
theorem stackSlots_execute {effect : Effect} (hfinds : effect.Finds f)
    (hwide : ¬ effect.LoadsWide f) (h : execute thisClass effect f = .ok u g) :
    (g.stackSlots : Int) = f.stackSlots + effect.stackDelta := by
  cases effect with
  | plain op =>
    cases hop : PlainEffect.of? op with
    | none =>
      simp only [execute, hop] at h
      cases h
    | some effect =>
      simp only [execute, hop] at h
      exact stackSlots_plain hop hfinds hwide h
  | load type =>
    rw [stackSlots_push h]
    exact Int.natCast_add _ _
  | access op slot => exact stackSlots_access hfinds h
  | increment slot =>
    cases h
    rw [stackSlots_setLocal]
    exact (Int.add_zero _).symm
  | newArray element | newObjectArray element | checkCast type =>
    obtain ⟨type, mid, h1, h2⟩ := Step.bind_ok.1 h
    have hwidth : type.width = 1 := width_popEntry h1 hfinds
    have hpop := stackSlots_popEntry h1
    have hpush := stackSlots_push h2
    change _ = _ + 1 at hpush
    rw [Effect.stackDelta]
    omega
  | new allocation =>
    rw [stackSlots_push h]
    rfl
  | field op type => exact stackSlots_field hfinds h
  | invoke op isConstructor d => exact stackSlots_invoke hfinds h
  | invokeDynamic d =>
    obtain ⟨ts, mid, h1, h2⟩ := Step.bind_ok.1 h
    have hpop := stackSlots_popSlots h1
    have hpush := stackSlots_pushReturn h2
    rw [Effect.stackDelta]
    omega
  | newMultiArray type dimensions =>
    obtain ⟨ts, mid, h1, h2⟩ := Step.bind_ok.1 h
    have hpop := stackSlots_popSlots h1
    have hpush := stackSlots_push h2
    change _ = _ + 1 at hpush
    rw [Effect.stackDelta]
    omega

end Simulation

namespace Frame

variable {f g : Frame} {thisClass : ClassName} {effect : Effect}

/-- The height of the stack after an instruction that finds its operands. -/
theorem Regular.stackSize_execute (hf : f.Regular) (hfinds : effect.Finds f)
    (hwide : ¬ effect.LoadsWide f) (h : f.execute thisClass effect = (none, g)) :
    (g.stackSize : Int) = f.stackSize + effect.stackDelta := by
  obtain ⟨u, hrun⟩ := execute_none h
  rw [(hf.execute h).stackSize_eq, hf.stackSize_eq]
  exact Simulation.stackSlots_execute hfinds hwide hrun

end Frame

end JvmClass
