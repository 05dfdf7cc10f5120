import JvmClass.Proofs.Assembly.Replacing

/-!
# A frame wherever the code asks for one

Code asks for a frame where it jumps to, where a handler starts and after every instruction that
always passes control on (`Instruction.Demands`). The blocks that start at such places are marked
while a body is taken up, or follow a block that is replaced, and either way they get a frame
(`MethodBuilder.frames_at_demands`).
-/

namespace JvmClass

open Instruction (Coded Served Starts)

namespace Instruction

theorem places_plainForm {P : Type} (op : UInt8) : (plainForm op : Instruction P).places = [] := by
  unfold plainForm
  split
  · rfl
  · split <;> rfl

theorem transfers_plainForm {P : Type} {op : UInt8}
    (h : (plainForm op : Instruction P).transfers = true) : Opcode.leavesMethod op = true := by
  unfold plainForm at h
  split at h
  · cases h
  · split at h
    · cases h
    · exact h

end Instruction

namespace MethodEvent

variable {g : LabelGraph} {pool : ConstantPool} {event : MethodEvent} {i : Instruction Nat}

theorem exists_target {fallback : Label} {targets : List Label} {place p : Nat} {places : List Nat}
    (hplace : g.offset fallback = .ok place) (hplaces : targets.mapM g.offset = .ok places)
    (hp : p ∈ place :: places) : ∃ target ∈ fallback :: targets, g.offset target = .ok p :=
  exists_of_forall₂ (R := fun target place => g.offset target = .ok place)
    (.cons hplace (Piece.offsets_ok hplaces)) hp

/-- An instruction names the places of the targets that its event told of. -/
theorem Tells.places (h : event.Tells g pool i) {p : Nat} (hp : p ∈ i.places) :
    ∃ target ∈ event.targets, g.offset target = .ok p := by
  cases event with
  | jump op target =>
    obtain ⟨place, form, hplace, rfl, -⟩ := h
    obtain rfl := List.mem_singleton.1 hp
    exact ⟨target, List.mem_singleton_self target, hplace⟩
  | tableSwitch low high fallback targets =>
    obtain ⟨place, places, hplace, hplaces, rfl⟩ := h
    exact exists_target hplace hplaces hp
  | lookupSwitch fallback keys targets =>
    obtain ⟨place, places, hplace, hplaces, rfl⟩ := h
    exact exists_target hplace hplaces hp
  | plain op =>
    obtain rfl := h
    rw [Instruction.places_plainForm] at hp
    cases hp
  | intOperand | access | increment =>
    obtain rfl := h
    cases hp
  | typeOperand | field | method | invokeDynamic | load | newMultiArray =>
    obtain ⟨index, -, rfl⟩ := h
    cases hp
  | _ => exact h.elim

/-- An instruction that always passes control on was told of by an event that does. -/
theorem Tells.transfers (h : event.Tells g pool i) (ht : i.transfers = true) :
    event.transfers = true := by
  cases event with
  | jump op target =>
    obtain ⟨place, form, -, rfl, rfl | ⟨rfl, -⟩ | ⟨-, rfl⟩⟩ := h
    · exact ht
    · rfl
    · cases ht
  | tableSwitch | lookupSwitch => rfl
  | plain op =>
    obtain rfl := h
    exact Instruction.transfers_plainForm ht
  | intOperand | access | increment =>
    obtain rfl := h
    cases ht
  | typeOperand | field | method | invokeDynamic | load | newMultiArray =>
    obtain ⟨index, -, rfl⟩ := h
    cases ht
  | _ => exact h.elim

end MethodEvent

namespace MethodBuilder

variable {u : Unit} {framed : Nat → Prop} {start stop size o : Nat} {bytes : List UInt8}
  {is : List (Nat × JvmClass.Instruction Nat)}

/-- The code that replaces a block asks for no frame. -/
theorem coded_deadBytes (framed : Nat → Prop) (size start length : Nat) :
    ∃ is, Coded start (deadBytes length) is ∧ Served framed size is := by
  obtain ⟨is, hcoded, hnops⟩ := Instruction.coded_nops start (length - 1)
  refine ⟨_, hcoded.append (.cons (List.cons_ne_nil _ _) (Instruction.reads_standsAlone (by decide))
    (.nil _)), (Served.of_nops hnops).append ⟨?_, List.isChain_singleton _⟩ fun x hx y _ ht => ?_⟩
  · intro x hx p hp
    rw [List.mem_singleton.1 hx] at hp
    cases hp
  · rw [hnops x hx] at ht
    cases ht

/-- Replacing dead code leaves a sequence of instructions, and if frames stand where dead code
starts and where it stops, those that were needed still suffice. -/
theorem served_replaced {g : LabelGraph} {dead : Label → Prop} {blocks : List Label}
    {old new : Bytes} (ho : g.Ordered size blocks) (hsize : new.size = old.size)
    (hdead : ∀ block start stop, g.Spans size blocks block start stop → dead block → start < stop →
      Spells new start (deadBytes (stop - start)) ∧ framed start ∧ (stop < size → framed stop))
    (hkept : ∀ i, o ≤ i → ¬ g.LiesIn size blocks dead i → new[i]? = old[i]?)
    (hstarts : ∀ block start stop, g.Spans size blocks block start stop →
      o ≤ start ∧ Starts is size start ∧ Starts is size stop)
    (hc : Coded o bytes is) (hs : Spells old o bytes) (hend : o + bytes.length = size)
    (h : Served framed size is) :
    ∃ bytes' is', Coded o bytes' is' ∧ o + bytes'.length = size ∧ Spells new o bytes' ∧
      Served framed size is' := by
  induction blocks generalizing o bytes is with
  | nil =>
    refine ⟨bytes, is, hc, hend, hs.congr hsize fun i hi _ => hkept i hi ?_, h⟩
    rintro ⟨block, start, stop, hspan, -⟩
    cases hspan
  | cons block rest ih =>
    have hdead' := fun other start stop hspan => hdead other start stop (.later hspan)
    by_cases hd : dead block ∧
      ∃ start stop, g.Spans size (block :: rest) block start stop ∧ start < stop
    · obtain ⟨hd, start, stop, hspan, hlt⟩ := hd
      obtain ⟨hnew, hfirst, hnext⟩ := hdead block start stop hspan hd hlt
      obtain ⟨hle, hstart, hstop⟩ := hstarts block start stop hspan
      -- The sequence before the block stays, and the one after it is what the other blocks leave.
      rw [← hend] at hstart
      obtain ⟨front, bytes, is₁, is₂, rfl, rfl, rfl, hc₁, hc₂⟩ := hc.split hstart
      rw [← hend, List.length_append, ← Nat.add_assoc] at hstop
      obtain ⟨mid, back, is₂, is₃, rfl, rfl, rfl, hc₂, hc₃⟩ :=
        hc₂.split (hc₁.starts_right (Nat.le_of_lt hlt) hstop)
      have hlies : ∀ i, o + front.length + mid.length ≤ i → g.LiesIn size (block :: rest) dead i →
          g.LiesIn size rest dead i := by
        rintro i hi ⟨other, first, last, hother, hd, hin⟩
        rcases ho.cons_cases hspan hother with ⟨-, -, rfl⟩ | hother
        · omega
        · exact ⟨other, first, last, hother, hd, hin⟩
      have hstarts' : ∀ other first last, g.Spans size rest other first last →
          o + front.length + mid.length ≤ first ∧ Starts is₃ size first ∧ Starts is₃ size last := by
        intro other first last hother
        obtain ⟨-, hf, hl⟩ := hstarts other first last (.later hother)
        have hle := ho.le_start hspan hother
        have hle' := ho.tail.start_le hother
        exact ⟨hle, hc₂.starts_right hle (hc₁.starts_right (by omega) hf),
          hc₂.starts_right (by omega) (hc₁.starts_right (by omega) hl)⟩
      obtain ⟨bytes', is', hc', hend', hs', h'⟩ := ih ho.tail hdead'
        (fun i hi hl => hkept i (by omega) fun hin => hl (hlies i hi hin)) hstarts' hc₃
        hs.right.right (by rw [← hend]; simp only [List.length_append]; omega) h.right.right
      obtain ⟨isd, hcd, hd'⟩ := coded_deadBytes framed size (o + front.length)
        (o + front.length + mid.length - (o + front.length))
      have hlength := length_deadBytes hlt
      have hjoin : o + front.length +
          (deadBytes (o + front.length + mid.length - (o + front.length))).length =
            o + front.length + mid.length := by omega
      have hcode := hcd.append (hjoin ▸ hc')
      refine ⟨_, _, hc₁.append hcode, ?_, ?_, h.left.append (hd'.append h' ?_) ?_⟩
      · simp only [List.length_append]
        omega
      · refine (hs.left.congr hsize fun i hi hlt' => hkept i hi ?_).append
          (hnew.append (hjoin.symm ▸ hs'))
        rintro ⟨other, first, last, hother, -, hin⟩
        have := ho.first_le hspan.offset hother
        omega
      · intro x _ y hy _
        have hbounds := hc'.bounds (List.mem_of_mem_head? hy)
        rw [hc'.head hy] at hbounds ⊢
        exact hnext (by omega)
      · intro x _ y hy _
        rw [hcode.head hy]
        exact hfirst
    · refine ih ho.tail hdead' (fun i hi hl => hkept i hi ?_)
        (fun other start stop hspan => hstarts other start stop (.later hspan)) hc hs hend h
      rintro ⟨other, start, stop, hspan, hother, hin⟩
      rcases hspan.cons_cases with rfl | hspan'
      · exact hd ⟨hother, start, stop, hspan, Nat.lt_of_le_of_lt hin.1 hin.2⟩
      · exact hl ⟨other, start, stop, hspan', hother, hin⟩

namespace Framing

variable {body patched limited final : MethodBuilder} {entry : Label} {flow : FlowSetting}
  {table : Bytes} {frames : List (Nat × Layout NamedType)} {p : Nat} {block : Label}

theorem size_eq (h : Framing body patched limited final entry flow table frames) :
    patched.code.size = body.code.size :=
  size_patch (b := { body with graph := body.graph.resolve }) h.filled

end Framing

/-- Blocks start where instructions do, or at the end of the code. -/
theorem Analyzed.starts {body : MethodBuilder} {entry block : Label} {graph : LabelGraph}
    {told : List (Nat × MethodEvent)} {R : Nat × MethodEvent → JvmClass.Instruction Nat → Prop}
    (hz : Analyzed body entry graph)
    (hplaced : ∀ label p, body.graph.position? label = some p →
      (∃ event, (p, event) ∈ told) ∨ p = body.code.size)
    (hall : List.Forall₂ (fun told i => i.1 = told.1 ∧ R told i.2) told is)
    (hspan : graph.Spans body.code.size graph.blocks block start stop) :
    Starts is body.code.size start ∧ Starts is body.code.size stop := by
  have hstarts : ∀ label p, graph.offset label = .ok p → Starts is body.code.size p := by
    intro label p hp
    rw [hz.offset] at hp
    have hposition := (LabelGraph.resolved_resolve body.graph _ _).1 hp
    rw [(LabelGraph.sameLayout_resolve body.graph).position?] at hposition
    refine (hplaced label p hposition).imp_left fun ⟨event, hmem⟩ => ?_
    obtain ⟨⟨_, i⟩, hi, rfl, -⟩ := exists_of_forall₂ hall.flip hmem
    exact ⟨i, hi⟩
  obtain ⟨i, -, hstart, ⟨-, rfl⟩ | ⟨next, -, hstop⟩⟩ := LabelGraph.Spans.iff_getElem.1 hspan
  · exact ⟨hstarts _ _ hstart, Or.inr rfl⟩
  · exact ⟨hstarts _ _ hstart, hstarts _ _ hstop⟩

end MethodBuilder

end JvmClass
