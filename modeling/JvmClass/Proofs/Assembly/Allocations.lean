import JvmClass.Proofs.Assembly.Charts
import JvmClass.Proofs.Assembly.FrameDemands
import JvmClass.Proofs.Flow.Allocations

/-!
# Uninitialized objects in stored frames

Every uninitialized object in a stored frame names the offset of a `new` instruction. The
instruction belongs to a block that is reached, so that it stands in the final code as it was
written (`MethodBuilder.uninitialized_names_new`).
-/

namespace JvmClass

namespace Frame

/-- The locals that are stored stand in some slot. -/
theorem mem_layoutLocals {locals : Array VType} {slot : Nat} {t : NamedType}
    (h : t ∈ layoutLocals locals slot) : ∃ type ∈ locals, t = type.named := by
  fun_induction layoutLocals locals slot with
  | case1 slot hlt ih =>
    rcases List.mem_cons.1 h with rfl | h
    · exact ⟨_, Array.getElem_mem hlt, rfl⟩
    · exact ih h
  | case2 slot hlt => cases h

theorem mem_trimTop {types : List NamedType} {t : NamedType} (h : t ∈ trimTop types) :
    t ∈ types := by
  unfold trimTop at h
  exact List.mem_reverse.1 ((List.dropWhile_sublist _).subset (List.mem_reverse.1 h))

/-- An uninitialized object that is stored stands in the frame. -/
theorem From.layout {A : Allocation → Prop} {f : Frame} (hf : f.From A) {o : Nat}
    (h : .uninitialized o ∈ f.layout.locals ++ f.layout.stack) : ∃ a, a.offset = o ∧ A a := by
  have hnamed : ∀ type : VType, type.From A → VerificationType.uninitialized o = type.named →
      ∃ a, a.offset = o ∧ A a := by
    intro type hfrom he
    cases type with
    | uninitialized a =>
      cases he
      exact ⟨a, rfl, hfrom a rfl⟩
    | _ => cases he
  rcases List.mem_append.1 h with h | h
  · obtain ⟨type, hmem, he⟩ := mem_layoutLocals (mem_trimTop h)
    obtain ⟨slot, hlt, rfl⟩ := Array.mem_iff_getElem.1 hmem
    refine hnamed _ ?_ he
    have := hf.locals slot
    rwa [local?, Array.getElem?_eq_getElem hlt] at this
  · obtain ⟨type, hmem, he⟩ := List.mem_map.1 h
    exact hnamed type (hf.stack type hmem) he.symm

end Frame

namespace MethodBuilder

open LabelGraph (Spans)

variable {b b' : MethodBuilder} {u : Unit} {pool pool' : ConstantPool} {o : Nat}

namespace Effects

variable {event : MethodEvent}

end Effects

/-- An edge out of a block is one of its own, which carry control as it passes on, or leads to a
handler with the type that it catches. -/
theorem Charted.edge_cases {rowsOf : Label → List Row} {entry : Label} {flow : FlowSetting}
    (h : b.Charted rowsOf) (ha : b.Analyses entry flow) {l : Label} {edge : Edge}
    (he : edge ∈ flow.graph.edges l) :
    edge.kind = .normal ∨ ∃ handler : ExceptionHandler, ∃ type,
      handler.caughtType = .ok type ∧ edge.kind = .caught type := by
  have hlayout := LabelGraph.sameLayout_resolve b.graph
  have ht := h.tiled.sameLayout hlayout
  have hr := LabelGraph.resolved_resolve b.graph
  have hw := (Handlers.completeTyped_ok ha.graph).1
  have hunlinked := Handlers.unlinked_completeTyped ht hr h.unlinked.resolve ha.graph
  obtain ⟨i, hi⟩ := hunlinked.chained he
  have ht' := ht.sameLayout hw.layout
  have hi' : b.graph.resolve.chain[i]? = some (flow.graph.blockOf l) := hw.layout.chain ▸ hi
  obtain ⟨p, -, hp⟩ := ht.position hi'
  rw [← LabelGraph.edges_blockOf ht',
    Handlers.mem_edges_completeTyped ht hr ha.graph hi' hp] at he
  rcases he with he | ⟨handler, -, type, htype, -, rfl⟩
  · rw [LabelGraph.edges_resolve, h.edges i _ hi', List.mem_append] at he
    refine Or.inl ?_
    rcases he with he | he
    · obtain ⟨row, -, he⟩ := List.mem_flatMap.1 he
      obtain ⟨target, -, rfl⟩ := List.mem_map.1 he
      rfl
    · unfold Row.falls at he
      split at he
      · cases he
      · obtain ⟨next, -, rfl⟩ := List.mem_map.1 he
        rfl
  · exact Or.inr ⟨handler, type, htype, rfl⟩

/-- A handler catches objects. -/
theorem object_of_caughtType {handler : ExceptionHandler} {type : VType}
    (h : handler.caughtType = .ok type) : ∃ caught, type = .object caught := by
  unfold ExceptionHandler.caughtType at h
  split at h
  · cases h
    exact ⟨_, rfl⟩
  · rename_i name _
    cases hname : RefType.ofInternalName name with
    | error e =>
      rw [hname] at h
      cases h
    | ok caught =>
      rw [hname] at h
      cases h
      exact ⟨caught, rfl⟩

variable {events : List MethodEvent} {rows more : List (Label × Row)}

/-- Where the first instruction of pieces stops, the others start. -/
theorem Written.start_eq {told : List (Nat × MethodEvent)} {pieces : List Piece} {g : LabelGraph}
    {filled : List UInt8} {rows : List Row} {start stop : Nat} (h : Written pool o told pieces)
    (hrows : rows.map (fun row => (row.offset, row.event)) = told)
    (hlaid : Row.Laid start rows stop) (hf : Piece.Filled g pieces filled)
    (hstop : o + filled.length = stop) : start = o := by
  cases h with
  | nil =>
    obtain rfl := List.map_eq_nil_iff.1 hrows
    cases hf
    cases hlaid
    exact hstop.symm
  | cons codes h =>
    obtain ⟨row, rest, rfl, hrow, -⟩ := List.map_eq_cons_iff.1 hrows
    cases hlaid with
    | cons offset _ _ => exact offset.symm.trans (congrArg Prod.fst hrow)

/-- With the distances filled in, the instructions stand in the code where they were written, and
read as they were told. -/
theorem Written.spells {g : LabelGraph} {told : List (Nat × MethodEvent)} {pieces : List Piece}
    {filled : List UInt8} {rows : List Row} {stop : Nat} (h : Written pool o told pieces)
    (hrows : rows.map (fun row => (row.offset, row.event)) = told)
    (hlaid : Row.Laid o rows stop) (hf : Piece.Filled g pieces filled)
    (hstop : o + filled.length = stop) (hsize : stop < 65536)
    (hg : ∀ label place, g.offset label = .ok place → place < 65536) (hp : pool.Grows pool') :
    ∀ row ∈ rows, row.event.isProper = true → ∃ front bytes back i,
      filled = front ++ bytes ++ back ∧ o + front.length = row.offset ∧
      row.offset + bytes.length = row.stop ∧
      Scan.ReadsAt row.offset JvmClass.Instruction.read bytes (row.offset, i) ∧
      row.event.Tells g pool' i := by
  induction h generalizing filled rows with
  | nil o =>
    obtain rfl := List.map_eq_nil_iff.1 hrows
    exact List.forall_mem_nil _
  | @cons o event told pieces others codes h ih =>
    obtain ⟨row, rest, rfl, hrow, hrest⟩ := List.map_eq_cons_iff.1 hrows
    obtain ⟨bytes, back, rfl, hbytes, hback⟩ := hf.split
    obtain ⟨rfl, rfl⟩ := Prod.mk.inj hrow
    rw [← hbytes.length_eq] at h ih
    rw [List.length_append, ← Nat.add_assoc] at hstop
    cases hlaid with
    | cons offset grows hlaid =>
      have hnext := h.start_eq hrest hlaid hback hstop
      refine List.forall_mem_cons.2 ⟨fun hproper => ?_, fun row' hr hproper => ?_⟩
      · obtain ⟨-, hreads⟩ := codes g bytes hbytes (by omega) hg
        obtain ⟨i, hread, htells⟩ := hreads hproper
        exact ⟨[], bytes, back, i, rfl, rfl, hnext.symm, hread, htells pool' hp⟩
      · obtain ⟨front, bytes', back', i, rfl, hfront, hstop', hread, htells⟩ :=
          ih hrest (hnext ▸ hlaid) hback hstop row' hr hproper
        refine ⟨bytes ++ front, bytes', back', i, ?_, ?_, hstop', hread, htells⟩
        · simp only [List.append_assoc]
        · rw [List.length_append]
          omega

/-- Once the distances are filled in, the instructions of a run stand where they were written, and
read as they were told. -/
theorem Charting.spells {setting : MethodSetting} {body patched : MethodBuilder}
    (h : Charting events (ofSetting setting pool) body [] rows)
    (hlast : ∀ event ∈ events, ∀ n, event.stage = some n → n ≤ 3)
    (hrun : ClassBuilder.feedMethod events (ofSetting setting pool) = .ok () body)
    (hpatch : patch body.fixups.toList { body with graph := body.graph.resolve } = .ok () patched)
    (hsize : body.code.size < 65536) : ∀ x ∈ rows, x.2.event.isProper = true → ∃ bytes i,
      Spells patched.code x.2.offset bytes ∧ x.2.offset + bytes.length = x.2.stop ∧
      Scan.ReadsAt x.2.offset JvmClass.Instruction.read bytes (x.2.offset, i) ∧
      x.2.event.Tells body.graph.resolve body.pool i := by
  obtain ⟨pieces, happends, hwritten⟩ := pieces_of_feedMethod hlast hrun
  have hcode : body.code.toList = pieces.flatMap Piece.blank := by
    rw [happends.code, Bytes.toList_putAll]
    rfl
  have hfilled := filled_of_patch hcode happends.fixups hpatch
  have hlength : 0 + patched.code.toList.length = body.code.size := by
    rw [hfilled.length_eq, ← hcode, Array.length_toList, Nat.zero_add]
  have hbound : ∀ label place, body.graph.resolve.offset label = .ok place → place < 65536 := by
    intro label place hplace
    have hp := (LabelGraph.resolved_resolve body.graph label place).1 hplace
    rw [(LabelGraph.sameLayout_resolve body.graph).position?] at hp
    exact Nat.lt_of_le_of_lt (happends.bounded (fun l q hq => nomatch hq) label place hp) hsize
  have htold : (rows.map Prod.snd).map (fun row => (row.offset, row.event)) =
      MethodBuilder.told events (ofSetting setting pool) := by
    rw [List.map_map]
    exact h.told
  intro x hx hproper
  obtain ⟨front, bytes, back, i, hall, hfront, hstop, hread, htells⟩ :=
    hwritten.spells htold h.laid hfilled hlength hsize hbound (.refl _) x.2 (List.mem_map_of_mem hx)
      hproper
  exact ⟨bytes, i, ⟨front, back, hall, (Nat.zero_add _).symm.trans hfront⟩, hstop, hread, htells⟩

end MethodBuilder

end JvmClass
