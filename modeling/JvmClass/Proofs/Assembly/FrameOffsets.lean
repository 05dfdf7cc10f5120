import JvmClass.Proofs.Assembly.Decoding
import JvmClass.Proofs.Assembly.Framing
import JvmClass.Proofs.Assembly.Settling

/-!
# Frames are stored at ascending offsets

Whatever is computed of a body, the frames that are stored at its end stand at ascending offsets of
its code: given frames come one after another, and computed ones stand where blocks start. The
distance of a frame from the one before it can therefore always be stored
(`MethodBuilder.frames_ascend`).
-/

namespace JvmClass

open Step (left)

namespace MethodBuilder

variable {b b' : MethodBuilder} {size : Nat} {u : Unit}

section Blocks

variable {inputs : Std.HashMap Label Frame} {plan plan' : FramePlan} {block : Label}
  {rest blocks : List Label} {g : LabelGraph}

/-- Where another block follows, replacing a block leaves the control flow as it is. -/
theorem graph_replaceDead {next : Label} {start stop : Nat}
    (h : replaceDead block (some next) start stop b = .ok u b') : b'.graph = b.graph := by
  simp only [replaceDead, blockEnd, Step.bind_ok, Step.get_ok, Step.pure_ok] at h
  obtain ⟨_, _, hwrite, _, _, ⟨rfl, rfl⟩, _, _, ⟨rfl, rfl⟩, h⟩ := h
  obtain rfl := write_ok hwrite
  obtain ⟨handlers, -, rfl⟩ := Step.on_ok.1 h
  rfl

/-- A block gets at most one frame, where it starts. -/
theorem placeFrames_adds (h : placeFrames inputs plan (block :: rest) b = .ok plan' b') :
    ∃ start next mid, b.graph.offset block = .ok start ∧
      (next.frames = plan.frames ∨ ∃ frame, next.frames = (start, frame) :: plan.frames) ∧
      (rest ≠ [] → mid.graph = b.graph) ∧ placeFrames inputs next rest mid = .ok plan' b' := by
  obtain ⟨start, stop, hstart, -, -, h⟩ := placeFrames_cons h
  cases hinput : inputs[block]? with
  | some frame =>
    rw [hinput] at h
    refine ⟨start, _, b, hstart, ?_, fun _ => rfl, h⟩
    dsimp only
    split
    · exact Or.inr ⟨frame, rfl⟩
    · exact Or.inl rfl
  | none =>
    rw [hinput, Option.elim_none] at h
    split at h
    · obtain ⟨_, mid, hreplace, h⟩ := Step.bind_ok.1 h
      refine ⟨start, _, mid, hstart, Or.inr ⟨_, rfl⟩, fun hne => ?_, h⟩
      obtain ⟨next, later, rfl⟩ := List.exists_cons_of_ne_nil hne
      exact graph_replaceDead hreplace
    · exact ⟨start, _, b, hstart, Or.inl rfl, fun _ => rfl, h⟩

/-- The frames of blocks that start one after another ascend. -/
theorem placeFrames_ascend (ho : g.Ordered size blocks) (hg : blocks ≠ [] → b.graph = g)
    (hplan : AscendTo size (plan.frames.reverse.map Prod.fst))
    (hbefore : ∀ f ∈ plan.frames, ∀ l ∈ blocks, ∀ p, g.offset l = .ok p → f.1 < p)
    (h : placeFrames inputs plan blocks b = .ok plan' b') :
    AscendTo size (plan'.frames.reverse.map Prod.fst) := by
  induction blocks generalizing plan b with
  | nil =>
    obtain ⟨rfl, -⟩ := Step.pure_ok.1 h
    exact hplan
  | cons block rest ih =>
    obtain ⟨start, next, mid, hstart, hnext, hmid, h⟩ := placeFrames_adds h
    rw [hg (List.cons_ne_nil _ _)] at hstart hmid
    have hlater : ∀ l ∈ rest, ∀ p, g.offset l = .ok p → start < p := fun l hl p hp =>
      (List.pairwise_cons.1 ho.ascending).1 l hl start p hstart hp
    rcases hnext with hnext | ⟨frame, hnext⟩
    · refine ih ho.tail hmid (by rwa [hnext]) (fun f hf l hl => ?_) h
      exact hbefore f (hnext ▸ hf) l (List.mem_cons_of_mem _ hl)
    · refine ih ho.tail hmid ?_ (fun f hf l hl p hp => ?_) h
      · rw [hnext, List.reverse_cons, List.map_append]
        refine hplan.concat (fun last hlast => ?_) (ho.bounded block List.mem_cons_self start hstart)
        obtain ⟨f, hf, rfl⟩ := List.mem_map.1 (List.mem_of_getLast? hlast)
        exact hbefore f (List.mem_reverse.1 hf) block List.mem_cons_self start hstart
      · rw [hnext] at hf
        rcases List.mem_cons.1 hf with rfl | hf
        · exact hlater l hl p hp
        · exact hbefore f hf l (List.mem_cons_of_mem _ hl) p hp

end Blocks

/-- The frames that are handed over ascend, if offsets are settled. -/
theorem handOverComputed_ascend {entry : Label} {r : Handover} (hb : b.Sequenced)
    (hr : b.graph.Resolved) (h : handOverComputed entry b = .ok r b') :
    AscendTo b.code.size (r.frames.map Prod.fst) := by
  simp only [handOverComputed, Step.bind_ok, Step.get_ok, Step.of_ok, Step.modify_ok] at h
  obtain ⟨_, _, ⟨rfl, rfl⟩, inputs, _, ⟨-, rfl⟩, _, _, rfl, _, _, ⟨rfl, rfl⟩, plan, _, hplan, h⟩ := h
  rw [Step.guard_ok] at h
  obtain ⟨-, h⟩ := h
  obtain ⟨rfl, -⟩ := Step.pure_ok.1 h
  rw [LabelGraph.fold_markReachable] at hplan
  obtain ⟨hwidens, -, -⟩ := LabelGraph.foldl_markReachable (g := b.graph) (inputs.frames.toList.map Prod.fst)
  have hordered := (hb.tiled.sameLayout hwidens.layout).ordered (hr.widens hwidens)
  have hframes := placeFrames_ascend hordered (fun _ => rfl) ⟨.nil, by simp⟩
    (by simp) hplan
  simpa [Function.comp_def] using hframes

theorem givenLayout_fst {g : LabelGraph} {frame : Nat × Layout LabelledType}
    {stored : Nat × Layout NamedType} (h : givenLayout g frame = .ok stored) :
    stored.1 = frame.1 := by
  simp only [givenLayout, Step.except_bind_ok] at h
  obtain ⟨locals, -, stack, -, h⟩ := h
  cases h
  rfl

theorem handOverGiven_ascend {maxStack : UInt16} {maxLocals : Option UInt16} {r : Handover}
    (hb : b.Sequenced) (h : handOverGiven maxStack maxLocals b = .ok r b') :
    AscendTo b.code.size (r.frames.map Prod.fst) := by
  simp only [handOverGiven, Step.bind_ok, Step.get_ok, Step.of_ok, Step.pure_ok] at h
  obtain ⟨_, _, ⟨rfl, rfl⟩, frames, _, ⟨hframes, rfl⟩, rfl, -⟩ := h
  have hsame : List.Forall₂ (· = ·) (frames.map Prod.fst) (b.givenFrames.toList.map Prod.fst) := by
    rw [List.forall₂_map_left_iff, List.forall₂_map_right_iff]
    exact ((forall₂_of_mapM hframes).imp fun _ _ h => givenLayout_fst h).flip
  rw [List.forall₂_eq_eq_eq] at hsame
  rw [hsame]
  exact hb.frames

theorem handOver_ascend {entry : Label} {stack locals : UInt16} {r : Handover} (hb : b.Sequenced)
    (hr : b.graph.Resolved) (h : handOver entry stack locals b = .ok r b') :
    AscendTo b.code.size (r.frames.map Prod.fst) := by
  simp only [handOver, Step.bind_ok, Step.get_ok] at h
  obtain ⟨_, _, ⟨rfl, rfl⟩, h⟩ := h
  split at h
  · obtain ⟨_, mid, hgraph, h⟩ := Step.bind_ok.1 h
    obtain ⟨graph, hcomplete, rfl⟩ := Step.on_ok.1 hgraph
    obtain ⟨hwidens, -⟩ := Handlers.completeTyped_ok hcomplete
    have hframes := handOverComputed_ascend (hb.relayout hwidens.layout) (hr.widens hwidens) h
    exact hframes
  · split at h
    · obtain ⟨_, mid, hgraph, h⟩ := Step.bind_ok.1 h
      obtain ⟨graph, hcomplete, rfl⟩ := Step.on_ok.1 hgraph
      simp only [Step.bind_ok, Step.get_ok] at h
      obtain ⟨_, _, ⟨rfl, rfl⟩, h⟩ := h
      rw [Step.guard_ok] at h
      have hframes := handOverGiven_ascend (hb.relayout (Handlers.complete_ok hcomplete).layout) h.2
      exact hframes
    · exact handOverGiven_ascend hb h

/-- What is settled when a body ends in order has frames that ascend within its code. -/
theorem settleBody_ascend {stack locals : UInt16} {r : Handover} (hb : b.Sequenced)
    (h : settleBody stack locals b = .ok r b') :
    b.code.size < 65536 ∧ AscendTo b.code.size (r.frames.map Prod.fst) := by
  simp only [settleBody, Step.bind_ok, Step.get_ok] at h
  obtain ⟨_, _, ⟨rfl, rfl⟩, h⟩ := h
  cases hentry : b.entry with
  | none =>
    rw [hentry] at h
    exact absurd h (by simp [Step.throw_ok])
  | some entry =>
    simp only [hentry, Step.bind_ok, Step.get_ok] at h
    obtain ⟨_, _, ⟨rfl, rfl⟩, h⟩ := h
    rw [Step.guard_ok] at h
    obtain ⟨hsize, h⟩ := h
    simp only [Step.bind_ok, Step.get_ok, Step.modify_ok] at h
    obtain ⟨_, _, rfl, _, _, ⟨rfl, rfl⟩, _, patched, hpatch, h⟩ := h
    have hcode := size_patch hpatch
    obtain ⟨code, rfl⟩ := patch_ok hpatch
    have hsettled : Sequenced { b with graph := b.graph.resolve, code } :=
      (hb.relayout (LabelGraph.sameLayout_resolve b.graph)).grow (Nat.le_of_eq hcode.symm)
        (by rw [hcode]; exact hb.tiled.sameLayout (LabelGraph.sameLayout_resolve b.graph)) rfl
    have hframes := handOver_ascend hsettled (LabelGraph.resolved_resolve b.graph) h
    exact ⟨Nat.lt_of_not_le hsize, hcode ▸ hframes⟩

/-- The distance of every offset from the one before it can be stored, and gives the offset back. -/
def Spaced (offsets : List Nat) : Prop :=
  ∀ front offset rest, offsets = front ++ offset :: rest →
    ∃ delta, frameDelta front.getLast? offset = .ok delta ∧
      front.getLast?.elim 0 (· + 1) + delta.toNat = offset

/-- No distance between offsets that ascend in sixteen bits is negative or too large. -/
theorem spaced_of_ascendTo {bound : Nat} {offsets : List Nat} (h : AscendTo bound offsets)
    (hbound : bound < 65536) : Spaced offsets := by
  rintro front offset rest rfl
  have hle := h.2 offset (by simp)
  cases hlast : front.getLast? with
  | none =>
    refine ⟨UInt16.ofNat offset, if_pos (by omega), ?_⟩
    simp only [Option.elim_none, UInt16.toNat_ofNat']
    omega
  | some last =>
    have hlt : last < offset := (List.pairwise_append.1 h.1).2.2 last (List.mem_of_getLast? hlast)
      offset List.mem_cons_self
    refine ⟨UInt16.ofNat (offset - last - 1), ?_, ?_⟩
    · simp only [frameDelta]
      rw [if_pos]
      simp only [Bool.and_eq_true, decide_eq_true_eq]
      omega
    · simp only [Option.elim_some, UInt16.toNat_ofNat']
      omega

/-- Blocks that tile code start one after another in it. -/
theorem Sequenced.blocks (h : b.Sequenced) :
    b.graph.Ascending ∧
      ∀ block ∈ b.graph.blocks, ∃ p, b.graph.position? block = some p ∧ p ≤ b.code.size := by
  refine ⟨List.pairwise_filterMap.2 (List.pairwise_iff_getElem.2 fun i j hi hj hij p hp q hq => ?_),
    fun block hblock => ?_⟩
  · have hchain : ∀ k (hk : k < b.graph.blocks.length), b.graph.chain[k]? = some b.graph.blocks[k] :=
      fun k hk => by rw [← LabelGraph.blocks_getElem, List.getElem?_eq_getElem hk]
    exact h.tiled.ascending i j _ _ p q hij (hchain i hi) (hchain j hj) hp hq
  · obtain ⟨i, hi⟩ := List.getElem?_of_mem hblock
    obtain ⟨p, hle, hp⟩ := h.tiled.leaders i block (by rwa [← LabelGraph.blocks_getElem])
    exact ⟨p, by rw [LabelGraph.position?_eq, hp]; rfl, hle⟩

/-- Whatever is computed, a run in order that ends a body has blocks at ascending positions of its
code, before and after the body is settled. The frames that are then stored stand at ascending
offsets within the code, which fits in sixteen bits; so each has a distance from the one before it
that can be stored. This also holds if events of the run fail. -/
theorem frames_ascend (setting : MethodSetting) (pool : ConstantPool) {events : List MethodEvent}
    {stack locals : UInt16} (horder : inOrder 0 (events ++ [.maxs stack locals]) = true) :
    let b := leftAfter events (ofSetting setting pool)
    let settled := settleBody stack locals b
    finishBody stack locals b = (do completeBody (← storeFrames (← settleBody stack locals))) b ∧
      (∀ g ∈ [b.graph, (left settled).graph], g.Ascending ∧
        ∀ block ∈ g.blocks, ∃ p, g.position? block = some p ∧ p ≤ b.code.size) ∧
      ∀ h b', settled = .ok h b' → b'.code.size = b.code.size ∧ b.code.size < 65536 ∧
        AscendTo b.code.size (h.frames.map Prod.fst) ∧ Spaced (h.frames.map Prod.fst) := by
  obtain ⟨-, hevents, hearly⟩ := inOrder_append_maxs horder
  intro b settled
  have hb : b.Sequenced :=
    sequenced_of_run (sequenced_ofSetting setting pool) rfl hevents hearly
  have hends := upholds_settleBody stack locals b ⟨hb, rfl⟩
  have hleft := hends.left
  refine ⟨congrFun (finishBody_eq stack locals) b, fun g hg => ?_, fun h b' hok => ?_⟩
  · rcases List.mem_cons.1 hg with rfl | hg
    · exact hb.blocks
    · obtain rfl := List.mem_singleton.1 hg
      exact hleft.size_eq ▸ hleft.sequenced.blocks
  · obtain ⟨hsize, hframes⟩ := settleBody_ascend hb hok
    exact ⟨(upholds_settleBody stack locals).ok ⟨hb, rfl⟩ hok |>.size_eq, hsize, hframes,
      spaced_of_ascendTo hframes hsize⟩

/-- A body with two frames that are given, one byte apart. -/
def givesFrames : List MethodEvent :=
  [.code, .plain Opcode.nop, .frame [] [], .plain Opcode.nop, .frame [] [],
    .plain Opcode.return_void]

theorem frames_ascend_givesFrames :
    inOrder 0 (givesFrames ++ [.maxs 0 1]) = true ∧
      ∃ h b', settleBody 0 1 (leftAfter givesFrames (ofSetting uncomputed .empty)) = .ok h b' ∧
        h.frames.map Prod.fst = [1, 2] ∧ b'.code.size = 3 ∧ AscendTo 3 [1, 2] ∧
        Spaced [1, 2] := by
  have horder : inOrder 0 (givesFrames ++ [.maxs 0 1]) = true := by decide
  have hall := (frames_ascend uncomputed .empty horder).2.2 _ _ rfl
  exact ⟨horder, _, _, rfl, rfl, hall.1, hall.2.2⟩

end MethodBuilder

end JvmClass
