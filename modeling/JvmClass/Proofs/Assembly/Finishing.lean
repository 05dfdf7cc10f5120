import JvmClass.Proofs.Assembly.HandlerFrames
import JvmClass.Proofs.Assembly.Writing
import JvmClass.Proofs.Attribute.StackMap
import JvmClass.Proofs.Flow.HandlerTable

/-!
# The end of a body

At the end of a body the branch distances are filled in (`MethodBuilder.patch_fills`), the maximums
and frames are settled, and the exception table is stored. What comes after that only asks the pool
for more constants (`MethodBuilder.Finishes`).
-/

namespace JvmClass

open ConstantPool (Stable)

namespace LabelGraph

theorem stable_storedVariable (g : LabelGraph) (v : VariableRange Label) :
    Stable (g.storedVariable v) := by
  refine (ConstantPool.stable_of _).bind fun start => (ConstantPool.stable_of _).bind fun stop => ?_
  refine ConstantPool.stable_ite (ConstantPool.stable_throw _) ?_
  exact (ConstantPool.stable_utf8 v.name).bind fun name => (ConstantPool.stable_utf8 _).map

theorem stable_lineNumberTable (g : LabelGraph) (lines : List (UInt16 × Label)) :
    Stable (g.lineNumberTable lines) :=
  ConstantPool.stable_ite (ConstantPool.stable_pure []) <|
    (ConstantPool.stable_of _).bind fun _ => (Attribute.gives_single _).stable

theorem stable_localVariableTable (g : LabelGraph) (vars : List (VariableRange Label)) :
    Stable (g.localVariableTable vars) :=
  ConstantPool.stable_ite (ConstantPool.stable_pure []) <|
    (ConstantPool.stable_mapM g.stable_storedVariable vars).bind fun _ =>
      (Attribute.gives_single _).stable

end LabelGraph

namespace MethodBuilder

variable {b b' : MethodBuilder} {u : Unit}

/-- Filling in the distances of pieces that stand at the end of the code. -/
theorem patch_fills {front : List UInt8} {pieces : List Piece}
    (hcode : b.code.toList = front ++ pieces.flatMap Piece.blank)
    (h : patch (Piece.fixups front.length pieces) b = .ok u b') :
    ∃ filled, Piece.Filled b.graph pieces filled ∧ b'.code.toList = front ++ filled := by
  induction pieces generalizing b front with
  | nil =>
    obtain ⟨-, rfl⟩ := Step.pure_ok.1 h
    exact ⟨[], .nil, hcode⟩
  | cons piece rest ih =>
    cases piece with
    | bytes bytes =>
      rw [Piece.fixups, ← List.length_append] at h
      obtain ⟨filled, hfilled, hcode'⟩ := ih (by rw [hcode]; simp [Piece.blank]) h
      exact ⟨bytes ++ filled, .bytes hfilled, by rw [hcode', List.append_assoc]⟩
    | distance source target wide =>
      simp only [Piece.fixups, patch, Step.bind_ok, Step.get_ok, Step.of_ok] at h
      obtain ⟨_, _, ⟨rfl, rfl⟩, place, _, ⟨hplace, rfl⟩, bytes, _, ⟨hbytes, rfl⟩, _, _, hwrite,
        hrest⟩ := h
      obtain rfl := write_ok hwrite
      have hsplit : b.code.toList =
          front ++ (Piece.distance source target wide).blank ++ rest.flatMap Piece.blank := by
        rw [hcode, List.flatMap_cons, List.append_assoc]
      have hfilled : ∀ stored : List UInt8,
          (Piece.distance source target wide).blank.length = stored.length → bytes = stored →
          ∃ filled, Piece.Filled b.graph rest filled ∧ b'.code.toList = front ++ (stored ++ filled) := by
        rintro _ hlength rfl
        rw [hlength, ← List.length_append] at hrest
        obtain ⟨filled, hfilled, hcode'⟩ :=
          ih (b := { b with code := _ }) (Bytes.toList_overwrite hsplit hlength) hrest
        exact ⟨filled, hfilled, by rw [hcode', List.append_assoc]⟩
      cases wide with
      | true =>
        rw [Fixup.bytes_wide rfl] at hbytes
        cases hbytes
        obtain ⟨filled, hrest, hcode'⟩ := hfilled (distance32 source place) rfl rfl
        exact ⟨_, .wide hplace hrest, hcode'⟩
      | false =>
        obtain ⟨hnear, rfl⟩ := Fixup.bytes_short rfl hbytes
        obtain ⟨filled, hrest, hcode'⟩ := hfilled (distance16 source place) rfl rfl
        exact ⟨_, .short hplace hnear hrest, hcode'⟩

/-- The code, written as pieces from its start on, has all distances filled in. -/
theorem filled_of_patch {pieces : List Piece} (hcode : b.code.toList = pieces.flatMap Piece.blank)
    (hfixups : b.fixups.toList = Piece.fixups 0 pieces)
    (h : patch b.fixups.toList { b with graph := b.graph.resolve } = .ok u b') :
    Piece.Filled b.graph.resolve pieces b'.code.toList := by
  rw [hfixups] at h
  have hfront : ({ b with graph := b.graph.resolve } : MethodBuilder).code.toList =
      [] ++ pieces.flatMap Piece.blank := hcode
  obtain ⟨filled, hfilled, hpatched⟩ := patch_fills hfront h
  rwa [hpatched]

theorem stable_stackMapTable (entry : Layout NamedType) (frames : List (Nat × Layout NamedType)) :
    Stable (stackMapTable entry frames) := (gives_stackMapTable entry frames).stable

theorem givenStackMap_ok {attributes : List Attribute}
    (h : givenStackMap b = .ok attributes b') :
    ∃ pool, b' = { b with pool } ∧ b.pool.Grows pool := by
  simp only [givenStackMap, Step.bind_ok, Step.get_ok, Step.of_ok] at h
  obtain ⟨_, _, ⟨rfl, rfl⟩, frames, _, ⟨-, rfl⟩, hask⟩ := h
  obtain ⟨pool, hpool, rfl⟩ := Step.on_ok.1 hask
  exact ⟨pool, rfl, (stable_stackMapTable _ _ _ _ _ hpool).1.grows⟩

/-- Where frames are not computed, settling the limits of a body moves nothing. -/
theorem limits_ok {entry : Label} {stack locals : UInt16} {lim : Limits}
    (hf : b.setting.compute.frames = false) (h : limits entry stack locals b = .ok lim b') :
    ∃ graph pool, b' = { b with graph, pool } ∧ b.graph.Widens graph ∧ b.pool.Grows pool := by
  simp only [limits, Step.bind_ok, Step.get_ok] at h
  obtain ⟨_, _, ⟨rfl, rfl⟩, h⟩ := h
  rw [if_neg (by simp [hf])] at h
  split at h
  · simp only [Step.bind_ok, Step.get_ok, onGraph, Step.on_ok] at h
    obtain ⟨_, _, ⟨graph, hgraph, rfl⟩, _, _, ⟨rfl, rfl⟩, h⟩ := h
    rw [Step.guard_ok] at h
    simp only [Step.bind_ok, Step.get_ok, Step.pure_ok] at h
    obtain ⟨-, stackMap, _, hgiven, _, _, ⟨rfl, rfl⟩, -, rfl⟩ := h
    obtain ⟨pool, rfl, hgrows⟩ := givenStackMap_ok hgiven
    exact ⟨graph, pool, rfl, Handlers.complete_ok hgraph, hgrows⟩
  · simp only [Step.bind_ok, Step.pure_ok] at h
    obtain ⟨stackMap, _, hgiven, -, rfl⟩ := h
    obtain ⟨pool, rfl, hgrows⟩ := givenStackMap_ok hgiven
    exact ⟨b.graph, pool, rfl, .refl _, hgrows⟩

/-- The stored table reads back as an entry for each handler whose range holds code. -/
theorem exceptionTable_ok {table : Bytes} (h : exceptionTable b = .ok table b') :
    ∃ pool, b' = { b with pool } ∧ b.pool.Grows pool ∧ ∃ entries,
      List.Forall₂ (ExceptionHandler.StoredAs b.graph pool)
        (b.handlers.toList.filter (Handlers.holdsCode b.graph)) entries ∧
      Scan.runAt table 0 (Scan.counted ClassImage.readTableEntry) = .ok entries := by
  simp only [exceptionTable, Step.bind_ok, Step.get_ok, Step.of_ok] at h
  obtain ⟨_, _, ⟨rfl, rfl⟩, _, _, ⟨-, rfl⟩, h⟩ := h
  obtain ⟨pool, hput, rfl⟩ := Step.on_ok.1 h
  split at hput
  · rename_i u s hs
    cases hput
    obtain ⟨hgrows, entries, hall, hreads⟩ := Handlers.put_ok hs
    exact ⟨s.pool, rfl, hgrows, entries, hall, hreads.runAt (.of_toList rfl)⟩
  · cases hput

/-- A body is completed in stages: distances are filled in, limits and frames are settled, and the
exception table is stored. The attribute of the body holds the code and the table as they are
then. -/
structure Finishes (stack locals : UInt16) (b patched limited final : MethodBuilder) (entry : Label)
    (lim : Limits) (table : Bytes) : Prop where
  begun : b.entry = some entry
  size : b.code.size < 65536
  patch : patch b.fixups.toList { b with graph := b.graph.resolve } = .ok () patched
  limits : limits entry stack locals patched = .ok lim limited
  locals : lim.maxLocals < 65536
  tabled : ∃ tabled, exceptionTable limited = .ok table tabled ∧ tabled.pool.Grows final.pool
  graph : final.graph = limited.graph
  body : ∃ name others, final.body = some (name, .code lim.maxStack (UInt16.ofNat lim.maxLocals)
    limited.code table (others ++ lim.stackMap))

theorem finishBody_ok {stack locals : UInt16} (h : finishBody stack locals b = .ok u b') :
    ∃ patched limited entry lim table, Finishes stack locals b patched limited b' entry lim table := by
  simp only [finishBody, Step.bind_ok, Step.get_ok] at h
  obtain ⟨_, _, ⟨rfl, rfl⟩, h⟩ := h
  cases hentry : b.entry with
  | none =>
    rw [hentry] at h
    exact absurd h (by simp [Step.throw_ok])
  | some entry =>
    rw [hentry] at h
    simp only [Step.bind_ok, Step.get_ok] at h
    obtain ⟨_, _, ⟨rfl, rfl⟩, h⟩ := h
    rw [Step.guard_ok] at h
    obtain ⟨hsize, h⟩ := h
    simp only [Step.bind_ok, Step.get_ok, Step.modify_ok] at h
    obtain ⟨_, _, rfl, _, _, ⟨rfl, rfl⟩, _, patched, hpatch, lim, limited, hlimits, h⟩ := h
    rw [Step.guard_ok] at h
    obtain ⟨hlocals, h⟩ := h
    simp only [Step.bind_ok, Step.get_ok, Step.set_ok, Step.modify_ok, Step.of_ok] at h
    obtain ⟨table, tabled, htable, _, _, ⟨rfl, rfl⟩, _, _, rfl, lines, _, hlines, _, _, rfl, vars, _,
      hvars, _, _, rfl, raw, _, hraw, _, _, ⟨-, rfl⟩, _, _, ⟨rfl, rfl⟩, _, _, rfl, body, _, hbody,
      rfl⟩ := h
    obtain ⟨pool, htabled, -⟩ := exceptionTable_ok htable
    have hcode : tabled.code = limited.code := by rw [htabled]
    have hgraph : tabled.graph = limited.graph := by rw [htabled]
    obtain ⟨p₁, h1, rfl⟩ := Step.on_ok.1 hlines
    obtain ⟨p₂, h2, rfl⟩ := Step.on_ok.1 hvars
    obtain ⟨p₃, h3, rfl⟩ := Step.on_ok.1 hraw
    obtain ⟨p₄, h4, rfl⟩ := Step.on_ok.1 hbody
    have hgrows : tabled.pool.Grows p₄ :=
      (((LabelGraph.stable_lineNumberTable _ _ _ _ _ h1).1.grows.trans
        (LabelGraph.stable_localVariableTable _ _ _ _ _ h2).1.grows).trans
          ((Attribute.gives_makeRaw _).stable _ _ _ h3).1.grows).trans
            ((Attribute.gives_make _).stable _ _ _ h4).1.grows
    simp only [Attribute.make, Step.bind_ok, Step.pure_ok] at h4
    obtain ⟨name, _, -, rfl, rfl⟩ := h4
    refine ⟨patched, limited, entry, lim, table, hentry, Nat.not_le.1 hsize, hpatch, hlimits,
      Nat.not_le.1 hlocals, ⟨tabled, htable, hgrows⟩, hgraph, name, lines ++ vars ++ raw, ?_⟩
    exact congrArg (fun code => some (name, AttributeBody.code lim.maxStack
      (UInt16.ofNat lim.maxLocals) code table (lines ++ vars ++ raw ++ lim.stackMap))) hcode

namespace Finishes

variable {stack locals : UInt16} {patched limited final : MethodBuilder} {entry : Label}
  {lim : Limits} {table : Bytes}

/-- Filling in distances settles offsets and changes the code. -/
theorem patched_eq (h : Finishes stack locals b patched limited final entry lim table) :
    ∃ code, patched = { b with graph := b.graph.resolve, code } := patch_ok h.patch

end Finishes

end MethodBuilder

end JvmClass
