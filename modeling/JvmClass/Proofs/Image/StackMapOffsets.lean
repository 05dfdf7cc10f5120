import JvmClass.Proofs.Image.Labels

/-!
# Offsets of the frames of a stack map

The distances of a stack map are added up in 32 bits. Each of them moves on by at most 65536, and a
count of sixteen bits admits one entry less than would be needed to leave these 32 bits
(`ClassImage.toNat_wordsAfter`). Since each of them but the first moves on by at least one, the
frames stand at ascending offsets, and the map that a body keeps them in has every one of them.
-/

namespace JvmClass

namespace ClassImage

variable {image : ClassImage} {delta : UInt16} {deltas : List UInt16} {previous : Option Nat}

/-- The offsets at which frames stand after an offset, by their distances. -/
def offsetsAfter (previous : Option Nat) : List UInt16 → List Nat
  | [] => []
  | delta :: rest =>
    nextOffset delta previous :: offsetsAfter (some (nextOffset delta previous)) rest

/-- The offset of a frame in 32 bits, given the offset of the frame before. -/
def nextWord (delta : UInt16) : Option UInt32 → UInt32
  | none => delta.toUInt32
  | some previous => previous + delta.toUInt32 + 1

/-- The offsets at which frames stand after an offset, added up in 32 bits. -/
def wordsAfter (previous : Option UInt32) : List UInt16 → List UInt32
  | [] => []
  | delta :: rest => nextWord delta previous :: wordsAfter (some (nextWord delta previous)) rest

section Sums

/-- A distance counts from the least offset at which the next frame can stand. -/
theorem nextOffset_eq (delta : UInt16) (previous : Option Nat) :
    nextOffset delta previous = nextOffset 0 previous + delta.toNat := by
  cases previous with
  | none => exact (Nat.zero_add _).symm
  | some previous => exact Nat.add_right_comm previous delta.toNat 1

/-- The least offset at which a frame can stand behind another one. -/
theorem nextOffset_zero_some (offset : Nat) : nextOffset 0 (some offset) = offset + 1 := rfl

/-- Each frame takes up at most 65536 offsets. -/
theorem bounds_of_mem_offsetsAfter {offset : Nat} (h : offset ∈ offsetsAfter previous deltas) :
    nextOffset 0 previous ≤ offset ∧
      offset < nextOffset 0 previous + 65536 * deltas.length := by
  induction deltas generalizing previous with
  | nil => cases h
  | cons delta rest ih =>
    have hdelta := delta.toNat_lt
    have hfirst := nextOffset_eq delta previous
    rw [List.length_cons]
    rcases List.mem_cons.1 h with rfl | h
    · omega
    · have := ih h
      rw [nextOffset_zero_some] at this
      omega

theorem ascending_offsetsAfter (previous : Option Nat) (deltas : List UInt16) :
    (offsetsAfter previous deltas).Pairwise (· < ·) := by
  induction deltas generalizing previous with
  | nil => exact .nil
  | cons delta rest ih =>
    refine List.pairwise_cons.2 ⟨fun offset h => ?_, ih _⟩
    exact (bounds_of_mem_offsetsAfter h).1

/-- An offset that fits into 32 bits is what these hold. -/
theorem nextWord_eq (h : nextOffset delta previous < 4294967296) :
    nextWord delta (previous.map UInt32.ofNat) = UInt32.ofNat (nextOffset delta previous) := by
  apply UInt32.toNat_inj.1
  rw [UInt32.toNat_ofNat_of_lt' h]
  cases previous with
  | none => exact UInt16.toNat_toUInt32 delta
  | some previous =>
    simp only [nextOffset] at h
    simp only [Option.map_some, nextWord, nextOffset, UInt32.toNat_add, UInt16.toNat_toUInt32,
      UInt32.toNat_ofNat', UInt32.reduceToNat]
    omega

/-- Adding up in 32 bits never wraps around while there is room for all frames. -/
theorem toNat_wordsAfter (h : nextOffset 0 previous + 65536 * deltas.length ≤ 4294967296) :
    (wordsAfter (previous.map UInt32.ofNat) deltas).map UInt32.toNat =
      offsetsAfter previous deltas := by
  induction deltas generalizing previous with
  | nil => rfl
  | cons delta rest ih =>
    rw [List.length_cons] at h
    have hdelta := delta.toNat_lt
    have hfirst := nextOffset_eq delta previous
    have hlt : nextOffset delta previous < 4294967296 := by omega
    have hroom : nextOffset 0 (some (nextOffset delta previous)) + 65536 * rest.length ≤
        4294967296 := by
      rw [nextOffset_zero_some]
      omega
    rw [wordsAfter, offsetsAfter, nextWord_eq hlt, List.map_cons, UInt32.toNat_ofNat_of_lt' hlt]
    exact congrArg _ (ih hroom)

end Sums

/-- Reading frames is reading entries; the frames stand at the offsets that the entries give. -/
theorem readFrames_ok {locals : List NamedType} {done frames : List PlacedFrame} {n : Nat}
    {c c' : Cursor} (before : List (StackMapEntry NamedType))
    (h : image.readFrames locals previous done n c = .ok frames c') :
    ∃ entries new, Scan.timesFrom image.readEntry before n c = .ok (before.reverse ++ entries) c' ∧
      entries.length = n ∧ frames = done.reverse ++ new ∧
      new.map (·.offset) = offsetsAfter previous (entries.map (·.delta)) := by
  induction n generalizing locals previous done c before with
  | zero =>
    obtain ⟨rfl, rfl⟩ := Step.pure_ok.1 h
    exact ⟨[], [], by rw [List.append_nil]; rfl, rfl, (List.append_nil _).symm, rfl⟩
  | succ n ih =>
    obtain ⟨entry, mid, hentry, h⟩ := Step.bind_ok.1 h
    cases hlayout : Layout.expand? locals entry with
    | none =>
      rw [hlayout] at h
      exact (Step.throw_ok.1 h).elim
    | some layout =>
      rw [hlayout] at h
      obtain ⟨entries, new, hread, rfl, rfl, hnew⟩ := ih (entry :: before) h
      rw [List.reverse_cons, List.append_assoc] at hread
      refine ⟨entry :: entries, ⟨nextOffset entry.delta previous, layout⟩ :: new,
        Step.bind_ok.2 ⟨entry, mid, hentry, hread⟩, rfl, ?_, ?_⟩
      · rw [List.reverse_cons, List.append_assoc]
        rfl
      · rw [List.map_cons, hnew]
        rfl

/-- Frames that stand at ascending offsets are all kept, each at its own. -/
theorem Named.keepsFrames {body : StoredBody} {tables : BodyTables} {named : NamedBody}
    (h : Named named body tables)
    (hascending : tables.stackMap.Pairwise (·.offset < ·.offset)) :
    named.frames.size = tables.stackMap.length ∧
    ∀ frame ∈ tables.stackMap, ∃ layout, named.frames[frame.offset]? = some layout ∧
      FrameNamed (fun p label => named.places.get? p = some label) frame frame.offset
        layout.locals layout.stack := by
  obtain ⟨pairs, hpairs, hnamed⟩ := h.framePairs
  have hoffsets : pairs.map Prod.fst = tables.stackMap.map (·.offset) := by
    refine List.forall₂_eq_eq_eq ▸ ?_
    exact List.forall₂_map_left_iff.2 (List.forall₂_map_right_iff.2
      (hnamed.flip.imp fun _ _ hplace => hplace.1.symm))
  have hdistinct : pairs.Pairwise fun a b => (a.1 == b.1) = false := by
    rw [← List.pairwise_map (f := PlacedFrame.offset), ← hoffsets, List.pairwise_map] at hascending
    exact hascending.imp fun hlt => beq_eq_false_iff_ne.2 (Nat.ne_of_lt hlt)
  rw [hpairs]
  refine ⟨(Std.HashMap.size_ofList hdistinct).trans hnamed.length_eq.symm, fun frame hframe => ?_⟩
  obtain ⟨⟨offset, layout⟩, hpair, hplace⟩ := exists_of_forall₂ hnamed.flip hframe
  obtain rfl := hplace.1
  exact ⟨layout, Std.HashMap.getElem?_ofList_of_mem (beq_self_eq_true _) hdistinct hpair, hplace⟩

/-- **Frames do not collide.** The frames of a stack map stand where the 32-bit sums of the
distances in its entries say. These sums never wrap around: they are the sums of the distances as
numbers. So the frames stand at ascending offsets, and a body that is read keeps all of them, each
with its own types at its own offset. -/
theorem frame_offsets_apart {locals : List NamedType} {frames : List PlacedFrame} {c c' : Cursor}
    (h : image.readStackMap locals c = .ok frames c') :
    (∃ entries, Scan.counted image.readEntry c = .ok entries c' ∧
      frames.map (·.offset) = (wordsAfter none (entries.map (·.delta))).map UInt32.toNat ∧
      frames.map (·.offset) = offsetsAfter none (entries.map (·.delta))) ∧
    (∀ frame ∈ frames, frame.offset < 2 ^ 32) ∧
    frames.Pairwise (·.offset < ·.offset) ∧
    ∀ body tables named s, tables.stackMap = frames →
      image.nameBody body tables .empty = .ok named s →
      named.frames.size = frames.length ∧
      ∀ frame ∈ frames, ∃ layout, named.frames[frame.offset]? = some layout ∧
        FrameNamed (fun p label => named.places.get? p = some label) frame frame.offset
          layout.locals layout.stack := by
  obtain ⟨n, mid, hn, h⟩ := Step.bind_ok.1 h
  obtain ⟨entries, new, hread, hlength, rfl, hnew⟩ := readFrames_ok [] h
  have hroom : nextOffset 0 none + 65536 * (entries.map (·.delta)).length ≤ 4294967296 := by
    have hcount := n.toNat_lt
    have hzero : nextOffset 0 none = 0 := rfl
    rw [List.length_map, hlength, hzero]
    omega
  have hwords := toNat_wordsAfter hroom
  have hascending : frames.Pairwise (·.offset < ·.offset) := by
    rw [← List.pairwise_map (f := PlacedFrame.offset), hnew]
    exact ascending_offsetsAfter _ _
  refine ⟨⟨entries, Step.bind_ok.2 ⟨n, mid, hn, hread⟩, hnew.trans hwords.symm, hnew⟩,
    fun frame hframe => ?_, hascending, ?_⟩
  · have hmem : frame.offset ∈ offsetsAfter none (entries.map (·.delta)) :=
      hnew ▸ List.mem_map_of_mem hframe
    exact (bounds_of_mem_offsetsAfter hmem).2.trans_le hroom
  · rintro body tables named s rfl hnamed
    exact (named_of_nameBody hnamed).keepsFrames hascending

/-- A body of three instructions without operands. -/
def threeNops : StoredBody where
  maxStack := 0
  maxLocals := 0
  size := 3
  instructions := #[(0, .plain Opcode.nop), (1, .plain Opcode.nop), (2, .plain Opcode.return_void)]
  exceptionTable := []
  attributes := []

/-- Tables with a frame at the first instruction and one at the last. -/
def twoFrames : BodyTables where
  lines := #[]
  vars := #[]
  stackMap := [⟨0, ⟨[.int], []⟩⟩, ⟨2, ⟨[.int], [.int]⟩⟩]
  attributes := #[]

theorem nameBody_twoFrames :
    ∃ named s, (default : ClassImage).nameBody threeNops twoFrames .empty = .ok named s := by
  have hstarts (p : Nat) (hp : p = 0 ∨ p = 2) :
      (Instruction.startsAt threeNops.instructions p || p == threeNops.size) = true := by
    rcases hp with rfl | rfl <;> decide +kernel
  obtain ⟨_, first, hfirst⟩ := namePlace_total (hstarts 0 (Or.inl rfl)) .empty
  obtain ⟨_, last, hlast⟩ := namePlace_total (hstarts 2 (Or.inr rfl)) first
  have hbelow : nameFrame threeNops ⟨0, ⟨[.int], []⟩⟩ .empty = .ok (0, ⟨[.int], []⟩) first :=
    Step.bind_ok.2 ⟨_, _, hfirst, rfl⟩
  have habove : nameFrame threeNops ⟨2, ⟨[.int], [.int]⟩⟩ first =
      .ok (2, ⟨[.int], [.int]⟩) last := Step.bind_ok.2 ⟨_, _, hlast, rfl⟩
  have hframes : twoFrames.stackMap.mapM (nameFrame threeNops) .empty =
      .ok [(0, ⟨[.int], []⟩), (2, ⟨[.int], [.int]⟩)] last := by
    simp only [twoFrames, List.mapM_cons]
    refine Step.bind_ok.2 ⟨_, _, hbelow, Step.bind_ok.2 ⟨_, _, ?_, rfl⟩⟩
    exact Step.bind_ok.2 ⟨_, _, habove, rfl⟩
  -- The instructions, handlers, lines and variables have no places.
  exact ⟨_, last, Step.bind_ok.2 ⟨_, _, rfl, Step.bind_ok.2 ⟨_, _, rfl,
    Step.bind_ok.2 ⟨_, _, rfl, Step.bind_ok.2 ⟨_, _, rfl, Step.bind_ok.2 ⟨_, _, hframes, rfl⟩⟩⟩⟩⟩⟩

/-- Two entries at distances 0 and 1: their frames stand at 0 and 2, and both are kept. -/
theorem frame_offsets_apart_twoFrames :
    ∃ frames c' named s,
      (default : ClassImage).readStackMap [.int] ⟨#[0, 2, 0, 65, 1], 0⟩ = .ok frames c' ∧
      twoFrames.stackMap = frames ∧
      (default : ClassImage).nameBody threeNops twoFrames .empty = .ok named s ∧
      frames.map (·.offset) = [0, 2] ∧ frames.Pairwise (·.offset < ·.offset) ∧
      named.frames.size = 2 := by
  have hread : (default : ClassImage).readStackMap [.int] ⟨#[0, 2, 0, 65, 1], 0⟩ =
      .ok twoFrames.stackMap ⟨#[0, 2, 0, 65, 1], 5⟩ := rfl
  obtain ⟨named, s, hnamed⟩ := nameBody_twoFrames
  obtain ⟨-, -, hascending, hkept⟩ := frame_offsets_apart hread
  exact ⟨_, _, named, s, hread, rfl, hnamed, rfl, hascending, (hkept _ _ _ _ rfl hnamed).1⟩

end ClassImage

end JvmClass
