import JvmClass.Image.Basic
import JvmClass.Proofs.Constant.Encoding

/-!
# Class files that parse

Parsing a class file goes from its start to the table of its attributes, and then reads the
bootstrap methods out of the first attribute with their name. The pool is a run of entries behind
its count.
-/

namespace JvmClass

namespace ClassImage

variable {data : Bytes} {image : ClassImage}

theorem parse_ok (h : parse data = .ok image) : ∃ parts attributes,
    Scan.runAt data 0 readParts = .ok parts ∧
      Scan.runAt data parts.attributesStart parts.readAttributes = .ok attributes ∧
      ((attributes.find? (·.name == "BootstrapMethods") = none ∧ image = parts) ∨
        ∃ span methods, attributes.find? (·.name == "BootstrapMethods") = some span ∧
          parts.readBody span (Scan.counted readBootstrapMethod) = .ok methods ∧
          image = { parts with bootstraps := methods.toArray }) := by
  obtain ⟨parts, hparts, h⟩ := Step.except_bind_ok.1 h
  obtain ⟨attributes, hattributes, h⟩ := Step.except_bind_ok.1 h
  refine ⟨parts, attributes, hparts, hattributes, ?_⟩
  split at h
  · rename_i hnone
    cases h
    exact Or.inl ⟨hnone, rfl⟩
  · rename_i span hspan
    obtain ⟨methods, hmethods, h⟩ := Step.except_bind_ok.1 h
    cases h
    exact Or.inr ⟨span, methods, hspan, hmethods, rfl⟩

/-- The pool section is read behind the magic number and the version, and the header stands where
that read stops. -/
theorem readPool_of_parts {c : Cursor} (h : readParts ⟨data, 0⟩ = .ok image c) :
    image.data = data ∧ ∃ mid, Constant.readPool ⟨data, 8⟩ = .ok image.constants mid ∧
      image.headerStart = mid.offset := by
  unfold readParts at h
  obtain ⟨_, _, hget, h⟩ := Step.bind_ok.1 h
  obtain ⟨rfl, rfl⟩ := Step.get_ok.1 hget
  obtain ⟨found, _, hfound, h⟩ := Step.bind_ok.1 h
  obtain rfl := Scan.u32_ok hfound
  obtain ⟨-, h⟩ := Step.guard_ok.1 h
  obtain ⟨minor, _, hminor, h⟩ := Step.bind_ok.1 h
  obtain rfl := Scan.u16_ok hminor
  obtain ⟨major, _, hmajor, h⟩ := Step.bind_ok.1 h
  obtain rfl := Scan.u16_ok hmajor
  obtain ⟨-, h⟩ := Step.guard_ok.1 h
  obtain ⟨constants, mid, hpool, h⟩ := Step.bind_ok.1 h
  obtain ⟨_, _, hget, h⟩ := Step.bind_ok.1 h
  obtain ⟨rfl, rfl⟩ := Step.get_ok.1 hget
  obtain ⟨_, _, -, h⟩ := Step.bind_ok.1 h
  obtain ⟨interfaces, _, -, h⟩ := Step.bind_ok.1 h
  obtain ⟨_, _, -, h⟩ := Step.bind_ok.1 h
  obtain ⟨_, _, -, h⟩ := Step.bind_ok.1 h
  obtain ⟨_, _, -, h⟩ := Step.bind_ok.1 h
  obtain ⟨_, _, -, h⟩ := Step.bind_ok.1 h
  obtain ⟨_, _, -, h⟩ := Step.bind_ok.1 h
  obtain ⟨_, _, -, h⟩ := Step.bind_ok.1 h
  obtain ⟨rfl, -⟩ := Step.pure_ok.1 h
  exact ⟨rfl, mid, hpool, rfl⟩

/-- The pool stands behind the magic number, the version and the count, up to the header. -/
theorem pool_of_parts {c : Cursor} (h : readParts ⟨data, 0⟩ = .ok image c) :
    image.data = data ∧ ∃ bytes, Spells data 10 bytes ∧ image.headerStart = 10 + bytes.length ∧
      Constant.Run (.startingAt 1) bytes image.constants ∧ image.constants.nextOffset < 65536 := by
  obtain ⟨hdata, mid, hpool, hstart⟩ := readPool_of_parts h
  obtain ⟨bytes, rfl, hs, hrun, hlt⟩ := Constant.run_of_readPool hpool
  exact ⟨hdata, bytes, hs, hstart, hrun, hlt⟩

/-- The entries of a class file are what its pool section reads as. -/
theorem readPool_of_parse (h : parse data = .ok image) :
    ∃ c, Constant.readPool ⟨data, 8⟩ = .ok image.constants c := by
  obtain ⟨parts, attributes, hparts, -, himage⟩ := parse_ok h
  obtain ⟨c, hparts⟩ := Scan.runAt_ok.1 hparts
  obtain ⟨-, mid, hpool, -⟩ := readPool_of_parts hparts
  rcases himage with ⟨-, rfl⟩ | ⟨span, methods, -, -, rfl⟩
  · exact ⟨mid, hpool⟩
  · exact ⟨mid, hpool⟩

/-- The stored entries of the pool are what its entries were read from. -/
theorem run_rawPool (h : parse data = .ok image) :
    Constant.Run (.startingAt 1) image.rawPool.toList image.constants ∧
      image.constants.nextOffset < 65536 := by
  obtain ⟨parts, attributes, hparts, -, himage⟩ := parse_ok h
  obtain ⟨c, hparts⟩ := Scan.runAt_ok.1 hparts
  obtain ⟨hdata, bytes, hs, hstart, hrun, hlt⟩ := pool_of_parts hparts
  have hraw : parts.rawPool.toList = bytes := by
    rw [rawPool, hdata, hstart, hs.extract]
  rcases himage with ⟨-, rfl⟩ | ⟨span, methods, -, -, rfl⟩
  · exact ⟨hraw ▸ hrun, hlt⟩
  · exact ⟨hraw ▸ hrun, hlt⟩

/-- A class file with a pool and nothing else. -/
def bareClass (count : UInt16) (entries : List UInt8) : Bytes :=
  (bytes32 magic ++ (bytes16 0 ++ (bytes16 52 ++ ((bytes16 count ++ entries) ++
    List.replicate 14 0)))).toArray

theorem reads_skipMembers_none : Scan.Reads skipMembers (bytes16 0) () :=
  (Scan.reads_u16 0).bind (Scan.reads_pure ())

theorem reads_attributes_none (image : ClassImage) :
    Scan.Reads image.readAttributes (bytes16 0) [] :=
  (Scan.reads_u16 0).bind (Scan.reads_pure [])

/-- Every run of entries is the pool of some class file. -/
theorem parse_bareClass (count : UInt16) {entries : List UInt8} {v : SlotVec Constant}
    (hrun : Constant.Run (.startingAt 1) entries v) (hcount : count.toNat = v.nextOffset) :
    ∃ image, parse (bareClass count entries) = .ok image ∧ image.constants = v := by
  let data := bareClass count entries
  let stop := 8 + entries.length
  let parts : ClassImage := ⟨data, ⟨52, 0⟩, v, #[], stop + 2, stop + 10, stop + 12, stop + 14⟩
  have hs : Spells data 0 data.toList := Spells.of_toList rfl
  have hversion := hs.right
  have hpool := hversion.right.right
  have hheader : Spells data (stop + 2) (List.replicate 6 0 ++
    (bytes16 0 ++ (bytes16 0 ++ (bytes16 0 ++ bytes16 0)))) := hpool.right
  have hfields := hheader.right.right
  have hmethods := hfields.right
  have hparts : readParts ⟨data, 0⟩ = .ok parts ⟨data, stop + 14⟩ := by
    refine Step.bind_ok.2 ⟨_, _, Step.get_run _, ?_⟩
    refine Step.bind_ok.2 ⟨_, _, Scan.reads_u32 magic _ _ hs.left, ?_⟩
    refine Step.guard_ok.2 ⟨fun h => h rfl, ?_⟩
    refine Step.bind_ok.2 ⟨_, _, Scan.reads_u16 0 _ _ hversion.left, ?_⟩
    refine Step.bind_ok.2 ⟨_, _, Scan.reads_u16 52 _ _ hversion.right.left, ?_⟩
    refine Step.guard_ok.2 ⟨by decide, ?_⟩
    refine Step.bind_ok.2 ⟨_, _, Constant.reads_readPool hrun hcount _ _ hpool.left, ?_⟩
    refine Step.bind_ok.2 ⟨_, _, Step.get_run _, ?_⟩
    refine Step.bind_ok.2 ⟨_, _, Scan.reads_skip (List.replicate 6 0) _ _ hheader.left, ?_⟩
    refine Step.bind_ok.2 ⟨_, _, Scan.reads_u16 0 _ _ hheader.right.left, ?_⟩
    refine Step.bind_ok.2 ⟨_, _, Scan.reads_skip [] _ _ (hfields.left (a := [])), ?_⟩
    refine Step.bind_ok.2 ⟨_, _, Step.get_run _, ?_⟩
    refine Step.bind_ok.2 ⟨_, _, reads_skipMembers_none _ _ hfields.left, ?_⟩
    refine Step.bind_ok.2 ⟨_, _, Step.get_run _, ?_⟩
    refine Step.bind_ok.2 ⟨_, _, reads_skipMembers_none _ _ hmethods.left, ?_⟩
    refine Step.bind_ok.2 ⟨_, _, Step.get_run _, ?_⟩
    exact Step.pure_ok.2 ⟨rfl, rfl⟩
  refine ⟨parts, Step.except_bind_ok.2 ⟨parts, Scan.runAt_ok.2 ⟨_, hparts⟩, ?_⟩, rfl⟩
  have hnone := (reads_attributes_none parts).runAt hmethods.right
  exact Step.except_bind_ok.2 ⟨[], hnone, rfl⟩

end ClassImage

end JvmClass
