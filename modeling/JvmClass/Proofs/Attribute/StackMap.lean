import JvmClass.Proofs.Attribute.Making
import JvmClass.Proofs.Constant.Room

/-!
# Stack map attributes read back

Frames are stored in one attribute, each relative to the frame before it, and the reader keeps the
same frame before: from the bytes of the attribute it finds the frames again, wherever they stand.
-/

namespace JvmClass

open ConstantPool (Gives)
open Put (Writes)
open Scan (Reads)

/-- From an attribute with this content, frames are read if its entries can be written. -/
def StoresFrames (image : ClassImage) (locals : List NamedType)
    (frames : List (Nat × Layout NamedType)) (body : AttributeBody) : Prop :=
  body.Fits → Reads (image.readStackMap locals) body.encode (frames.map placedFrame)

/-- Attributes that store frames: none if there are none, and one otherwise. -/
def HoldsFrames (image : ClassImage) (locals : List NamedType)
    (frames : List (Nat × Layout NamedType)) (attributes : List Attribute) : Prop :=
  (frames = [] ∧ attributes = []) ∨
    ∃ body, body.name = "StackMapTable" ∧ Attribute.Listed attributes image [body] ∧
      StoresFrames image locals frames body

theorem gives_stackMapTable (entry : Layout NamedType) (frames : List (Nat × Layout NamedType)) :
    Gives (MethodBuilder.stackMapTable entry frames) fun image attributes =>
      HoldsFrames image entry.locals frames attributes := by
  refine ConstantPool.gives_ite (fun hempty => ?_) fun _ => ?_
  · refine (ConstantPool.gives_pure []).mono ?_
    rintro image _ rfl
    exact Or.inl ⟨List.isEmpty_iff.1 hempty, rfl⟩
  · refine ((gives_stackMapEntries entry none [] frames).bind fun entries =>
      (ConstantPool.gives_of (count16 "stack map frames" entries.length)).bind fun _ =>
        Attribute.gives_single (.stackMapTable entries)).mono ?_
    rintro image attributes ⟨entries, ⟨new, rfl, hlength, hreads⟩, _, -, hlisted⟩
    refine Or.inr ⟨_, rfl, hlisted, fun hfits => ?_⟩
    simp only [AttributeBody.Fits] at hfits
    simp only [AttributeBody.encode]
    refine (Scan.reads_u16 _).bind ?_
    rw [UInt16.toNat_ofNat_of_lt' hfits.1, hlength]
    exact hreads hfits.2 []

/-- Frames are stored at ascending offsets. -/
theorem ascending_stackMapEntries {previous : Layout NamedType} {previousOffset : Option Nat}
    {done entries : List (StackMapEntry PooledType)} {frames : List (Nat × Layout NamedType)}
    {pool pool' : ConstantPool}
    (h : MethodBuilder.stackMapEntries previous previousOffset done frames pool = .ok entries pool') :
    (previousOffset.toList ++ frames.map Prod.fst).IsChain (· < ·) := by
  induction frames generalizing previous previousOffset done pool with
  | nil => cases previousOffset <;> simp
  | cons frame rest ih =>
    obtain ⟨offset, layout⟩ := frame
    obtain ⟨delta, _, hdelta, h⟩ := Step.bind_ok.1 h
    obtain ⟨entry, _, -, h⟩ := Step.bind_ok.1 h
    have hrest := ih h
    cases previousOffset with
    | none => exact hrest
    | some previous =>
      obtain ⟨hdelta, -⟩ := Step.of_ok.1 hdelta
      unfold MethodBuilder.frameDelta at hdelta
      simp only at hdelta
      split at hdelta
      · rename_i hlt
        simp only [Bool.and_eq_true, decide_eq_true_eq] at hlt
        exact List.isChain_cons_cons.2 ⟨hlt.1, hrest⟩
      · cases hdelta

theorem ascending_stackMapTable {entry : Layout NamedType} {frames : List (Nat × Layout NamedType)}
    {pool pool' : ConstantPool} {attributes : List Attribute}
    (h : MethodBuilder.stackMapTable entry frames pool = .ok attributes pool') :
    (frames.map Prod.fst).Pairwise (· < ·) := by
  unfold MethodBuilder.stackMapTable at h
  split at h
  · rename_i hempty
    rw [List.isEmpty_iff.1 hempty]
    exact .nil
  · obtain ⟨entries, _, hentries, -⟩ := Step.bind_ok.1 h
    exact List.isChain_iff_pairwise.1 (ascending_stackMapEntries hentries)

theorem Attribute.put_ok {a : Attribute} {out out' : Bytes} :
    a.put out = .ok () out' ↔
      a.2.byteSize < 4294967296 ∧ a.2.Fits ∧ out' = out.putAll (Attribute.encode a) := by
  have hput := AttributeBody.writes_putAll [a] out ()
  simp only [AttributeBody.encodeAll_eq, List.flatMap_singleton, AttributeBody.AllFit,
    and_true] at hput
  have hsize : (Attribute.encode a).length = a.byteSize := by
    have := AttributeBody.length_encodeAll [a]
    rwa [AttributeBody.encodeAll_eq, List.flatMap_singleton] at this
  unfold Attribute.put putSized
  simp only
  split
  · rename_i e out₁ he
    constructor
    · nofun
    · rintro ⟨hlt, hfits, rfl⟩
      rw [(hput _).2 ⟨⟨hlt, hfits⟩, rfl⟩] at he
      cases he
  · rename_i u out₁ ho
    obtain ⟨⟨hlt, hfits⟩, rfl⟩ := (hput _).1 ho
    rw [Bytes.size_putAll, hsize, if_pos (by omega)]
    simp [hlt, hfits, eq_comm]

/-- Reading a stack map undoes storing it: the attribute that stores frames after the frame on
entry, if there are any, gives these frames to a reader that starts from the locals on entry, in
every image that holds the pool and has the bytes of the attribute somewhere. -/
theorem MethodBuilder.stackMapTable_reads_back {entry : Layout NamedType}
    {frames : List (Nat × Layout NamedType)} {pool pool' : ConstantPool}
    {attributes : List Attribute} {image : ClassImage}
    (h : stackMapTable entry frames pool = .ok attributes pool') (hi : image.Holds pool') :
    (frames = [] ∧ attributes = []) ∨
      ∃ a, attributes = [a] ∧ ∀ out out', a.put out = .ok () out' →
        ∃ bytes, out' = out.putAll bytes ∧ ∀ start, Spells image.data start bytes →
          ∃ span, image.readAttribute ⟨image.data, start⟩ =
              .ok span ⟨image.data, start + bytes.length⟩ ∧
            span.name = "StackMapTable" ∧
            image.readBody span (image.readStackMap entry.locals) =
              .ok (frames.map placedFrame) := by
  rcases (gives_stackMapTable entry frames).answer h hi with hnone | ⟨body, hname, hlisted, hreads⟩
  · exact Or.inl hnone
  obtain ⟨a, rfl, rfl⟩ := List.map_eq_singleton_iff.1 hlisted.bodies
  refine Or.inr ⟨a, rfl, fun out out' hput => ?_⟩
  obtain ⟨hsize, hfits, rfl⟩ := Attribute.put_ok.1 hput
  refine ⟨Attribute.encode a, rfl, fun start hs => ?_⟩
  obtain ⟨span, hspan, hholds⟩ :=
    ClassImage.finds_readAttribute (hlisted.named a List.mem_cons_self) hsize hs
  exact ⟨span, hspan, hholds.name.trans hname,
    ClassImage.readBody_of_holds hholds (hreads hfits)⟩

/-- Locals on entry, after which each form of entry occurs. -/
def variedEntry : Layout NamedType := ⟨[.int, .float, .long], []⟩

/-- Frames that keep the locals, drop two, keep the locals far away with a stack, add two, and are
stored in full. -/
def variedFrames : List (Nat × Layout NamedType) :=
  [(0, ⟨[.int, .float, .long], []⟩), (64, ⟨[.int], []⟩), (200, ⟨[.int], [.object "E"]⟩),
    (201, ⟨[.int, .double, .uninitialized 7], []⟩), (300, ⟨[.long], [.int, .null]⟩)]

/-- The entries that store these frames, given the index of the class. -/
def variedEntries (cls : PoolIndex) : List (StackMapEntry PooledType) :=
  [.same 0, .chop 63 2, .sameWithStack 135 (.object cls), .append 0 [.double, .uninitialized 7],
    .full 98 [.long] [.int, .null]]

theorem MethodBuilder.stackMapTable_varied : ∃ name cls pool,
    stackMapTable variedEntry variedFrames .empty =
      .ok [(name, .stackMapTable (variedEntries cls))] pool := by
  have hempty : ConstantPool.empty.nextIndex.toNat ≤ 1 := by decide
  obtain ⟨i1, p1, h1, r1⟩ := ConstantPool.intern_of_room (.utf8 "E") hempty (by omega)
  obtain ⟨i2, p2, h2, r2⟩ := ConstantPool.intern_of_room (.cls i1) r1 (by omega)
  obtain ⟨i3, p3, h3, -⟩ := ConstantPool.intern_of_room (.utf8 "StackMapTable") r2 (by omega)
  have hclass : Text.ModifiedUtf8.encodedSize "E" < 65536 := by decide
  have hname : Text.ModifiedUtf8.encodedSize "StackMapTable" < 65536 := by decide
  refine ⟨i3, i2, p3, ?_⟩
  simp [stackMapTable, variedFrames, variedEntry, variedEntries, stackMapEntries, frameDelta,
    Layout.entryAfter, Layout.fullEntry, StackMapEntry.resolve, resolveAll, NamedType.resolve,
    VerificationType.mapM, ConstantPool.cls, ConstantPool.utf8, hclass, hname, h1, h2, h3,
    Attribute.make, AttributeBody.name, count16, bind, EStateM.bind, pure, EStateM.pure, Step.of]

theorem MethodBuilder.stackMapTable_reads_back_varied :
    ∃ attributes pool, stackMapTable variedEntry variedFrames .empty = .ok attributes pool ∧
      ∃ image : ClassImage, image.Holds pool ∧ ∃ a, attributes = [a] ∧
        a.put #[] = .ok () image.data ∧
        ∃ span stop, image.readAttribute ⟨image.data, 0⟩ = .ok span stop ∧
          image.readBody span (image.readStackMap variedEntry.locals) =
            .ok (variedFrames.map placedFrame) := by
  obtain ⟨name, cls, pool, h⟩ := stackMapTable_varied
  have hput : Attribute.put (name, .stackMapTable (variedEntries cls)) #[] = .ok () _ :=
    Attribute.put_ok.2 ⟨show 29 < 4294967296 by decide,
      by simp [AttributeBody.Fits, variedEntries, StackMapEntry.Fits], rfl⟩
  have hstable := (gives_stackMapTable variedEntry variedFrames).stable
  obtain ⟨image, hdata, hi⟩ := ClassImage.exists_holds (hstable _ _ _ h).1
    (Bytes.putAll #[] (Attribute.encode (name, .stackMapTable (variedEntries cls))))
  refine ⟨_, _, h, image, hi, _, rfl, hdata ▸ hput, ?_⟩
  rcases MethodBuilder.stackMapTable_reads_back h hi with ⟨hnone, -⟩ | ⟨a, ha, hread⟩
  · cases hnone
  · cases ha
    obtain ⟨bytes, hbytes, hspan⟩ := hread _ _ hput
    obtain ⟨span, hfound, -, hframes⟩ := hspan 0 (.of_toList (by rw [hdata, hbytes]; simp))
    exact ⟨span, _, hfound, hframes⟩

end JvmClass
