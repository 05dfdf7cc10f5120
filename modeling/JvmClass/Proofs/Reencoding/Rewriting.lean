import JvmClass.Proofs.Reencoding.ClassAgain
import Mathlib

/-!
# Class files that are rewritten

A class file that is read and written with nothing left out and nothing computed is rewritten.
Whatever is not canonical about it, such as constants that nothing uses or that are there twice,
long forms of instructions, tables that are out of order or split, and inner classes with two
entries, is gone after once: what has been rewritten is rewritten to itself (`rewrite_idempotent`),
with a fresh pool as well as with a copy.
-/

namespace JvmClass

open ConstantPool (Mirrors)

namespace ClassImage

variable {data : Bytes} {image : ClassImage}

theorem isSupported_of_parts {c c' : Cursor} (h : readParts c = .ok image c') :
    image.version.isSupported = true := by
  obtain ⟨_, _, -, h⟩ := Step.bind_ok.1 h
  obtain ⟨found, _, -, h⟩ := Step.bind_ok.1 h
  obtain ⟨-, h⟩ := Step.guard_ok.1 h
  obtain ⟨minor, _, -, h⟩ := Step.bind_ok.1 h
  obtain ⟨major, _, -, h⟩ := Step.bind_ok.1 h
  obtain ⟨hversion, h⟩ := Step.guard_ok.1 h
  obtain ⟨_, _, -, h⟩ := Step.bind_ok.1 h
  obtain ⟨_, _, -, h⟩ := Step.bind_ok.1 h
  obtain ⟨_, _, -, h⟩ := Step.bind_ok.1 h
  obtain ⟨_, _, -, h⟩ := Step.bind_ok.1 h
  obtain ⟨_, _, -, h⟩ := Step.bind_ok.1 h
  obtain ⟨_, _, -, h⟩ := Step.bind_ok.1 h
  obtain ⟨_, _, -, h⟩ := Step.bind_ok.1 h
  obtain ⟨_, _, -, h⟩ := Step.bind_ok.1 h
  obtain ⟨_, _, -, h⟩ := Step.bind_ok.1 h
  obtain ⟨_, _, -, h⟩ := Step.bind_ok.1 h
  obtain ⟨rfl, -⟩ := Step.pure_ok.1 h
  simpa using hversion

/-- Class files of other versions are not read. -/
theorem isSupported_of_parse (h : parse data = .ok image) : image.version.isSupported = true := by
  obtain ⟨parts, attributes, hparts, -, himage⟩ := parse_ok h
  obtain ⟨c, hparts⟩ := Scan.runAt_ok.1 hparts
  have hsupported := isSupported_of_parts hparts
  rcases himage with ⟨-, rfl⟩ | ⟨span, methods, -, -, rfl⟩
  · exact hsupported
  · exact hsupported

end ClassImage

namespace ClassBuilder

/-- The builder that rewrites a class file. -/
def starting (image : ClassImage) (compute : Compute) (fresh : Bool) (hierarchy : Hierarchy) :
    Except ClassError ClassBuilder :=
  if fresh then pure (ClassBuilder.fresh compute hierarchy)
  else copying image compute hierarchy

variable {image : ClassImage} {compute : Compute} {fresh : Bool} {hierarchy : Hierarchy}
  {b : ClassBuilder}

theorem starting_ok {data : Bytes} (hparse : ClassImage.parse data = .ok image)
    (h : starting image compute fresh hierarchy = .ok b) : b.IsNew ∧ b.compute = compute := by
  cases fresh with
  | true =>
    cases h
    exact ⟨⟨compute, hierarchy, Or.inl rfl⟩, rfl⟩
  | false =>
    refine ⟨⟨compute, hierarchy, Or.inr ⟨data, image, hparse, h⟩⟩, ?_⟩
    obtain ⟨pool, -, h⟩ := Step.except_bind_ok.1 h
    cases h
    rfl

/-- What starts from a class file whose pool has grown out of that of the builder is a twin. -/
theorem starting_again {image' : ClassImage} {final : ConstantPool}
    (h : starting image compute fresh hierarchy = .ok b) (hcopy : image'.copyPool = .ok final)
    (hgrown : b.pool.Grows final) :
    ∃ c, starting image' compute fresh hierarchy = .ok c ∧ b.Twin final c := by
  cases fresh with
  | true =>
    cases h
    exact ⟨_, rfl, rfl, Or.inl rfl⟩
  | false =>
    obtain ⟨pool, -, h⟩ := Step.except_bind_ok.1 h
    cases h
    exact ⟨_, Step.except_bind_ok.2 ⟨final, hcopy, rfl⟩, rfl, Or.inr ⟨rfl, hgrown⟩⟩

/-- A trace is taken up if it ends without a fault and all of its events are taken up. -/
theorem feedTrace_ok {trace : Trace ClassEvent} {b' : ClassBuilder} :
    feedTrace trace b = .ok () b' ↔ trace.fault = none ∧ feedAll trace.events b = .ok () b' := by
  refine Step.bind_ok.trans ?_
  cases trace.fault with
  | none =>
    constructor
    · rintro ⟨_, _, hfed, hend⟩
      obtain ⟨-, rfl⟩ := Step.pure_ok.1 hend
      exact ⟨rfl, hfed⟩
    · rintro ⟨-, hfed⟩
      exact ⟨(), b', hfed, rfl⟩
  | some fault => simp [Step.throw_ok]

end ClassBuilder

variable {image : ClassImage} {skip : Skip} {compute : Compute} {fresh : Bool}
  {hierarchy : Hierarchy} {out : Bytes}

/-- Writing again is a start, and then the events and the bytes as one step. -/
theorem reencode_eq : reencode image skip compute fresh hierarchy =
    ClassBuilder.starting image compute fresh hierarchy >>= fun b =>
      match (ClassBuilder.feedTrace (image.events skip) >>= fun _ => ClassBuilder.toBytes) b with
      | .ok out _ => return out
      | .error e _ => throw e := by
  cases fresh <;> rfl

/-- A class is written again if it is told without a fault and all of it is taken up. -/
theorem reencode_ok : reencode image skip compute fresh hierarchy = .ok out ↔ ∃ b b' last,
    ClassBuilder.starting image compute fresh hierarchy = .ok b ∧
    (image.events skip).fault = none ∧
    ClassBuilder.feedAll (image.events skip).events b = .ok () b' ∧
    ClassBuilder.toBytes b' = .ok out last := by
  rw [reencode_eq]
  refine Step.except_bind_ok.trans (exists_congr fun b => ?_)
  constructor
  · rintro ⟨hstart, hrun⟩
    split at hrun
    · rename_i written last hbuild
      cases hrun
      obtain ⟨_, b', hfed, hwritten⟩ := Step.bind_ok.1 hbuild
      obtain ⟨hfault, hfed⟩ := ClassBuilder.feedTrace_ok.1 hfed
      exact ⟨b', last, hstart, hfault, hfed, hwritten⟩
    · cases hrun
  · rintro ⟨b', last, hstart, hfault, hfed, hwritten⟩
    refine ⟨hstart, ?_⟩
    have hbuild : (ClassBuilder.feedTrace (image.events skip) >>= fun _ =>
        ClassBuilder.toBytes) b = .ok out last :=
      Step.bind_ok.2 ⟨(), b', ClassBuilder.feedTrace_ok.2 ⟨hfault, hfed⟩, hwritten⟩
    rw [hbuild]
    rfl

/-- Reads a class file and writes it again. Nothing is left out and nothing is computed. -/
def rewrite (fresh : Bool) (hierarchy : Hierarchy) (data : Bytes) : Except ClassError Bytes := do
  reencode (← ClassImage.parse data) {} ⟨false, false⟩ fresh hierarchy

/-- **Rewriting is idempotent.** Whatever class file is rewritten, with a fresh pool or with a copy
of its own, the class file that results is rewritten in the same way, and to itself. -/
theorem rewrite_idempotent {data : Bytes} (h : rewrite fresh hierarchy data = .ok out) :
    rewrite fresh hierarchy out = .ok out := by
  obtain ⟨image, hparse, h⟩ := Step.except_bind_ok.1 h
  obtain ⟨b, b', last, hstart, hfault, hfed, hwritten⟩ := reencode_ok.1 h
  obtain ⟨hnew, hplainly⟩ := ClassBuilder.starting_ok hparse hstart
  obtain ⟨spans, attributes, content, hreads⟩ := ClassImage.readsAs_of_events hfault
  rw [hreads.events_eq] at hfed
  obtain ⟨image', content', hparse', hevents, hcopy, hagain⟩ :=
    ClassBuilder.content_again hnew hreads.proper
      (hreads.version ▸ ClassImage.isSupported_of_parse hparse) hplainly hfed hwritten
  have hgrown := ((ClassBuilder.recorded_feedAll hfed).1.trans
    (ClassBuilder.pool_toBytes hwritten).1).grows
  obtain ⟨c, hstart', htwin⟩ := ClassBuilder.starting_again hstart hcopy hgrown
  obtain ⟨c', hfed', hwritten'⟩ := hagain c htwin
  refine Step.except_bind_ok.2 ⟨image', hparse', reencode_ok.2 ⟨c, c', last, hstart', ?_⟩⟩
  rw [hevents]
  exact ⟨rfl, hfed', hwritten'⟩

section Crowded

open ClassBuilder

/-- A class file with constants that are there twice or not used, and two entries for one inner
class. -/
def crowdedClass : Bytes :=
  (bytes32 magic ++ [0, 0, 0, 52, 0, 7, 7, 0, 3, 1, 0, 1, 120, 1, 0, 1, 65, 7, 0, 3] ++
    [1, 0, 12, 73, 110, 110, 101, 114, 67, 108, 97, 115, 115, 101, 115, 7, 0, 3] ++
    [0, 33, 0, 4, 0, 0, 0, 0, 0, 0, 0, 0, 0, 1] ++
    [0, 5, 0, 0, 0, 18, 0, 2, 0, 1, 0, 0, 0, 0, 0, 0, 0, 4, 0, 0, 0, 2, 0, 0]).toArray

/-- The same class with what it needs. -/
def sparseClass : Bytes :=
  (bytes32 magic ++ [0, 0, 0, 52, 0, 4, 1, 0, 1, 65, 7, 0, 1] ++
    [1, 0, 12, 73, 110, 110, 101, 114, 67, 108, 97, 115, 115, 101, 115] ++
    [0, 33, 0, 2, 0, 0, 0, 0, 0, 0, 0, 0, 0, 1] ++
    [0, 3, 0, 0, 0, 10, 0, 1, 0, 2, 0, 0, 0, 0, 0, 0]).toArray

def crowdedEvents : List ClassEvent :=
  [.header ⟨⟨52, 0⟩, ⟨0x21⟩, "A", none, none, []⟩, .innerClass "A" none none ⟨0⟩,
    .innerClass "A" none (some "x") ⟨0⟩, .finish]

theorem crowdedClass_fed : ∃ b header own pool,
    feedAll crowdedEvents (ClassBuilder.fresh ⟨false, false⟩ Hierarchy.flat) = .ok () b ∧
      b.header = some header ∧ ownAttributes b header b.pool = .ok own pool ∧ pool.bootstraps =
      #[] ∧
      Fits { b with pool } header own ∧ encode { b with pool } header own = sparseClass.toList := by
  have hsize (text : String) (h : text ∈ ["A", "InnerClasses"]) :
      Text.ModifiedUtf8.encodedSize text < 65536 := by
    revert h text
    decide
  have hname : ClassName.parse "A" = .ok ⟨"A"⟩ := by rfl
  have hframes : Version.needsFrames ⟨52, 0⟩ = true := by decide
  simp [crowdedEvents, feedAll, feed, beginClass, addInnerClass, endClass, ClassBuilder.fresh,
    getHeader, hname, hframes, hsize, annotations_nil, ask, Step.on, Step.of, count16,
    ownAttributes,
    Attribute.makeIf, Attribute.makeSignature, Attribute.makeAnnotations, Attribute.makeRaw,
    Attribute.make, AttributeBody.name, ConstantPool.utf8, ConstantPool.cls, ConstantPool.clsOrZero,
    ConstantPool.classes, ConstantPool.utf8OrZero, ConstantPool.utf8?, ConstantPool.intern,
    ConstantPool.empty, ConstantPool.indexAfter, Constant.width, ChainTable.getElem?_insert, bind,
    EStateM.bind, pure, EStateM.pure, Step.get_run, Step.modify_run]
  refine ⟨⟨by simp, ⟨by simp, by simp⟩, ⟨by simp, by simp⟩, by simp, ?_⟩, by rfl⟩
  simp [AttributeBody.AllFit, AttributeBody.Fits, AttributeBody.byteSize]

theorem crowdedClass_told : ∃ image, ClassImage.parse crowdedClass = .ok image ∧
    image.events {} = ⟨crowdedEvents, none⟩ := by
  have htold : (do return (← ClassImage.parse crowdedClass).events {} :
      Except ClassError (Trace ClassEvent)) = .ok ⟨crowdedEvents, none⟩ := by cbv
  obtain ⟨image, hparse, htold⟩ := Step.except_bind_ok.1 htold
  exact ⟨image, hparse, Except.ok.inj htold⟩

theorem rewrite_idempotent_crowdedClass :
    rewrite true Hierarchy.flat crowdedClass = .ok sparseClass ∧
      rewrite true Hierarchy.flat sparseClass = .ok sparseClass := by
  obtain ⟨image, hparse, hevents⟩ := crowdedClass_told
  obtain ⟨b, header, own, pool, hfed, hheader, hown, hboots, hfits, hencode⟩ := crowdedClass_fed
  have hlast : Attribute.makeIf (bootstrapBody pool) pool = .ok [] pool := by
    unfold bootstrapBody
    rw [hboots]
    rfl
  rw [← List.append_nil own] at hfits hencode
  have hwritten := toBytes_of_fits hheader hown hlast hfits
  rw [hencode, Array.toArray_toList] at hwritten
  have hrewritten : rewrite true Hierarchy.flat crowdedClass = .ok sparseClass := by
    refine Step.except_bind_ok.2 ⟨image, hparse, reencode_ok.2 ⟨_, b, { b with pool }, rfl, ?_⟩⟩
    rw [hevents]
    exact ⟨rfl, hfed, hwritten⟩
  exact ⟨hrewritten, rewrite_idempotent hrewritten⟩

end Crowded

end JvmClass
