import JvmClass.Proofs.Attribute.Making
import JvmClass.Proofs.Constant.Section
import JvmClass.Proofs.Image.Parsing

/-!
# Annotations in class files

Annotations are stored as indices into a pool that goes on growing, and they are read from a class
file that has the section of that pool. Reading looks up constants only, so that any class file with
the section reads them back, whatever else it holds (`ClassImage.annotations_read_back`).
-/

namespace JvmClass

open Scan (Reads)

namespace ClassImage

variable {image : ClassImage} {data : Bytes}

section Bootstraps

variable (image : ClassImage) (methods : Array BootstrapMethod)

/-- No bootstrap method is looked up for the value of an element. -/
theorem readValueWithin_bootstraps (depth : Nat) :
    { image with bootstraps := methods }.readValueWithin depth = image.readValueWithin depth := by
  induction depth with
  | zero => rfl
  | succ depth ih =>
    simp only [readValueWithin, ih]
    rfl

theorem readAnnotations_bootstraps :
    { image with bootstraps := methods }.readAnnotations = image.readAnnotations := by
  unfold readAnnotations readAnnotationEntry
  simp only [readValueWithin_bootstraps]
  rfl

end Bootstraps

/-- A class file with the section of a pool has read that pool, up to bootstrap methods. -/
theorem holds_of_section {p : ConstantPool} (hp : ConstantPool.empty.Extended p)
    (hparse : parse data = .ok image) (hs : Spells data 8 p.stored) :
    { image with bootstraps := p.bootstraps }.Holds p := by
  obtain ⟨v, hv, -⟩ := hp.backed_items
  obtain ⟨c, hread⟩ := readPool_of_parse hparse
  rw [hv.reads_stored 8 data hs] at hread
  cases hread
  exact holds_of_backed hv (hp.size_bootstraps_le (Nat.zero_le _)) rfl

/-- Whatever a pool was asked for, some class file has its section. -/
theorem exists_section {p : ConstantPool} (hp : ConstantPool.empty.Extended p) :
    ∃ data image, parse data = .ok image ∧ Spells data 8 p.stored := by
  obtain ⟨v, hv, -⟩ := hp.backed_items
  obtain ⟨image, hparse, -⟩ := parse_bareClass p.nextIndex hv.run hv.next
  exact ⟨_, image, hparse, (Spells.of_toList rfl).right.right.right.left⟩

/-- The annotations of a visibility, stored against a pool that had been asked for anything before.
Every class file with the section of that pool, or of the pool as it is after any later requests,
reads the same annotations from the stored bytes, wherever these stand, and stops where they
stop. -/
theorem annotations_read_back (all : List Annotated) (visible : Bool)
    (requests later : List PoolRequest) {body : Option AttributeBody} {p : ConstantPool}
    (hstored : Attribute.annotations all visible (ConstantPool.empty.afterAll requests) =
      .ok body p)
    (hparse : parse data = .ok image) (hsection : Spells data 8 (p.afterAll later).stored) :
    match body with
    | none => Attribute.chosen all visible = []
    | some body => ∃ bytes, (∀ out, body.put out = .ok () (out.putAll bytes)) ∧
        ∀ file start, Spells file start bytes → image.readAnnotations ⟨file, start⟩ =
          .ok (Attribute.chosen all visible) ⟨file, start + bytes.length⟩ := by
  have hgives := Attribute.gives_annotations all visible
  have hbefore := ConstantPool.extended_afterAll ConstantPool.empty requests
  have hafter := ConstantPool.extended_afterAll p later
  have hholds := holds_of_section ((hbefore.trans (hgives.stable _ _ _ hstored).1).trans hafter)
    hparse hsection
  have hread := hgives.answer hstored (hholds.of_grows hafter.grows)
  cases body with
  | none => exact hread
  | some body =>
    obtain ⟨⟨count, encoded, rfl⟩, hreads⟩ := hread
    rw [readAnnotations_bootstraps] at hreads
    refine ⟨_, fun out => ?_, fun file start hs => hreads start file hs⟩
    exact (AttributeBody.writes_put _ _ _ _).2 ⟨trivial, rfl⟩

/-- An annotation with an array and an annotation in it, whose numbers share a constant. -/
def nestedMarker : Annotation :=
  ⟨"A", [("a", .array [.byte (-1), .short (-1), .char 65535]),
    ("b", .nested "A" [("a", .array [.float 0x7fc00001, .boolean true])])]⟩

theorem nestedMarker_stored : ∃ encoded p,
    Attribute.annotations [(nestedMarker, true), (⟨"b", []⟩, false)] true
      (ConstantPool.empty.afterAll [.loadable (.int 1)]) =
      .ok (some (.annotations true 1 encoded)) p := by
  have hsize (text : String) (h : text ∈ ["A", "a", "b"]) :
      Text.ModifiedUtf8.encodedSize text < 65536 := by
    revert h text
    decide
  simp [nestedMarker, Attribute.annotations, storeAnnotations, Annotation.store, storeElements,
    storeValues, ElementValue.store, Store.index, Store.count, Store.u8, count16, Step.of, Step.on,
    ConstantPool.afterAll, ConstantPool.after, PoolRequest.ask, ConstantPool.loadable,
    ConstantPool.int, ConstantPool.float, ConstantPool.utf8, hsize, ConstantPool.intern,
    ConstantPool.empty, ConstantPool.indexAfter, Constant.width, bind, EStateM.bind, pure,
    EStateM.pure, Step.modify_run, ChainTable.getElem?_insert]

theorem annotations_read_back_nestedMarker : ∃ encoded p data image,
    Attribute.annotations [(nestedMarker, true), (⟨"b", []⟩, false)] true
      (ConstantPool.empty.afterAll [.loadable (.int 1)]) =
      .ok (some (.annotations true 1 encoded)) p ∧
    parse data = .ok image ∧ Spells data 8 (p.afterAll [.utf8 "c"]).stored ∧
    ∃ bytes, (∀ out, AttributeBody.put (.annotations true 1 encoded) out =
        .ok () (out.putAll bytes)) ∧
      ∀ file start, Spells file start bytes → image.readAnnotations ⟨file, start⟩ =
        .ok [nestedMarker] ⟨file, start + bytes.length⟩ := by
  obtain ⟨encoded, p, hstored⟩ := nestedMarker_stored
  have hbefore := ConstantPool.extended_afterAll ConstantPool.empty [.loadable (.int 1)]
  have hgives := Attribute.gives_annotations [(nestedMarker, true), (⟨"b", []⟩, false)] true
  have hafter := ConstantPool.extended_afterAll p [.utf8 "c"]
  obtain ⟨data, image, hparse, hsection⟩ :=
    exists_section ((hbefore.trans (hgives.stable _ _ _ hstored).1).trans hafter)
  exact ⟨encoded, p, data, image, hstored, hparse, hsection,
    annotations_read_back _ true [.loadable (.int 1)] [.utf8 "c"] hstored hparse hsection⟩

end ClassImage

end JvmClass
