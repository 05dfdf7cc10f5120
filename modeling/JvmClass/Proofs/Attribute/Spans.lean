import JvmClass.Image.Basic
import JvmClass.Proofs.Attribute.Encoding

/-!
# Attributes found again

Reading a list of attributes finds each of them: a span with the name of the attribute, at which the
bytes of its body stand.
-/

namespace JvmClass

open Scan (Finds Reads)

/-- In the image, the index of the attribute's name is that name. -/
def Attribute.Named (a : Attribute) (image : ClassImage) : Prop := image.utf8 a.1 = .ok a.2.name

/-- The span has the name of the attribute and is where its body stands. -/
structure AttributeSpan.Holds (span : AttributeSpan) (data : Bytes) (a : Attribute) : Prop where
  name : span.name = a.2.name
  size : span.size = a.2.encode.length
  body : Spells data span.offset a.2.encode

theorem Attribute.toNat_byteSize {a : Attribute} (h : a.2.byteSize < 4294967296) :
    (UInt32.ofNat a.2.byteSize).toNat = a.2.encode.length := by
  rw [AttributeBody.length_encode, UInt32.toNat_ofNat_of_lt' h]

theorem Scan.reads_skipAttribute {a : Attribute} (h : a.2.byteSize < 4294967296) :
    Reads skipAttribute a.encode () := by
  refine (Scan.reads_skip (bytes16 a.1)).bind ((Scan.reads_u32 _).bind ?_)
  rw [Attribute.toNat_byteSize h]
  exact Scan.reads_skip _

theorem Scan.reads_skipAttributes {attributes : List Attribute}
    (hcount : attributes.length < 65536) (hfit : AttributeBody.AllFit attributes) :
    Reads skipAttributes (Attribute.listBytes attributes) () := by
  refine (Scan.reads_u16 _).bind ?_
  rw [UInt16.toNat_ofNat_of_lt' hcount]
  have hall : ∀ chunk ∈ attributes.map Attribute.encode, Reads skipAttribute chunk () := by
    intro chunk hchunk
    obtain ⟨a, ha, rfl⟩ := List.mem_map.1 hchunk
    exact Scan.reads_skipAttribute (hfit.of_mem ha).1
  have h := Scan.reads_repeated hall
  rwa [List.length_map] at h

namespace ClassImage

variable {image : ClassImage} {span : AttributeSpan} {a : Attribute}

theorem finds_readAttribute (hn : a.Named image) (hsize : a.2.byteSize < 4294967296) :
    Finds image.data image.readAttribute a.encode fun span => span.Holds image.data a := by
  intro start hs
  have hname := Scan.reads_u16 a.1 start image.data hs.left
  have hlength := Scan.reads_u32 _ _ image.data hs.right.left
  have hbody := hs.right.right
  have hskip := Scan.reads_skip _ _ image.data hbody
  rw [← Attribute.toNat_byteSize hsize] at hskip
  refine ⟨⟨a.2.name, _, (UInt32.ofNat a.2.byteSize).toNat⟩, ?_, ⟨rfl, ?_, hbody⟩⟩
  · refine Step.bind_ok.2 ⟨_, _, hname, Step.bind_ok.2 ⟨_, _, Step.of_ok.2 ⟨hn, rfl⟩, ?_⟩⟩
    refine Step.bind_ok.2 ⟨_, _, hlength, Step.bind_ok.2 ⟨_, _, Step.get_ok.2 ⟨rfl, rfl⟩, ?_⟩⟩
    refine Step.bind_ok.2 ⟨_, _, hskip, Step.pure_ok.2 ⟨rfl, ?_⟩⟩
    simp only [Attribute.encode, List.length_append, Attribute.toNat_byteSize hsize,
      Nat.add_assoc]
  · exact Attribute.toNat_byteSize hsize

/-- The spans hold the attributes, one after another. -/
def Holding (image : ClassImage) (attributes : List Attribute) (spans : List AttributeSpan) :
    Prop := List.Forall₂ (fun a span => span.Holds image.data a) attributes spans

theorem finds_readAttributes {attributes : List Attribute} (hcount : attributes.length < 65536)
    (hfit : AttributeBody.AllFit attributes) (hnamed : ∀ a ∈ attributes, a.Named image) :
    Finds image.data image.readAttributes (Attribute.listBytes attributes)
      (image.Holding attributes) :=
  Scan.finds_counted hcount fun a ha => finds_readAttribute (hnamed a ha) (hfit.of_mem ha).1

theorem readBody_of_holds {α : Type} {read : Scan α} {v : α} (h : span.Holds image.data a)
    (hr : Reads read a.2.encode v) : image.readBody span read = .ok v := hr.runAt h.body

/-- An attribute that is not interpreted is found as it was. -/
theorem raw_of_holds {raw : RawAttribute} (h : span.Holds image.data a)
    (ha : a.2 = .raw raw.name raw.data) : image.raw span = raw := by
  obtain ⟨name, data⟩ := raw
  have hbody := h.body.extract
  rw [← h.size] at hbody
  unfold ClassImage.raw
  rw [hbody, h.name, ha]
  simp only [AttributeBody.name, AttributeBody.encode, Array.toArray_toList]

end ClassImage

end JvmClass
