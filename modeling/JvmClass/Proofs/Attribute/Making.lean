import JvmClass.Annotation.Decode
import JvmClass.Proofs.Annotation
import JvmClass.Proofs.Attribute.Spans

/-!
# Making attributes

An attribute is made by asking the pool for its name. What the requests of this module give are
attributes whose names every image of the pool looks up again; annotations are stored on the way,
and read back as they were.
-/

namespace JvmClass

open ConstantPool (Gives Stable)
open Scan (Reads)

namespace Attribute

/-- The attributes have the given bodies and, in the image, their names. -/
structure Listed (attributes : List Attribute) (image : ClassImage) (bodies : List AttributeBody) :
    Prop where
  bodies : attributes.map Prod.snd = bodies
  named : ∀ a ∈ attributes, a.Named image

variable {image : ClassImage} {attributes attributes' : List Attribute}
  {bodies bodies' : List AttributeBody}

theorem Listed.nil : Listed [] image [] := ⟨rfl, fun _ h => nomatch h⟩

theorem Listed.append (h : Listed attributes image bodies) (h' : Listed attributes' image bodies') :
    Listed (attributes ++ attributes') image (bodies ++ bodies') := by
  refine ⟨by rw [List.map_append, h.bodies, h'.bodies], fun a ha => ?_⟩
  rcases List.mem_append.1 ha with ha | ha
  · exact h.named a ha
  · exact h'.named a ha

theorem gives_make (body : AttributeBody) :
    Gives (make body) fun image a => a.2 = body ∧ a.Named image := by
  refine (ConstantPool.gives_utf8 body.name).map.mono ?_
  rintro image _ ⟨i, hi, rfl⟩
  exact ⟨rfl, hi⟩

/-- The list of one attribute. -/
theorem gives_single (body : AttributeBody) :
    Gives (do return [← make body]) fun image attributes => Listed attributes image [body] := by
  refine (gives_make body).map.mono ?_
  rintro image _ ⟨a, ⟨hbody, hnamed⟩, rfl⟩
  refine ⟨by rw [List.map_singleton, hbody], fun a' ha => ?_⟩
  rwa [List.mem_singleton.1 ha]

theorem gives_makeIf (body : Option AttributeBody) :
    Gives (makeIf body) fun image attributes => Listed attributes image body.toList := by
  cases body with
  | none =>
    refine (ConstantPool.gives_pure []).mono ?_
    rintro image _ rfl
    exact .nil
  | some body => exact gives_single body

theorem gives_makeSignature (index : Option PoolIndex) :
    Gives (makeSignature index) fun image attributes =>
      Listed attributes image (index.map AttributeBody.signature).toList :=
  gives_makeIf _

theorem gives_makeRaw (raws : List RawAttribute) :
    Gives (makeRaw raws) fun image attributes =>
      Listed attributes image (raws.map fun a => .raw a.name a.data) := by
  refine (ConstantPool.gives_mapM (fun a : RawAttribute => gives_make (.raw a.name a.data))
    raws).mono ?_
  intro image attributes hall
  induction hall with
  | nil => exact .nil
  | @cons raw a raws attributes h _ ih =>
    have hfirst : Listed [a] image [.raw raw.name raw.data] := by
      refine ⟨by rw [List.map_singleton, h.1], fun a' ha => ?_⟩
      rw [List.mem_singleton.1 ha]
      exact h.2
    exact hfirst.append ih

/-- The body, if there is one, is read as the given annotations; without it there are none. -/
def AnnotationBody (image : ClassImage) (visible : Bool) (chosen : List Annotation) :
    Option AttributeBody → Prop
  | none => chosen = []
  | some body => (∃ count encoded, body = .annotations visible count encoded) ∧
      Reads image.readAnnotations body.encode chosen

/-- The annotations of a visibility, in order. -/
def chosen (all : List Annotated) (visible : Bool) : List Annotation :=
  (all.filter fun (_, v) => v == visible).map Prod.fst

theorem gives_annotations (all : List Annotated) (visible : Bool) :
    Gives (annotations all visible) fun image body =>
      AnnotationBody image visible (chosen all visible) body := by
  unfold annotations
  refine ((show Gives _ fun image (encoded : Bytes) => ∃ chunks, encoded.toList = chunks.flatten ∧
      List.Forall₂ (Reads image.readAnnotationEntry) chunks ((chosen all visible).take 65536)
    from ?_).bind fun encoded => show Gives _ fun image body =>
      (body = none ∧ (chosen all visible).take 65536 = []) ∨
        ∃ count, count16 "annotations" ((chosen all visible).take 65536).length = .ok count ∧
          body = some (.annotations visible count encoded)
    from ConstantPool.gives_ite ?_ ?_).mono ?_
  · refine (spells_storeAnnotations ((chosen all visible).take 65536)).gives fun p encoded p' => ?_
    unfold chosen
    split
    · rename_i u s hs
      rw [hs]
      obtain ⟨pool, out⟩ := s
      simp [and_comm]
    · rename_i e s hs
      rw [hs]
      simp
  · intro hnone
    refine (ConstantPool.gives_pure _).mono ?_
    rintro image _ rfl
    exact Or.inl ⟨rfl, List.eq_nil_of_length_eq_zero hnone⟩
  · intro _
    refine (ConstantPool.gives_of _).map.mono ?_
    rintro image _ ⟨count, hcount, rfl⟩
    exact Or.inr ⟨count, hcount, rfl⟩
  · rintro image _ ⟨encoded, ⟨chunks, hencoded, hall⟩, ⟨rfl, hnil⟩ | ⟨count, hcount, rfl⟩⟩
    · show chosen all visible = []
      cases hc : chosen all visible with
      | nil => rfl
      | cons a rest =>
        rw [hc] at hnil
        cases hnil
    · unfold count16 at hcount
      split at hcount
      · rename_i hlt
        cases hcount
        -- fewer than the greatest number were kept, so that all were
        have hkept : (chosen all visible).take 65536 = chosen all visible := by
          rw [List.length_take] at hlt
          exact List.take_of_length_le (by omega)
        rw [hkept] at hall hlt ⊢
        refine ⟨⟨_, _, rfl⟩, ?_⟩
        simp only [AttributeBody.encode, hencoded]
        exact Scan.reads_counted hall hlt
      · cases hcount

/-- The attributes that hold annotations, the visible ones first. -/
theorem gives_makeAnnotations (all : List Annotated) :
    Gives (makeAnnotations all) fun image attributes => ∃ visible invisible,
      AnnotationBody image true (chosen all true) visible ∧
      AnnotationBody image false (chosen all false) invisible ∧
      Listed attributes image (visible.toList ++ invisible.toList) := by
  refine ((gives_annotations all true).bind fun visible => (gives_makeIf visible).bind fun _ =>
    (gives_annotations all false).bind fun invisible => (gives_makeIf invisible).map).mono ?_
  rintro image _ ⟨visible, hv, _, hlv, invisible, hi, _, hli, rfl⟩
  exact ⟨visible, invisible, hv, hi, hlv.append hli⟩

end Attribute

end JvmClass
