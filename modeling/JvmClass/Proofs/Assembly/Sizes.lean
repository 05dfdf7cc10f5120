import JvmClass.Proofs.Assembly.ClassFile
import JvmClass.Proofs.Assembly.Storing

/-!
# Declared sizes

Every attribute is written in the size that it declares, and so is every attribute that the body of
a method carries, however deep (`AttributeBody.AllSized`). What is written of a class has the sizes
that were declared for its parts, and no request to the pool fails for a size; therefore no class
fails to be written because a size is wrong (`ClassBuilder.sizes_declared`).
-/

namespace JvmClass

open Put (Writes)

namespace AttributeBody

mutual

/-- The bytes of a body are as many as it declares, and the attributes that end the body of a method
are sized too. -/
def Sized : AttributeBody → List UInt8 → Prop
  | code maxStack maxLocals instructions exceptionTable attributes, bytes =>
    bytes.length = (code maxStack maxLocals instructions exceptionTable attributes).byteSize ∧
      ∃ front own, bytes = front ++ own ∧ AllSized attributes own
  | body, bytes => bytes.length = body.byteSize

/-- The bytes of attributes in order: of each the index of its name, a length field that holds the
declared size less the six bytes up to the field's end, and the bytes of its body. -/
def AllSized : List (PoolIndex × AttributeBody) → List UInt8 → Prop
  | [], bytes => bytes = []
  | (nameIndex, body) :: rest, bytes =>
    ∃ (field : UInt32) (own after : List UInt8),
      bytes = bytes16 nameIndex ++ (bytes32 field ++ (own ++ after)) ∧
        field.toNat = Attribute.byteSize (nameIndex, body) - 6 ∧ body.Sized own ∧
        AllSized rest after

end

mutual

theorem sized_encode : (body : AttributeBody) → body.Fits → body.Sized body.encode
  | code maxStack maxLocals instructions exceptionTable attributes, h => by
    simp only [Fits] at h
    refine ⟨length_encode _, bytes16 maxStack ++ (bytes16 maxLocals ++
      (bytes32 (UInt32.ofNat instructions.size) ++ (instructions.toList ++ (exceptionTable.toList ++
        bytes16 (UInt16.ofNat attributes.length))))), encodeAll attributes, ?_,
      allSized_encodeAll attributes h.2⟩
    simp only [encode, List.append_assoc]
  | signature _, _ | sourceFile _, _ | nestHost _, _ | constantValue _, _ | nestMembers _, _
  | enclosingMethod _ _, _ | exceptions _, _ | lineNumberTable _, _ | localVariableTable _, _
  | innerClasses _, _ | bootstrapMethods _, _ | stackMapTable _, _ | annotations _ _ _, _
  | raw _ _, _ => length_encode _

theorem allSized_encodeAll : (attributes : List (PoolIndex × AttributeBody)) →
    AllFit attributes → AllSized attributes (encodeAll attributes)
  | [], _ => rfl
  | (nameIndex, body) :: rest, h => by
    simp only [AllFit] at h
    obtain ⟨hlt, hfits, hrest⟩ := h
    refine ⟨UInt32.ofNat body.byteSize, body.encode, encodeAll rest, rfl, ?_,
      sized_encode body hfits, allSized_encodeAll rest hrest⟩
    rw [UInt32.toNat_ofNat_of_lt' hlt, Attribute.byteSize, totalSize, totalSize]
    omega

end

end AttributeBody

/-- A structure that has the size that was declared is written, or its lists do not fit. -/
theorem putSized_cases {what : String} {put : Put Unit} {fits : Prop} {bytes : List UInt8}
    (h : Writes put fits bytes) (out : Bytes) :
    (∃ fault out', putSized what bytes.length put out = .error (.store fault) out') ∨
      fits ∧ putSized what bytes.length put out = .ok () (out.putAll bytes) := by
  cases hput : put out with
  | error fault out' =>
    refine Or.inl ⟨fault, out', ?_⟩
    unfold putSized
    simp only [hput]
  | ok u out' =>
    obtain ⟨hfits, -⟩ := (h out u out').1 hput
    exact Or.inr ⟨hfits, putSized_of_fits h hfits out⟩

/-- An attribute is written in the size that it declares, or its lists do not fit. -/
theorem Attribute.put_cases (a : Attribute) (out : Bytes) :
    (∃ fault out', a.put out = .error (.store fault) out') ∨
      ∃ bytes, a.put out = .ok () (out.putAll bytes) ∧ bytes.length = a.byteSize ∧
        AttributeBody.AllSized [a] bytes := by
  have hlength := AttributeBody.length_encodeAll [a]
  unfold put
  rw [byteSize, ← hlength]
  refine (putSized_cases (AttributeBody.writes_putAll [a]) out).imp id ?_
  rintro ⟨hfits, hput⟩
  exact ⟨_, hput, rfl, AttributeBody.allSized_encodeAll [a] hfits⟩

namespace Step

/-- The step does not fail because a structure has another size than it declared. -/
def KeepsSizes {σ α : Type} (m : Step σ α) : Prop :=
  ∀ s what declared written s', m s ≠ .error (.sizeMismatch what declared written) s'

section Combinators

variable {σ τ α β : Type} {m : Step σ α} {k : α → Step σ β} {step : Step τ α}

theorem keepsSizes_pure (a : α) : KeepsSizes (pure a : Step σ α) := by
  intro s what declared written s' h
  cases h

theorem keepsSizes_get : KeepsSizes (get : Step σ σ) := by
  intro s what declared written s' h
  cases h

theorem keepsSizes_modify (f : σ → σ) : KeepsSizes (modify f : Step σ PUnit) := by
  intro s what declared written s' h
  cases h

/-- A failure for another reason. -/
theorem keepsSizes_throw {e : ClassError}
    (h : ∀ what declared written, e ≠ .sizeMismatch what declared written) :
    KeepsSizes (throw e : Step σ α) := by
  intro s what declared written s' hthrow
  cases hthrow
  exact h what declared written rfl

theorem KeepsSizes.bind (h : KeepsSizes m) (hk : ∀ a, KeepsSizes (k a)) : KeepsSizes (m >>= k) := by
  intro s what declared written s' hbind
  change EStateM.bind m k s = _ at hbind
  unfold EStateM.bind at hbind
  split at hbind
  · exact hk _ _ _ _ _ _ hbind
  · rename_i hm
    cases hbind
    exact h _ _ _ _ _ hm

theorem KeepsSizes.on [Inhabited τ] {part : σ → τ} {replace : σ → τ → σ} (h : KeepsSizes step) :
    KeepsSizes (Step.on part replace step) := by
  intro s what declared written s' hon
  unfold Step.on at hon
  simp only at hon
  split at hon
  · cases hon
  · rename_i hstep
    cases hon
    exact h _ _ _ _ _ hstep

theorem keepsSizes_mapM {f : α → Step σ β} (h : ∀ a, KeepsSizes (f a)) (items : List α) :
    KeepsSizes (items.mapM f) := by
  induction items with
  | nil =>
    rw [List.mapM_nil]
    exact keepsSizes_pure _
  | cons a rest ih =>
    rw [List.mapM_cons]
    exact (h a).bind fun _ => ih.bind fun _ => keepsSizes_pure _

end Combinators

end Step

/-- A wrong size is no error of storing. -/
theorem Storing.keepsSizes {σ α : Type} {m : Step σ α} (h : Storing m) : Step.KeepsSizes m := by
  intro s what declared written s' herror
  have hends := h s trivial
  rw [herror] at hends
  exact nomatch hends.2

open Step (KeepsSizes)

section Annotations

theorem Store.keepsSizes_index {request : ConstantPool.Request PoolIndex}
    (h : KeepsSizes request) : KeepsSizes (Store.index request) :=
  h.on.bind fun _ => Step.keepsSizes_modify _

theorem Store.keepsSizes_u8 (n : UInt8) : KeepsSizes (Store.u8 n) := Step.keepsSizes_modify _

theorem Store.keepsSizes_count (what : String) (n : Nat) : KeepsSizes (Store.count what n) :=
  (storing_count16 what n).keepsSizes.bind fun _ => Step.keepsSizes_modify _

theorem Store.keepsSizes_utf8 (text : String) :
    KeepsSizes (Store.index (ConstantPool.utf8 text)) :=
  Store.keepsSizes_index (ConstantPool.storing_utf8 text).keepsSizes

theorem Store.keepsSizes_intern (c : Constant) :
    KeepsSizes (Store.index (ConstantPool.intern c)) :=
  Store.keepsSizes_index (ConstantPool.storing_intern c).keepsSizes

mutual

theorem ElementValue.keepsSizes_store : (v : ElementValue) → KeepsSizes v.store
  | .byte _ | .char _ | .short _ | .boolean _ | .int _ | .long _ | .float _ | .double _ => by
    simp only [ElementValue.store]
    exact (Store.keepsSizes_u8 _).bind fun _ => Store.keepsSizes_intern _
  | .string _ | .cls _ => by
    simp only [ElementValue.store]
    exact (Store.keepsSizes_u8 _).bind fun _ => Store.keepsSizes_utf8 _
  | .enum _ _ => by
    simp only [ElementValue.store]
    exact (Store.keepsSizes_u8 _).bind fun _ => (Store.keepsSizes_utf8 _).bind fun _ =>
      Store.keepsSizes_utf8 _
  | .nested _ elements => by
    simp only [ElementValue.store]
    exact (Store.keepsSizes_u8 _).bind fun _ => (Store.keepsSizes_utf8 _).bind fun _ =>
      (Store.keepsSizes_count _ _).bind fun _ => keepsSizes_storeElements elements
  | .array values => by
    simp only [ElementValue.store]
    exact (Store.keepsSizes_u8 _).bind fun _ => (Store.keepsSizes_count _ _).bind fun _ =>
      keepsSizes_storeValues values

theorem keepsSizes_storeElements : (elements : List (String × ElementValue)) →
    KeepsSizes (storeElements elements)
  | [] => by
    simp only [storeElements]
    exact Step.keepsSizes_pure _
  | (_, value) :: rest => by
    simp only [storeElements]
    exact (Store.keepsSizes_utf8 _).bind fun _ => (ElementValue.keepsSizes_store value).bind fun _ =>
      keepsSizes_storeElements rest

theorem keepsSizes_storeValues : (values : List ElementValue) → KeepsSizes (storeValues values)
  | [] => by
    simp only [storeValues]
    exact Step.keepsSizes_pure _
  | value :: rest => by
    simp only [storeValues]
    exact (ElementValue.keepsSizes_store value).bind fun _ => keepsSizes_storeValues rest

end

theorem keepsSizes_storeAnnotations (annotations : List Annotation) :
    KeepsSizes (storeAnnotations annotations) := by
  induction annotations with
  | nil => exact Step.keepsSizes_pure _
  | cons a rest ih =>
    have hstore : KeepsSizes a.store := (Store.keepsSizes_utf8 _).bind fun _ =>
      (Store.keepsSizes_count _ _).bind fun _ => keepsSizes_storeElements _
    exact hstore.bind fun _ => ih

end Annotations

namespace Attribute

theorem keepsSizes_makeIf (body : Option AttributeBody) : KeepsSizes (makeIf body) := by
  cases body with
  | none => exact Step.keepsSizes_pure _
  | some body => exact (storing_make body).keepsSizes.bind fun _ => Step.keepsSizes_pure _

theorem keepsSizes_annotations (all : List Annotated) (visible : Bool) :
    KeepsSizes (annotations all visible) := by
  unfold annotations
  refine KeepsSizes.bind ?_ fun encoded => ?_
  · intro p what declared written p' h
    simp only at h
    split at h
    · cases h
    · rename_i hstore
      cases h
      exact keepsSizes_storeAnnotations _ _ _ _ _ _ hstore
  · simp only
    split
    · exact Step.keepsSizes_pure _
    · exact (storing_count16 _ _).keepsSizes.bind fun _ => Step.keepsSizes_pure _

theorem keepsSizes_makeAnnotations (all : List Annotated) : KeepsSizes (makeAnnotations all) :=
  (keepsSizes_annotations all true).bind fun _ => (keepsSizes_makeIf _).bind fun _ =>
    (keepsSizes_annotations all false).bind fun _ => (keepsSizes_makeIf _).bind fun _ =>
      Step.keepsSizes_pure _

end Attribute

namespace ClassBuilder

theorem keepsSizes_getHeader : KeepsSizes getHeader := by
  refine Step.keepsSizes_get.bind fun b => ?_
  split
  · exact Step.keepsSizes_throw nofun
  · exact Step.keepsSizes_pure _

theorem keepsSizes_ownAttributes (b : ClassBuilder) (header : StoredHeader) :
    KeepsSizes (ownAttributes b header) :=
  (Attribute.keepsSizes_makeIf _).bind fun _ => (Attribute.keepsSizes_makeIf _).bind fun _ =>
    (Attribute.keepsSizes_makeIf _).bind fun _ => (Attribute.keepsSizes_makeIf _).bind fun _ =>
    (Attribute.keepsSizes_makeIf _).bind fun _ => (Attribute.keepsSizes_makeIf _).bind fun _ =>
    (Attribute.keepsSizes_makeAnnotations _).bind fun _ =>
    (Step.keepsSizes_mapM (fun _ => (Attribute.storing_make _).keepsSizes) _).bind fun _ =>
    Step.keepsSizes_pure _

theorem keepsSizes_classAttributes : KeepsSizes classAttributes := by
  rw [classAttributes_eq]
  exact keepsSizes_getHeader.bind fun header => Step.keepsSizes_get.bind fun b =>
    (keepsSizes_ownAttributes b header).on.bind fun _ => Step.keepsSizes_get.bind fun _ =>
    (Attribute.keepsSizes_makeIf _).on.bind fun _ => (storing_count16 _ _).keepsSizes.bind fun _ =>
    Step.keepsSizes_pure _

/-- The parts of a class are written in the sizes that were declared for them. -/
theorem keepsSizes_putParts (b : ClassBuilder) (header : StoredHeader)
    (attributes : List Attribute) : KeepsSizes (putParts b header attributes) := by
  have hsized {what : String} {put : Put Unit} {fits : Prop} {bytes : List UInt8}
      (h : Writes put fits bytes) : KeepsSizes (putSized what bytes.length put) := by
    intro out what declared written out' herror
    rcases putSized_cases h out with ⟨fault, _, hput⟩ | ⟨-, hput⟩ <;>
      exact nomatch hput.symm.trans herror
  have hpool : Writes b.pool.put True b.pool.stored :=
    ((Put.writes_u16 _).andThen (Put.writes_bytes _)).cast (by simp) rfl
  unfold putParts
  rw [← b.pool.length_stored, ← Put.length_countedBytes length_bytes16 header.interfaces,
    ← Member.length_list b.fields.toList, ← Member.length_list b.methods.toList,
    ← Attribute.length_listBytes]
  exact (Step.keepsSizes_modify _).bind fun _ => (hsized hpool).bind fun _ =>
    (Step.keepsSizes_modify _).bind fun _ =>
    (hsized (Put.writes_counted Put.writes_u16 _)).bind fun _ =>
    (hsized (Put.writes_counted Member.writes_put _)).bind fun _ =>
    (hsized (Put.writes_counted Member.writes_put _)).bind fun _ =>
    hsized (Attribute.writes_putList _)

/-- The parts of a class file add up to its size. -/
theorem length_encode (b : ClassBuilder) (header : StoredHeader) (attributes : List Attribute) :
    (b.encode header attributes).length = b.byteSize header attributes := by
  simp only [encode, byteSize, List.length_append, length_bytes16, length_bytes32,
    ConstantPool.length_stored, Put.length_countedBytes length_bytes16, Member.length_list,
    Attribute.length_listBytes]
  omega

theorem keepsSizes_toBytes : KeepsSizes toBytes := by
  refine keepsSizes_classAttributes.bind fun attributes => keepsSizes_getHeader.bind fun header =>
    Step.keepsSizes_get.bind fun b => ?_
  split
  · rename_i hput
    refine Step.keepsSizes_throw fun what declared written he => ?_
    exact keepsSizes_putParts _ _ _ _ _ _ _ _ (he ▸ hput)
  · rename_i hput
    obtain ⟨-, rfl⟩ := putParts_ok hput
    have hsize : (Bytes.putAll #[] (b.encode header attributes)).size =
        b.byteSize header attributes := by
      rw [Bytes.size_putAll, length_encode, Array.size_empty, Nat.zero_add]
    simp only
    rw [if_pos hsize]
    exact Step.keepsSizes_pure _

/-- **Declared sizes are right.** Writing an attribute is an I/O error or gives exactly the bytes it
declares, with every length field in them, at any depth, six less than the size of its attribute;
and whatever a builder has taken up, writing the class is never refused for a size. -/
theorem sizes_declared :
    (∀ (a : Attribute) (out : Bytes),
      (∃ fault out', a.put out = .error (.store fault) out') ∨
        ∃ bytes, a.put out = .ok () (out.putAll bytes) ∧ bytes.length = a.byteSize ∧
          AttributeBody.AllSized [a] bytes) ∧
    ∀ (b b' : ClassBuilder) (what : String) (declared written : Nat),
      toBytes b ≠ .error (.sizeMismatch what declared written) b' :=
  ⟨Attribute.put_cases, fun b b' what declared written =>
    keepsSizes_toBytes b what declared written b'⟩

end ClassBuilder

end JvmClass
