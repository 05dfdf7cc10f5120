import JvmClass.Proofs.StackMap

/-!
# The bytes of attributes

An attribute is written exactly if its lists fit their counts, and what is written are the bytes of
its encoding, of which there are as many as it declares.
-/

namespace JvmClass

open Put (Writes)

namespace BootstrapMethod

/-- The bytes of a bootstrap method. -/
def encode (m : BootstrapMethod) : List UInt8 :=
  bytes16 m.method ++ Put.countedBytes bytes16 m.arguments

theorem writes_put (m : BootstrapMethod) : Writes m.put (m.arguments.length < 65536) m.encode :=
  ((Put.writes_u16 _).andThen (Put.writes_counted Put.writes_u16 _)).cast (by simp) rfl

theorem length_encode (m : BootstrapMethod) : m.encode.length = m.byteSize := by
  have h := Put.length_flatMap_const m.arguments length_bytes16
  simp only [encode, byteSize, Put.countedBytes, List.length_append, length_bytes16, h]
  omega

end BootstrapMethod

/-- The bytes of a line. -/
def LineNumber.encode (l : LineNumber) : List UInt8 := bytes16 l.start ++ bytes16 l.line

/-- The bytes of a local variable. -/
def LocalVariable.encode (v : LocalVariable) : List UInt8 :=
  bytes16 v.start ++ (bytes16 v.length ++ (bytes16 v.name ++
    (bytes16 v.descriptor ++ bytes16 v.slot)))

/-- The bytes of an inner class. -/
def InnerClass.encode (c : InnerClass) : List UInt8 :=
  bytes16 c.inner ++ (bytes16 c.outer ++ (bytes16 c.name ++ bytes16 c.flags.bits))

theorem LineNumber.writes_put (l : LineNumber) : Writes l.put True l.encode :=
  ((Put.writes_u16 _).andThen (Put.writes_u16 _)).cast (by simp) rfl

theorem LocalVariable.writes_put (v : LocalVariable) : Writes v.put True v.encode :=
  ((Put.writes_u16 _).andThen ((Put.writes_u16 _).andThen ((Put.writes_u16 _).andThen
    ((Put.writes_u16 _).andThen (Put.writes_u16 _))))).cast (by simp) rfl

theorem InnerClass.writes_put (c : InnerClass) : Writes c.put True c.encode :=
  ((Put.writes_u16 _).andThen ((Put.writes_u16 _).andThen ((Put.writes_u16 _).andThen
    (Put.writes_u16 _)))).cast (by simp) rfl

theorem LineNumber.length_encode (l : LineNumber) : l.encode.length = 4 := rfl

theorem LocalVariable.length_encode (v : LocalVariable) : v.encode.length = 10 := rfl

theorem InnerClass.length_encode (c : InnerClass) : c.encode.length = 8 := rfl

/-- The number of bytes of a counted list of items of one size. -/
theorem Put.length_countedBytes {α : Type} {encode : α → List UInt8} {size : Nat}
    (h : ∀ a, (encode a).length = size) (items : List α) :
    (countedBytes encode items).length = 2 + size * items.length := by
  rw [countedBytes, List.length_append, length_flatMap_const items h, length_bytes16]

namespace AttributeBody

mutual

/-- The bytes of a body. -/
def encode : AttributeBody → List UInt8
  | signature index | sourceFile index | nestHost index | constantValue index => bytes16 index
  | enclosingMethod cls method => bytes16 cls ++ bytes16 (method.getD 0)
  | nestMembers classes | exceptions classes => Put.countedBytes bytes16 classes
  | lineNumberTable lines => Put.countedBytes LineNumber.encode lines
  | localVariableTable vars => Put.countedBytes LocalVariable.encode vars
  | innerClasses classes => Put.countedBytes InnerClass.encode classes
  | bootstrapMethods methods => Put.countedBytes BootstrapMethod.encode methods
  | stackMapTable entries => Put.countedBytes StackMapEntry.encode entries
  | annotations _ count encoded => bytes16 count ++ encoded.toList
  | code maxStack maxLocals instructions exceptionTable attributes =>
    bytes16 maxStack ++ (bytes16 maxLocals ++ (bytes32 (UInt32.ofNat instructions.size) ++
      (instructions.toList ++ (exceptionTable.toList ++
        (bytes16 (UInt16.ofNat attributes.length) ++ encodeAll attributes)))))
  | raw _ data => data.toList

/-- The bytes of attributes. -/
def encodeAll : List (PoolIndex × AttributeBody) → List UInt8
  | [] => []
  | (nameIndex, body) :: rest =>
    bytes16 nameIndex ++ (bytes32 (UInt32.ofNat body.byteSize) ++ (body.encode ++ encodeAll rest))

end

mutual

/-- The lists of a body fit their counts. -/
def Fits : AttributeBody → Prop
  | nestMembers classes | exceptions classes => classes.length < 65536
  | lineNumberTable lines => lines.length < 65536
  | localVariableTable vars => vars.length < 65536
  | innerClasses classes => classes.length < 65536
  | bootstrapMethods methods =>
    methods.length < 65536 ∧ ∀ m ∈ methods, m.arguments.length < 65536
  | stackMapTable entries => entries.length < 65536 ∧ ∀ e ∈ entries, e.Fits
  | code _ _ _ _ attributes => attributes.length < 65536 ∧ AllFit attributes
  | _ => True

/-- Attributes whose bodies fit and are not too long. -/
def AllFit : List (PoolIndex × AttributeBody) → Prop
  | [] => True
  | (_, body) :: rest => body.byteSize < 4294967296 ∧ body.Fits ∧ AllFit rest

end

mutual

theorem writes_put : (body : AttributeBody) → Writes body.put body.Fits body.encode
  | signature index | sourceFile index | nestHost index | constantValue index => by
    simp only [put, Fits, encode]
    exact Put.writes_u16 index
  | enclosingMethod cls method => by
    simp only [put, Fits, encode]
    exact ((Put.writes_u16 cls).andThen (Put.writes_u16 _)).cast (by simp) rfl
  | nestMembers classes | exceptions classes => by
    simp only [put, Fits, encode]
    exact (Put.writes_counted Put.writes_u16 classes).cast (by simp) rfl
  | lineNumberTable lines => by
    simp only [put, Fits, encode]
    exact (Put.writes_counted LineNumber.writes_put lines).cast (by simp) rfl
  | localVariableTable vars => by
    simp only [put, Fits, encode]
    exact (Put.writes_counted LocalVariable.writes_put vars).cast (by simp) rfl
  | innerClasses classes => by
    simp only [put, Fits, encode]
    exact (Put.writes_counted InnerClass.writes_put classes).cast (by simp) rfl
  | bootstrapMethods methods => by
    simp only [put, Fits, encode]
    exact Put.writes_counted BootstrapMethod.writes_put methods
  | stackMapTable entries => by
    simp only [put, Fits, encode]
    exact Put.writes_counted StackMapEntry.writes_put entries
  | annotations _ count encoded => by
    simp only [put, Fits, encode]
    exact ((Put.writes_u16 count).andThen (Put.writes_bytes encoded)).cast (by simp) rfl
  | code maxStack maxLocals instructions exceptionTable attributes => by
    simp only [put, Fits, encode]
    refine ((Put.writes_u16 maxStack).andThen ((Put.writes_u16 maxLocals).andThen
      ((Put.writes_u32 _).andThen ((Put.writes_bytes instructions).andThen
        ((Put.writes_bytes exceptionTable).andThen (Put.writes_if
          ((Put.writes_u16 _).andThen (writes_putAll attributes)))))))).cast ?_ rfl
    simp
  | raw _ data => by
    simp only [put, Fits, encode]
    exact Put.writes_bytes data

theorem writes_putAll : (attributes : List (PoolIndex × AttributeBody)) →
    Writes (putAll attributes) (AllFit attributes) (encodeAll attributes)
  | [] => by
    simp only [putAll, AllFit, encodeAll]
    exact Put.writes_pure
  | (nameIndex, body) :: rest => by
    simp only [putAll, AllFit, encodeAll]
    refine ((Put.writes_u16 nameIndex).andThen (Put.writes_if ((Put.writes_u32 _).andThen
      ((writes_put body).andThen (writes_putAll rest))))).cast ?_ rfl
    simp

end

mutual

/-- A body has as many bytes as it declares. -/
theorem length_encode : (body : AttributeBody) → body.encode.length = body.byteSize
  | signature _ | sourceFile _ | nestHost _ | constantValue _ | enclosingMethod _ _ => by
    simp only [encode, byteSize, List.length_append, length_bytes16]
  | nestMembers _ | exceptions _ => by
    simp only [encode, byteSize]
    exact Put.length_countedBytes length_bytes16 _
  | lineNumberTable _ => by
    simp only [encode, byteSize]
    exact Put.length_countedBytes LineNumber.length_encode _
  | localVariableTable _ => by
    simp only [encode, byteSize]
    exact Put.length_countedBytes LocalVariable.length_encode _
  | innerClasses _ => by
    simp only [encode, byteSize]
    exact Put.length_countedBytes InnerClass.length_encode _
  | bootstrapMethods methods => by
    have h := Put.length_flatMap methods fun m _ => m.length_encode
    simp only [encode, byteSize, Put.countedBytes, List.length_append, length_bytes16, h]
  | stackMapTable entries => by
    have h := Put.length_flatMap entries fun e _ => e.length_encode
    simp only [encode, byteSize, Put.countedBytes, List.length_append, length_bytes16, h]
  | annotations _ _ encoded => by
    simp only [encode, byteSize, List.length_append, length_bytes16, Array.length_toList]
  | code _ _ instructions exceptionTable attributes => by
    have h := length_encodeAll attributes
    simp only [encode, byteSize, List.length_append, length_bytes16, length_bytes32,
      Array.length_toList, h]
    omega
  | raw _ data => by simp only [encode, byteSize, Array.length_toList]

theorem length_encodeAll : (attributes : List (PoolIndex × AttributeBody)) →
    (encodeAll attributes).length = totalSize attributes
  | [] => by simp only [encodeAll, totalSize, List.length_nil]
  | (_, body) :: rest => by
    have h := length_encode body
    have hrest := length_encodeAll rest
    simp only [encodeAll, totalSize, List.length_append, length_bytes16, length_bytes32, h, hrest]
    omega

end

/-- Attributes that fit are each shorter than a length can say. -/
theorem AllFit.of_mem {attributes : List (PoolIndex × AttributeBody)} (h : AllFit attributes)
    {a : PoolIndex × AttributeBody} (ha : a ∈ attributes) :
    a.2.byteSize < 4294967296 ∧ a.2.Fits := by
  induction attributes with
  | nil => cases ha
  | cons first rest ih =>
    simp only [AllFit] at h
    rcases List.mem_cons.1 ha with rfl | hrest
    · exact ⟨h.1, h.2.1⟩
    · exact ih h.2.2 hrest

end AttributeBody

/-- The bytes of an attribute. -/
def Attribute.encode (a : Attribute) : List UInt8 :=
  bytes16 a.1 ++ (bytes32 (UInt32.ofNat a.2.byteSize) ++ a.2.encode)

theorem AttributeBody.encodeAll_eq (attributes : List Attribute) :
    encodeAll attributes = attributes.flatMap Attribute.encode := by
  induction attributes with
  | nil => simp only [encodeAll, List.flatMap_nil]
  | cons a rest ih =>
    simp only [encodeAll, List.flatMap_cons, ih, Attribute.encode, List.append_assoc]

/-- The bytes of a counted list of attributes. -/
def Attribute.listBytes (attributes : List Attribute) : List UInt8 :=
  Put.countedBytes Attribute.encode attributes

theorem Attribute.writes_putList (attributes : List Attribute) :
    Writes (putList attributes) (attributes.length < 65536 ∧ AttributeBody.AllFit attributes)
      (listBytes attributes) := by
  refine (Put.writes_if ((Put.writes_u16 _).andThen
    (AttributeBody.writes_putAll attributes))).cast (by simp) ?_
  rw [AttributeBody.encodeAll_eq]
  rfl

theorem Attribute.length_listBytes (attributes : List Attribute) :
    (listBytes attributes).length = listSize attributes := by
  rw [listBytes, Put.countedBytes, List.length_append, ← AttributeBody.encodeAll_eq,
    AttributeBody.length_encodeAll]
  rfl

end JvmClass
