import JvmClass.Assembly.ClassBuilder
import JvmClass.Proofs.Attribute.Making
import JvmClass.Proofs.Constant.Section
import JvmClass.Proofs.Image.Parsing

/-!
# Class files that were written

What a builder writes are the parts of a class file one after another, each with its count
(`ClassBuilder.encode`). Reading finds every part where it was written, the pool among them, and the
bootstrap methods in the last attribute of the class (`ClassBuilder.Written`). The image that is read
therefore looks up every constant as the pool answered it.
-/

namespace JvmClass

open ConstantPool (Gives Stable)
open Put (Writes)

/-- A structure that is written in the size that was declared. -/
theorem putSized_ok {what : String} {size : Nat} {put : Put Unit} {fits : Prop}
    {bytes : List UInt8} (h : Writes put fits bytes) {out out' : Bytes} {u : Unit}
    (hput : putSized what size put out = .ok u out') : fits ∧ out' = out.putAll bytes := by
  unfold putSized at hput
  simp only at hput
  split at hput
  · cases hput
  · rename_i hok
    split at hput
    · cases hput
      exact (h _ _ _).1 hok
    · cases hput

/-- What fits is written in the size that it has. -/
theorem putSized_of_fits {what : String} {put : Put Unit} {fits : Prop} {bytes : List UInt8}
    (h : Writes put fits bytes) (hfits : fits) (out : Bytes) :
    putSized what bytes.length put out = .ok () (out.putAll bytes) := by
  unfold putSized
  rw [(h out () _).2 ⟨hfits, rfl⟩]
  simp [Bytes.size_putAll]

namespace Member

/-- The bytes of a field or method. -/
def encode (m : Member) : List UInt8 :=
  bytes16 m.flags ++ (bytes16 m.name ++ (bytes16 m.descriptor ++ Attribute.listBytes m.attributes))

/-- The attributes of a member fit their count, and each its length. -/
def Fits (m : Member) : Prop :=
  m.attributes.length < 65536 ∧ AttributeBody.AllFit m.attributes

theorem writes_put (m : Member) : Writes m.put m.Fits m.encode :=
  ((Put.writes_u16 _).andThen ((Put.writes_u16 _).andThen ((Put.writes_u16 _).andThen
    (Attribute.writes_putList _)))).cast (by simp [Fits]) rfl

theorem length_encode (m : Member) : m.encode.length = m.byteSize := by
  simp only [encode, byteSize, List.length_append, length_bytes16, Attribute.length_listBytes]
  omega

theorem length_list (members : List Member) :
    (Put.countedBytes encode members).length = listSize members := by
  rw [Put.countedBytes, List.length_append, Put.length_flatMap members fun m _ => m.length_encode,
    length_bytes16, listSize]

end Member

theorem Scan.reads_skipMember {m : Member} (h : m.Fits) :
    Scan.Reads ClassImage.skipMember m.encode () := by
  have hskip := Scan.reads_skip (bytes16 m.flags ++ (bytes16 m.name ++ bytes16 m.descriptor))
  refine (hskip.bind (Scan.reads_skipAttributes h.1 h.2)).cast ?_
  simp only [Member.encode, List.append_assoc]

theorem Scan.reads_skipMembers {members : List Member} (hcount : members.length < 65536)
    (h : ∀ m ∈ members, m.Fits) :
    Scan.Reads ClassImage.skipMembers (Put.countedBytes Member.encode members) () := by
  refine (Scan.reads_u16 _).bind ?_
  rw [UInt16.toNat_ofNat_of_lt' hcount]
  have hall : ∀ chunk ∈ members.map Member.encode, Scan.Reads ClassImage.skipMember chunk () := by
    intro chunk hchunk
    obtain ⟨m, hm, rfl⟩ := List.mem_map.1 hchunk
    exact Scan.reads_skipMember (h m hm)
  have hread := Scan.reads_repeated hall
  rwa [List.length_map] at hread

theorem ClassImage.reads_readBootstrapMethod {m : BootstrapMethod}
    (h : m.arguments.length < 65536) : Scan.Reads readBootstrapMethod m.encode m :=
  (Scan.reads_u16 m.method).bind
    (Scan.reads_countedBytes h fun i _ => Scan.reads_u16 i).map

namespace ConstantPool

variable {p q : ConstantPool}

/-- A text leaves the bootstrap methods alone. -/
theorem bootstraps_intern {c : Constant} {i : PoolIndex} (h : intern c p = .ok i q) :
    q.bootstraps = p.bootstraps := by
  unfold intern at h
  split at h
  · cases h
    rfl
  · split at h
    · cases h
    · cases h
      rfl

/-- Making an attribute asks for its name only. -/
theorem makeIf_ok {body : Option AttributeBody} {attributes : List Attribute}
    (h : Attribute.makeIf body p = .ok attributes q) :
    attributes.map Prod.snd = body.toList ∧ q.bootstraps = p.bootstraps := by
  cases body with
  | none =>
    obtain ⟨rfl, rfl⟩ := Step.pure_ok.1 h
    exact ⟨rfl, rfl⟩
  | some body =>
    obtain ⟨a, mid, ha, h⟩ := Step.bind_ok.1 h
    obtain ⟨rfl, rfl⟩ := Step.pure_ok.1 h
    obtain ⟨i, mid', hi, ha⟩ := Step.bind_ok.1 ha
    obtain ⟨rfl, rfl⟩ := Step.pure_ok.1 ha
    exact ⟨rfl, bootstraps_intern (ClassImage.intern_of_utf8 hi)⟩

end ConstantPool

namespace ClassBuilder

variable {b b' : ClassBuilder} {header : StoredHeader} {attributes : List Attribute}

theorem ask_ok {α : Type} {request : ConstantPool.Request α} {a : α} :
    ask request b = .ok a b' ↔ ∃ pool, request b.pool = .ok a pool ∧ b' = { b with pool } :=
  Step.on_ok

theorem getHeader_ok : getHeader b = .ok header b' ↔ b.header = some header ∧ b' = b := by
  simp only [getHeader, Step.bind_ok, Step.get_ok]
  constructor
  · rintro ⟨_, _, ⟨rfl, rfl⟩, h⟩
    cases hheader : b.header with
    | none =>
      rw [hheader] at h
      exact (Step.throw_ok.1 h).elim
    | some found =>
      rw [hheader] at h
      obtain ⟨rfl, rfl⟩ := Step.pure_ok.1 h
      exact ⟨rfl, rfl⟩
  · rintro ⟨hheader, rfl⟩
    refine ⟨b', b', ⟨rfl, rfl⟩, ?_⟩
    rw [hheader]
    exact Step.pure_ok.2 ⟨rfl, rfl⟩

/-- The attributes of the class that are made before its bootstrap methods are known. -/
def ownAttributes (b : ClassBuilder) (header : StoredHeader) :
    ConstantPool.Request (List Attribute) := do
  let sourceFile ← Attribute.makeIf (b.sourceFile.map .sourceFile)
  let signature ← Attribute.makeSignature header.signature
  let enclosing ← Attribute.makeIf (b.enclosingMethod.map fun (cls, method) =>
    .enclosingMethod cls method)
  let nestHost ← Attribute.makeIf (b.nestHost.map .nestHost)
  let nestMembers ← Attribute.makeIf
    (if b.nestMembers.isEmpty then none else some (.nestMembers b.nestMembers.toList))
  let innerClasses ← Attribute.makeIf
    (if b.innerClasses.isEmpty then none else some (.innerClasses b.innerClasses.toList))
  let annotations ← Attribute.makeAnnotations b.annotations.toList
  let raw ← Attribute.makeRaw b.attributes.toList
  return sourceFile ++ signature ++ enclosing ++ nestHost ++ nestMembers ++ innerClasses ++
    annotations ++ raw

/-- The attribute that holds the bootstrap methods, if there are any. -/
def bootstrapBody (p : ConstantPool) : Option AttributeBody :=
  if p.bootstraps.isEmpty then none else some (.bootstrapMethods p.bootstraps.toList)

theorem ask_bind {α β : Type} (request : ConstantPool.Request α)
    (k : α → ConstantPool.Request β) :
    ask (request >>= k) = (do ask (k (← ask request))) := by
  funext b
  simp only [ask, Step.on, bind, EStateM.bind]
  cases request b.pool <;> rfl

theorem ask_pure {α : Type} (a : α) : ask (pure a) = pure a := rfl

/-- The attributes of a class are made in two requests. -/
theorem classAttributes_eq : classAttributes = (do
    let header ← getHeader
    let b ← get
    let own ← ask (ownAttributes b header)
    let last ← ask (Attribute.makeIf (bootstrapBody (← get).pool))
    let _ ← Step.of (count16 "class attributes" (own ++ last).length)
    return own ++ last) := by
  simp only [ownAttributes, ask_bind, ask_pure, bind_assoc, pure_bind]
  rfl

theorem classAttributes_ok (h : classAttributes b = .ok attributes b') :
    ∃ header own mid last pool, b.header = some header ∧
      ownAttributes b header b.pool = .ok own mid ∧
      Attribute.makeIf (bootstrapBody mid) mid = .ok last pool ∧ attributes = own ++ last ∧
      b' = { b with pool } := by
  rw [classAttributes_eq] at h
  simp only [Step.bind_ok, getHeader_ok, Step.get_ok, ask_ok, Step.of_ok, Step.pure_ok] at h
  obtain ⟨header, _, ⟨hheader, rfl⟩, _, _, ⟨rfl, rfl⟩, own, _, ⟨mid, hown, rfl⟩, _, _, ⟨rfl, rfl⟩,
    last, _, ⟨pool, hlast, rfl⟩, _, _, ⟨-, rfl⟩, rfl, rfl⟩ := h
  exact ⟨header, own, mid, last, pool, hheader, hown, hlast, rfl, rfl⟩

theorem classAttributes_of {own last : List Attribute} {mid pool : ConstantPool}
    (hheader : b.header = some header) (hown : ownAttributes b header b.pool = .ok own mid)
    (hlast : Attribute.makeIf (bootstrapBody mid) mid = .ok last pool)
    (hcount : (own ++ last).length < 65536) :
    classAttributes b = .ok (own ++ last) { b with pool } := by
  rw [classAttributes_eq]
  simp only [Step.bind_ok, getHeader_ok, Step.get_ok, ask_ok, Step.of_ok, Step.pure_ok]
  exact ⟨header, b, ⟨hheader, rfl⟩, b, b, ⟨rfl, rfl⟩, own, _, ⟨mid, hown, rfl⟩, _, _, ⟨rfl, rfl⟩,
    last, _, ⟨pool, hlast, rfl⟩, _, _, ⟨if_pos hcount, rfl⟩, rfl, rfl⟩

/-- The bodies of the attributes of a class, but for the annotations and those that are not
interpreted. -/
def ownBodies (b : ClassBuilder) (header : StoredHeader) : List AttributeBody :=
  (b.sourceFile.map AttributeBody.sourceFile).toList ++
    (header.signature.map AttributeBody.signature).toList ++
    (b.enclosingMethod.map fun (cls, method) =>
      AttributeBody.enclosingMethod cls method).toList ++
    (b.nestHost.map AttributeBody.nestHost).toList ++
    (if b.nestMembers.isEmpty then none
      else some (AttributeBody.nestMembers b.nestMembers.toList)).toList ++
    (if b.innerClasses.isEmpty then none
      else some (AttributeBody.innerClasses b.innerClasses.toList)).toList

/-- The attributes of a class in an image: their names and bodies. -/
structure OwnListed (b : ClassBuilder) (header : StoredHeader) (image : ClassImage)
    (attributes : List Attribute) (visible invisible : Option AttributeBody) : Prop where
  visibleBody : Attribute.AnnotationBody image true
    (Attribute.chosen b.annotations.toList true) visible
  invisibleBody : Attribute.AnnotationBody image false
    (Attribute.chosen b.annotations.toList false) invisible
  listed : Attribute.Listed attributes image (ownBodies b header ++
    (visible.toList ++ invisible.toList) ++ b.attributes.toList.map fun a => .raw a.name a.data)

theorem gives_ownAttributes (b : ClassBuilder) (header : StoredHeader) :
    Gives (ownAttributes b header) fun image attributes => ∃ visible invisible,
      OwnListed b header image attributes visible invisible := by
  refine ((Attribute.gives_makeIf _).bind fun _ => (Attribute.gives_makeSignature _).bind fun _ =>
    (Attribute.gives_makeIf _).bind fun _ => (Attribute.gives_makeIf _).bind fun _ =>
    (Attribute.gives_makeIf _).bind fun _ => (Attribute.gives_makeIf _).bind fun _ =>
    (Attribute.gives_makeAnnotations _).bind fun _ => (Attribute.gives_makeRaw _).map).mono ?_
  rintro image _ ⟨_, h1, _, h2, _, h3, _, h4, _, h5, _, h6, _, ⟨visible, invisible, hv, hi, h7⟩,
    _, h8, rfl⟩
  refine ⟨visible, invisible, hv, hi, ?_⟩
  exact ((((((h1.append h2).append h3).append h4).append h5).append h6).append h7).append h8

/-- The bytes of a class file, part by part. -/
def encode (b : ClassBuilder) (header : StoredHeader) (attributes : List Attribute) :
    List UInt8 :=
  bytes32 magic ++ (bytes16 header.version.minor ++ (bytes16 header.version.major ++
    (b.pool.stored ++ (bytes16 header.flags.bits ++ (bytes16 header.thisClass ++
    (bytes16 header.superClass ++ (Put.countedBytes bytes16 header.interfaces ++
    (Put.countedBytes Member.encode b.fields.toList ++
    (Put.countedBytes Member.encode b.methods.toList ++ Attribute.listBytes attributes)))))))))

/-- The lists of a class fit their counts, and so do those of its parts. -/
structure Fits (b : ClassBuilder) (header : StoredHeader) (attributes : List Attribute) : Prop where
  interfaces : header.interfaces.length < 65536
  fields : b.fields.toList.length < 65536 ∧ ∀ m ∈ b.fields.toList, m.Fits
  methods : b.methods.toList.length < 65536 ∧ ∀ m ∈ b.methods.toList, m.Fits
  attributes : attributes.length < 65536 ∧ AttributeBody.AllFit attributes

theorem putParts_ok {out out' : Bytes} {u : Unit}
    (h : putParts b header attributes out = .ok u out') :
    b.Fits header attributes ∧ out' = out.putAll (b.encode header attributes) := by
  simp only [putParts, Step.bind_ok, Step.modify_ok] at h
  obtain ⟨_, _, rfl, _, _, hpool, _, _, rfl, _, _, hinterfaces, _, _, hfields, _, _, hmethods,
    hattributes⟩ := h
  have hwrites : Writes b.pool.put True b.pool.stored :=
    ((Put.writes_u16 _).andThen (Put.writes_bytes _)).cast (by simp) rfl
  obtain ⟨-, rfl⟩ := putSized_ok hwrites hpool
  obtain ⟨hcount, rfl⟩ := putSized_ok (Put.writes_counted Put.writes_u16 _) hinterfaces
  obtain ⟨hf, rfl⟩ := putSized_ok (Put.writes_counted Member.writes_put _) hfields
  obtain ⟨hm, rfl⟩ := putSized_ok (Put.writes_counted Member.writes_put _) hmethods
  obtain ⟨ha, rfl⟩ := putSized_ok (Attribute.writes_putList _) hattributes
  refine ⟨⟨hcount.1, hf, hm, ha⟩, ?_⟩
  simp only [encode, Version.encode, Bytes.putAll_append]
  rfl

theorem toBytes_ok {bytes : Bytes} (h : toBytes b = .ok bytes b') :
    ∃ header own mid last, b.header = some header ∧
      ownAttributes b header b.pool = .ok own mid ∧
      Attribute.makeIf (bootstrapBody mid) mid = .ok last b'.pool ∧
      b' = { b with pool := b'.pool } ∧ b'.Fits header (own ++ last) ∧
      bytes.toList = b'.encode header (own ++ last) := by
  obtain ⟨attributes, mid, hattributes, h⟩ := Step.bind_ok.1 h
  obtain ⟨header, own, p, last, pool, hheader, hown, hlast, rfl, rfl⟩ :=
    classAttributes_ok hattributes
  simp only [Step.bind_ok, getHeader_ok, Step.get_ok] at h
  obtain ⟨header', _, ⟨hheader', rfl⟩, _, _, ⟨rfl, rfl⟩, h⟩ := h
  obtain rfl : header = header' := Option.some.inj (hheader.symm.trans hheader')
  cases hput : putParts { b with pool } header (own ++ last) #[] with
  | error e out =>
    rw [hput] at h
    exact (Step.throw_ok.1 h).elim
  | ok u out =>
    rw [hput] at h
    simp only at h
    split at h
    · obtain ⟨rfl, rfl⟩ := Step.pure_ok.1 h
      obtain ⟨hfits, rfl⟩ := putParts_ok hput
      refine ⟨header, own, p, last, hheader, hown, hlast, rfl, hfits, ?_⟩
      rw [Bytes.toList_putAll]
      rfl
    · exact (Step.throw_ok.1 h).elim

/-- What fits is written. -/
theorem putParts_of_fits (h : b.Fits header attributes) (out : Bytes) :
    putParts b header attributes out = .ok () (out.putAll (b.encode header attributes)) := by
  have hwrites : Writes b.pool.put True b.pool.stored :=
    ((Put.writes_u16 _).andThen (Put.writes_bytes _)).cast (by simp) rfl
  have hinterfaces := Put.length_countedBytes length_bytes16 header.interfaces
  have hfields := Member.length_list b.fields.toList
  have hmethods := Member.length_list b.methods.toList
  unfold putParts
  rw [← b.pool.length_stored, ← hinterfaces, ← hfields, ← hmethods, ← Attribute.length_listBytes]
  refine Step.bind_ok.2 ⟨_, _, rfl, ?_⟩
  refine Step.bind_ok.2 ⟨_, _, putSized_of_fits hwrites trivial _, ?_⟩
  refine Step.bind_ok.2 ⟨_, _, rfl, ?_⟩
  refine Step.bind_ok.2 ⟨_, _, putSized_of_fits (Put.writes_counted Put.writes_u16 _)
    ⟨h.interfaces, fun _ _ => trivial⟩ _, ?_⟩
  refine Step.bind_ok.2 ⟨_, _, putSized_of_fits (Put.writes_counted Member.writes_put _)
    h.fields _, ?_⟩
  refine Step.bind_ok.2 ⟨_, _, putSized_of_fits (Put.writes_counted Member.writes_put _)
    h.methods _, ?_⟩
  rw [putSized_of_fits (Attribute.writes_putList _) h.attributes]
  simp only [encode, Version.encode, Bytes.putAll_append]
  rfl

/-- A class is written if its attributes can be made and it fits. -/
theorem toBytes_of_fits {own last : List Attribute} {mid pool : ConstantPool}
    (hheader : b.header = some header) (hown : ownAttributes b header b.pool = .ok own mid)
    (hlast : Attribute.makeIf (bootstrapBody mid) mid = .ok last pool)
    (hfits : Fits { b with pool } header (own ++ last)) :
    toBytes b = .ok (encode { b with pool } header (own ++ last)).toArray { b with pool } := by
  refine Step.bind_ok.2 ⟨_, _, classAttributes_of hheader hown hlast hfits.attributes.1, ?_⟩
  refine Step.bind_ok.2 ⟨header, _, getHeader_ok.2 ⟨hheader, rfl⟩, ?_⟩
  refine Step.bind_ok.2 ⟨_, _, Step.get_run _, ?_⟩
  have hsize : (encode { b with pool } header (own ++ last)).length =
      byteSize { b with pool } header (own ++ last) := by
    simp only [encode, byteSize, List.length_append, length_bytes16, ConstantPool.length_stored,
      Put.length_countedBytes length_bytes16, Member.length_list, Attribute.length_listBytes]
    rw [show (bytes32 magic).length = 4 from rfl]
    omega
  rw [putParts_of_fits hfits]
  simp only [Bytes.size_putAll, hsize, Array.size_empty, Nat.zero_add, if_true]
  exact Step.pure_ok.2 ⟨by rw [Bytes.putAll_eq, Array.empty_append], rfl⟩

/-- The parts of the image are where they were written, and it has read the pool. -/
structure Written (b : ClassBuilder) (header : StoredHeader) (attributes : List Attribute)
    (image : ClassImage) : Prop where
  fits : b.Fits header attributes
  holds : image.Holds b.pool
  version : image.version = header.version
  header : Spells image.data image.headerStart (bytes16 header.flags.bits ++
    (bytes16 header.thisClass ++ (bytes16 header.superClass ++
    Put.countedBytes bytes16 header.interfaces)))
  fields : Spells image.data image.fieldsStart (Put.countedBytes Member.encode b.fields.toList)
  methods : Spells image.data image.methodsStart (Put.countedBytes Member.encode b.methods.toList)
  attributes : Spells image.data image.attributesStart (Attribute.listBytes attributes)

/-- Parts are found where they were written. -/
theorem readParts_encode {v : SlotVec Constant} (hpool : b.pool.Backed v)
    (hversion : header.version.isSupported = true) (hfits : b.Fits header attributes)
    {data : Bytes} (hdata : data.toList = b.encode header attributes) :
    ∃ parts c, ClassImage.readParts ⟨data, 0⟩ = .ok parts c ∧ parts.data = data ∧
      parts.constants = v ∧ parts.bootstraps = #[] ∧ parts.rawPool = b.pool.bytes ∧ ∀ bootstraps,
        ClassImage.Holds { parts with bootstraps } b.pool →
        Written b header attributes { parts with bootstraps } := by
  have hmagic : Spells data 0 (b.encode header attributes) := .of_toList hdata
  have hminor := hmagic.right
  have hmajor := hminor.right
  have hstored := hmajor.right
  have hheader := hstored.right
  have hsuper := hheader.right.right
  have hinterfaces := hsuper.right
  have hskipped := hheader.left.append (hheader.right.left.append hsuper.left)
  have hcount := hinterfaces.left.left
  have hlist := hinterfaces.left.right
  have hfields := hinterfaces.right
  have hmethods := hfields.right
  have hattributes := hmethods.right
  let s := 4 + 2 + 2 + b.pool.stored.length
  let f := s + 2 + 2 + 2 + (Put.countedBytes bytes16 header.interfaces).length
  let m := f + (Put.countedBytes Member.encode b.fields.toList).length
  let a := m + (Put.countedBytes Member.encode b.methods.toList).length
  have hlength : (header.interfaces.flatMap bytes16).length =
      2 * (UInt16.ofNat header.interfaces.length).toNat := by
    rw [Put.length_flatMap_const _ length_bytes16, UInt16.toNat_ofNat_of_lt' hfits.interfaces]
  have hskip : Scan.skip (2 * (UInt16.ofNat header.interfaces.length).toNat)
      ⟨data, s + 6 + 2⟩ = .ok () ⟨data, f⟩ := by
    have hf : f = s + 6 + 2 + (header.interfaces.flatMap bytes16).length := by
      simp only [f, Put.countedBytes, List.length_append, length_bytes16]
      omega
    rw [← hlength, hf]
    exact Scan.reads_skip _ _ data hlist
  have hparts : ClassImage.readParts ⟨data, 0⟩ =
      .ok ⟨data, header.version, v, #[], s, f, m, a⟩ ⟨data, a⟩ := by
    refine Step.bind_ok.2 ⟨_, _, Step.get_run _, ?_⟩
    refine Step.bind_ok.2 ⟨_, _, Scan.reads_u32 magic _ _ hmagic.left, ?_⟩
    refine Step.guard_ok.2 ⟨fun h => h rfl, ?_⟩
    refine Step.bind_ok.2 ⟨_, _, Scan.reads_u16 _ _ _ hminor.left, ?_⟩
    refine Step.bind_ok.2 ⟨_, _, Scan.reads_u16 _ _ _ hmajor.left, ?_⟩
    refine Step.guard_ok.2 ⟨by simpa using hversion, ?_⟩
    refine Step.bind_ok.2 ⟨_, _, hpool.reads_stored _ _ hstored.left, ?_⟩
    refine Step.bind_ok.2 ⟨_, _, Step.get_run _, ?_⟩
    refine Step.bind_ok.2 ⟨_, _, Scan.reads_skip _ _ _ hskipped, ?_⟩
    refine Step.bind_ok.2 ⟨_, _, Scan.reads_u16 _ _ _ hcount, ?_⟩
    refine Step.bind_ok.2 ⟨_, _, hskip, ?_⟩
    refine Step.bind_ok.2 ⟨_, _, Step.get_run _, ?_⟩
    refine Step.bind_ok.2 ⟨_, _, Scan.reads_skipMembers hfits.fields.1 hfits.fields.2 _ _ hfields.left,
      ?_⟩
    refine Step.bind_ok.2 ⟨_, _, Step.get_run _, ?_⟩
    refine Step.bind_ok.2 ⟨_, _, Scan.reads_skipMembers hfits.methods.1 hfits.methods.2 _ _
      hmethods.left, ?_⟩
    refine Step.bind_ok.2 ⟨_, _, Step.get_run _, ?_⟩
    exact Step.pure_ok.2 ⟨rfl, rfl⟩
  have hentries : Spells data 10 b.pool.bytes.toList := hstored.left.right
  have hraw : data.extract 10 s = b.pool.bytes := by
    have hs : s = 10 + b.pool.bytes.toList.length := by
      simp only [s, ConstantPool.stored, List.length_append, length_bytes16]
      omega
    rw [hs, hentries.extract, Array.toArray_toList]
  refine ⟨_, _, hparts, rfl, rfl, rfl, hraw, fun bootstraps hholds => ?_⟩
  refine ⟨hfits, hholds, rfl, ?_, hfields.left, hmethods.left, hmethods.right⟩
  exact hheader.left.append (hheader.right.left.append (hsuper.left.append hinterfaces.left))

theorem name_ownBodies (b : ClassBuilder) (header : StoredHeader) :
    ∀ body ∈ b.ownBodies header, body.name ≠ "BootstrapMethods" := by
  have hmap {α : Type} (f : α → AttributeBody) (found : Option α)
      (hf : ∀ a, (f a).name ≠ "BootstrapMethods") :
      ∀ body ∈ (found.map f).toList, body.name ≠ "BootstrapMethods" := by
    intro body hbody
    obtain ⟨a, -, rfl⟩ := Option.map_eq_some_iff.1 (Option.mem_toList.1 hbody)
    exact hf a
  have hif (c : Bool) (found : AttributeBody) (hf : found.name ≠ "BootstrapMethods") :
      ∀ body ∈ (if c then none else some found).toList, body.name ≠ "BootstrapMethods" := by
    intro body hbody
    cases c
    · rwa [List.mem_singleton.1 hbody]
    · cases hbody
  simp only [ownBodies, List.forall_mem_append]
  refine ⟨⟨⟨⟨⟨hmap _ _ fun _ => ?_, hmap _ _ fun _ => ?_⟩, hmap _ _ fun _ => ?_⟩,
    hmap _ _ fun _ => ?_⟩, hif _ _ ?_⟩, hif _ _ ?_⟩ <;> simp [AttributeBody.name]

/-- No attribute that is made before the bootstrap methods has their name. -/
theorem OwnListed.find?_own {image : ClassImage} {own : List Attribute}
    {visible invisible : Option AttributeBody} (h : OwnListed b header image own visible invisible)
    (hnames : ∀ a ∈ b.attributes.toList, a.name ≠ "BootstrapMethods") :
    own.find? (·.2.name == "BootstrapMethods") = none := by
  have hannotated {flag : Bool} {chosen : List Annotation} {found : Option AttributeBody}
      (hfound : Attribute.AnnotationBody image flag chosen found) :
      ∀ body ∈ found.toList, body.name ≠ "BootstrapMethods" := by
    intro body hbody
    cases found with
    | none => cases hbody
    | some found =>
      obtain ⟨count, encoded, rfl⟩ := hfound.1
      rw [List.mem_singleton.1 hbody]
      cases flag <;> simp [AttributeBody.name]
  have hbodies : ∀ body ∈ own.map Prod.snd, body.name ≠ "BootstrapMethods" := by
    rw [h.listed.bodies]
    simp only [List.forall_mem_append, List.forall_mem_map]
    exact ⟨⟨name_ownBodies b header, hannotated h.visibleBody, hannotated h.invisibleBody⟩, hnames⟩
  refine List.find?_eq_none.2 fun a ha => ?_
  simpa using hbodies a.2 (List.mem_map_of_mem ha)

/-- The last attribute holds the bootstrap methods, which fit. -/
theorem fits_bootstraps {p : ConstantPool} {last : List Attribute}
    (hbodies : last.map Prod.snd = (bootstrapBody p).toList) (hfit : ∀ a ∈ last, a.2.Fits) :
    (p.bootstraps = #[] ∧ last = []) ∨ ∃ a, last = [a] ∧
      a.2 = .bootstrapMethods p.bootstraps.toList ∧ p.bootstraps.size < 65536 ∧
      ∀ m ∈ p.bootstraps.toList, m.arguments.length < 65536 := by
  unfold bootstrapBody at hbodies
  split at hbodies
  · rename_i hempty
    exact Or.inl ⟨Array.isEmpty_iff.1 hempty, List.map_eq_nil_iff.1 hbodies⟩
  · obtain ⟨a, rfl, ha⟩ := List.map_eq_singleton_iff.1 hbodies
    have hfits := hfit a List.mem_cons_self
    rw [ha] at hfits
    exact Or.inr ⟨a, rfl, ha, hfits⟩

/-- The first span with a name holds the first attribute with this name. -/
theorem find?_holding {image : ClassImage} {attributes : List Attribute}
    {spans : List AttributeSpan} (h : image.Holding attributes spans) (name : String) :
    Option.Rel (fun a span => span.Holds image.data a) (attributes.find? (·.2.name == name))
      (spans.find? (·.name == name)) := by
  induction h with
  | nil => exact .none
  | @cons a span attributes spans hspan _ ih =>
    simp only [List.find?_cons, hspan.name]
    cases a.2.name == name
    · exact ih
    · exact .some hspan

/-- Writing adds to the pool, which has no more bootstrap methods than fit. -/
theorem pool_toBytes {bytes : Bytes} (h : toBytes b = .ok bytes b') :
    b.pool.Extended b'.pool ∧ b'.pool.bootstraps.size ≤ 65536 := by
  obtain ⟨header, own, mid, last, -, hown, hlast, -, hfits, -⟩ := toBytes_ok h
  have hmid := ((gives_ownAttributes b header).stable _ _ _ hown).1
  have hend := ((Attribute.gives_makeIf (bootstrapBody mid)).stable _ _ _ hlast).1
  obtain ⟨hbodies, hboots⟩ := ConstantPool.makeIf_ok hlast
  refine ⟨hmid.trans hend, ?_⟩
  rw [hboots]
  rcases fits_bootstraps hbodies fun a ha =>
    (hfits.attributes.2.of_mem (List.mem_append_right own ha)).2 with ⟨hnone, -⟩ | ⟨a, -, -, hlt, -⟩
  · simp [hnone]
  · omega

/-- Some image has read the pool of a class that was written. -/
theorem exists_holds_toBytes {v : SlotVec Constant} {bytes : Bytes} (hpool : b.pool.Backed v)
    (h : toBytes b = .ok bytes b') : ∃ image : ClassImage, image.Holds b'.pool := by
  obtain ⟨hextended, hsize⟩ := pool_toBytes h
  obtain ⟨cs, hcs⟩ := hpool.extended hextended
  exact ⟨{ (default : ClassImage) with
    constants := v.append cs, bootstraps := b'.pool.bootstraps },
    ClassImage.holds_of_backed hcs.backed hsize rfl⟩

/-- A class that was written parses. Its pool and its bootstrap methods are those of the builder, so
that copying its pool gives that of the builder, and its parts are where they were written. -/
theorem parse_toBytes {v : SlotVec Constant} {bytes : Bytes} (hpool : b.pool.Backed v)
    (hnames : ∀ a ∈ b.attributes.toList, a.name ≠ "BootstrapMethods")
    (hversion : ∀ header, b.header = some header → header.version.isSupported = true)
    (h : toBytes b = .ok bytes b') :
    ∃ header own last image visible invisible, b.header = some header ∧
      ClassImage.parse bytes = .ok image ∧ Written b' header (own ++ last) image ∧
      OwnListed b header image own visible invisible ∧
      Attribute.Listed last image (bootstrapBody b'.pool).toList ∧ b.pool.Extended b'.pool ∧
      b' = { b with pool := b'.pool } ∧ image.copyPool = .ok b'.pool := by
  obtain ⟨header, own, mid, last, hheader, hown, hlast, hb', hfits, hbytes⟩ := toBytes_ok h
  have hgives := gives_ownAttributes b header
  have hmake := Attribute.gives_makeIf (bootstrapBody mid)
  have hend := (hmake.stable _ _ _ hlast).1
  obtain ⟨hextended, hsize⟩ := pool_toBytes h
  obtain ⟨cs, hcs⟩ := hpool.extended hextended
  obtain ⟨hbodies, hboots⟩ := ConstantPool.makeIf_ok hlast
  have hbody : bootstrapBody mid = bootstrapBody b'.pool := by
    unfold bootstrapBody
    rw [hboots]
  rw [hbody] at hlast hmake hbodies
  have hlastFits := fits_bootstraps hbodies fun a ha =>
    (hfits.attributes.2.of_mem (List.mem_append_right own ha)).2
  obtain ⟨parts, c, hparts, rfl, hconstants, hempty, hraw, hwritten⟩ :=
    readParts_encode hcs.backed (hversion header hheader) hfits hbytes
  let image : ClassImage := { parts with bootstraps := b'.pool.bootstraps }
  have hholds : image.Holds b'.pool :=
    ClassImage.holds_of_backed (hconstants ▸ hcs.backed) hsize rfl
  have hw : Written b' header (own ++ last) image := hwritten _ hholds
  obtain ⟨visible, invisible, howned⟩ := hgives.answer hown (hholds.of_grows hend.grows)
  have hlisted := hmake.answer hlast hholds
  have hnamed : ∀ a ∈ own ++ last, a.Named parts := (howned.listed.append hlisted).named
  obtain ⟨spans, hspans, hholding⟩ :=
    (ClassImage.finds_readAttributes hfits.attributes.1 hfits.attributes.2 hnamed).runAt
      hw.attributes
  refine ⟨header, own, last, image, visible, invisible, hheader, ?_, hw, howned, hlisted,
    hextended, hb', ?copied⟩
  case copied =>
    have hcopy := hcs.backed.copy
    rw [← hraw, ← hconstants] at hcopy
    exact hcopy
  refine Step.except_bind_ok.2 ⟨parts, Scan.runAt_ok.2 ⟨c, hparts⟩, ?_⟩
  refine Step.except_bind_ok.2 ⟨spans, hspans, ?_⟩
  have hfind := find?_holding hholding "BootstrapMethods"
  rw [List.find?_append, howned.find?_own hnames, Option.none_or] at hfind
  rcases hlastFits with ⟨hnone, rfl⟩ | ⟨a, rfl, ha, hlt, harguments⟩
  · cases hspan : spans.find? (·.name == "BootstrapMethods") with
    | some span =>
      rw [hspan] at hfind
      cases hfind
    | none =>
      simp only [image, hnone, ← hempty]
      rfl
  · cases hspan : spans.find? (·.name == "BootstrapMethods") with
    | none =>
      rw [hspan] at hfind
      simp [ha, AttributeBody.name] at hfind
    | some span =>
      rw [hspan] at hfind
      simp only [ha, AttributeBody.name, List.find?_cons, beq_self_eq_true] at hfind
      have hspanned : span.Holds parts.data a := by
        cases hfind
        assumption
      have hread : Scan.Reads (Scan.counted ClassImage.readBootstrapMethod) a.2.encode
          b'.pool.bootstraps.toList := by
        rw [ha]
        exact Scan.reads_countedBytes hlt fun m hm =>
          ClassImage.reads_readBootstrapMethod (harguments m hm)
      exact Step.except_bind_ok.2 ⟨_, ClassImage.readBody_of_holds hspanned hread, rfl⟩

end ClassBuilder

end JvmClass
