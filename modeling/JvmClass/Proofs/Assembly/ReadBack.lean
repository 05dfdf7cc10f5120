import JvmClass.Proofs.Assembly.ClassFile
import JvmClass.Proofs.Constant.Interning
import JvmClass.Proofs.Constant.Room

/-!
# Values that are read back

A value that a pool was asked for is what a class that is written with the pool reads at the index
of the answer, whatever else the pool was asked for before and after. Only field handles lose
something on the way: an entry for a field does not say whether its owner is an interface.
-/

namespace JvmClass

mutual

/-- The handles in a value, at any depth. -/
def Loadable.handles : Loadable → List Handle
  | .methodHandle handle => [handle]
  | .dynamic _ _ bootstrap arguments => bootstrap :: handlesOfAll arguments
  | _ => []

/-- The handles in some values. -/
def handlesOfAll : List Loadable → List Handle
  | [] => []
  | value :: rest => value.handles ++ handlesOfAll rest

end

/-- The handle refers to a field of a class that is said to be no interface, or not to a field. -/
def Handle.Kept (h : Handle) : Prop := h.kind.isField = true → h.ownerIsInterface = false

theorem Handle.stored_of_kept {h : Handle} (hkept : h.Kept) : h.stored = h := by
  obtain ⟨kind, owner, name, descriptor, ownerIsInterface⟩ := h
  cases hfield : kind.isField with
  | true =>
    have hclass : ownerIsInterface = false := hkept hfield
    simp [stored, hfield, hclass]
  | false => simp [stored, hfield]

mutual

theorem Loadable.stored_of_kept : (value : Loadable) → (∀ h ∈ value.handles, h.Kept) →
    value.stored = value
  | .int _, _ | .float _, _ | .long _, _ | .double _, _ | .string _, _ | .cls _, _
  | .methodType _, _ => rfl
  | .methodHandle handle, hkept => by
    rw [Loadable.stored, Handle.stored_of_kept (hkept handle List.mem_cons_self)]
  | .dynamic name descriptor bootstrap arguments, hkept => by
    obtain ⟨hbootstrap, harguments⟩ := List.forall_mem_cons.1 hkept
    rw [Loadable.stored, Handle.stored_of_kept hbootstrap, storedAll_of_kept arguments harguments]

theorem storedAll_of_kept : (values : List Loadable) → (∀ h ∈ handlesOfAll values, h.Kept) →
    storedAll values = values
  | [], _ => rfl
  | value :: rest, hkept => by
    obtain ⟨hvalue, hrest⟩ := List.forall_mem_append.1 hkept
    rw [storedAll, value.stored_of_kept hvalue, storedAll_of_kept rest hrest]

end

namespace ClassBuilder

variable {b b' : ClassBuilder} {bytes : Bytes}

/-- A value whose field handles have owners that are said to be no interfaces. Once the pool has
answered a request for it, whatever it was asked before, a class that is written with any later
state of the pool is read, and the value is what is read at the index of the answer. -/
theorem loadable_reads_back (value : Loadable) (hkept : ∀ h ∈ value.handles, h.Kept)
    (requests later : List PoolRequest) {i : PoolIndex} {p : ConstantPool}
    (hasked : ConstantPool.loadable value (ConstantPool.empty.afterAll requests) = .ok i p)
    (hpool : b.pool = p.afterAll later)
    (hnames : ∀ a ∈ b.attributes.toList, a.name ≠ "BootstrapMethods")
    (hversion : ∀ header, b.header = some header → header.version.isSupported = true)
    (hwritten : toBytes b = .ok bytes b') :
    ∃ image, ClassImage.parse bytes = .ok image ∧ image.loadable i = .ok value := by
  have hbefore := ConstantPool.extended_afterAll ConstantPool.empty requests
  have hanswer := (ConstantPool.stable_loadable value _ _ _ hasked).1
  have hafter := ConstantPool.extended_afterAll p later
  obtain ⟨cs, hcs⟩ :=
    ConstantPool.backed_empty.extended ((hbefore.trans hanswer).trans hafter)
  obtain ⟨header, own, last, image, visible, invisible, -, hparse, hw, -, -, hext, -⟩ :=
    parse_toBytes (hpool ▸ hcs.backed) hnames hversion hwritten
  have hholds : image.Holds p := hw.holds.of_grows (hafter.trans (hpool ▸ hext)).grows
  refine ⟨image, hparse, ?_⟩
  rw [ClassImage.loadable_back value hasked hholds, value.stored_of_kept hkept]

/-- A value that a method computes from one that a field refers to. -/
def nestedValue : Loadable :=
  .dynamic "a" "I" ⟨.invokeStatic, "A", "f", "()I", true⟩
    [.dynamic "b" "I" ⟨.getStatic, "A", "c", "I", false⟩ [.double 1]]

theorem nested_asked : ∃ p,
    ConstantPool.loadable nestedValue (ConstantPool.empty.afterAll [.loadable (.cls "A")]) =
      .ok 20 p ∧ (p.afterAll [.utf8 "z"]).nextIndex = 22 ∧
      (p.afterAll [.utf8 "z"]).bootstraps = #[⟨12, [13]⟩, ⟨7, [17]⟩] := by
  have hsize (text : String) (h : text ∈ ["A", "a", "b", "c", "f", "I", "()I", "z"]) :
      Text.ModifiedUtf8.encodedSize text < 65536 := by
    revert h text
    decide
  simp [nestedValue, ConstantPool.afterAll, ConstantPool.after, PoolRequest.ask,
    ConstantPool.loadable, ConstantPool.loadables, ConstantPool.methodHandle, ConstantPool.double,
    ConstantPool.addBootstrap, ConstantPool.methodRef, ConstantPool.fieldRef, ConstantPool.cls,
    ConstantPool.nameAndType, ConstantPool.utf8, hsize, ConstantPool.intern,
    ConstantPool.bootstrapAt, ConstantPool.empty, ConstantPool.indexAfter, Constant.width, bind,
    EStateM.bind, pure, EStateM.pure, ChainTable.getElem?_insert, HandleKind.isField]

/-- A class with a header and a pool and nothing else. -/
def bare (p : ConstantPool) : ClassBuilder :=
  { fresh default Hierarchy.flat with
    pool := p
    header := some ⟨⟨52, 0⟩, ⟨0x21⟩, ⟨"A"⟩, 2, 0, [], none⟩ }

/-- Such a class is written if the pool has room for one more text and the bootstrap methods fit. -/
theorem toBytes_bare {p : ConstantPool} (hroom : p.nextIndex.toNat ≤ 65530)
    (hfits : AttributeBody.Fits (.bootstrapMethods p.bootstraps.toList))
    (hsize : AttributeBody.byteSize (.bootstrapMethods p.bootstraps.toList) < 4294967296) :
    ∃ bytes b', toBytes (bare p) = .ok bytes b' := by
  have hname : Text.ModifiedUtf8.encodedSize "BootstrapMethods" < 65536 := by decide
  obtain ⟨i, q, hi, -⟩ := ConstantPool.intern_of_room (.utf8 "BootstrapMethods") hroom (by decide)
  have hutf8 : ConstantPool.utf8 "BootstrapMethods" p = .ok i q := by
    simp only [ConstantPool.utf8, if_pos hname, hi]
  have hlast : ∃ last pool, Attribute.makeIf (bootstrapBody p) p = .ok last pool ∧
      last.length < 65536 ∧ AttributeBody.AllFit last := by
    unfold bootstrapBody
    split
    · exact ⟨[], p, rfl, Nat.zero_lt_succ _, trivial⟩
    · refine ⟨[(i, .bootstrapMethods p.bootstraps.toList)], q, ?_, by simp, hsize, hfits, trivial⟩
      exact Step.bind_ok.2 ⟨_, q, Step.bind_ok.2 ⟨i, q, hutf8, rfl⟩, rfl⟩
  obtain ⟨last, pool, hlast, hlastFits⟩ := hlast
  have hown : ownAttributes (bare p) ⟨⟨52, 0⟩, ⟨0x21⟩, ⟨"A"⟩, 2, 0, [], none⟩ p = .ok [] p := rfl
  exact ⟨_, _, toBytes_of_fits (b := bare p) rfl hown hlast
    ⟨Nat.zero_lt_succ _, ⟨Nat.zero_lt_succ _, List.forall_mem_nil _⟩,
      ⟨Nat.zero_lt_succ _, List.forall_mem_nil _⟩, hlastFits⟩⟩

theorem nested_value_reads_back : ∃ p bytes b' image,
    (∀ h ∈ nestedValue.handles, h.Kept) ∧
    ConstantPool.loadable nestedValue (ConstantPool.empty.afterAll [.loadable (.cls "A")]) =
      .ok 20 p ∧
    toBytes (bare (p.afterAll [.utf8 "z"])) = .ok bytes b' ∧
    ClassImage.parse bytes = .ok image ∧ image.loadable 20 = .ok nestedValue := by
  obtain ⟨p, hp, hnext, hboots⟩ := nested_asked
  obtain ⟨bytes, b', hbytes⟩ := toBytes_bare (p := p.afterAll [.utf8 "z"]) (by rw [hnext]; decide)
    (by rw [hboots]; simp [AttributeBody.Fits]) (by rw [hboots]; decide)
  have hkept : ∀ h ∈ nestedValue.handles, h.Kept := by
    simp [nestedValue, Loadable.handles, handlesOfAll, Handle.Kept, HandleKind.isField]
  have hversion : ∀ header, (bare (p.afterAll [.utf8 "z"])).header = some header →
      header.version.isSupported = true := by
    rintro _ ⟨⟩
    decide
  obtain ⟨image, hparse, hvalue⟩ := loadable_reads_back nestedValue hkept [.loadable (.cls "A")]
    [.utf8 "z"] hp rfl (by simp [bare, fresh]) hversion hbytes
  exact ⟨p, bytes, b', image, hkept, hp, hbytes, hparse, hvalue⟩

end ClassBuilder

end JvmClass
