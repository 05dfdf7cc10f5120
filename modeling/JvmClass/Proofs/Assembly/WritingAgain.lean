import JvmClass.Proofs.Assembly.ReadBack
import JvmClass.Proofs.Attribute.Annotations

/-!
# Writing a class again

Making the attributes of a class asks the pool for their names and for what the annotations hold, so
that the pool may grow while the class is written. A pool that has grown by these requests answers
all of them in the same way and does not grow any further (`ConstantPool.Stable`). Whoever writes the
class once more therefore gets the same bytes (`ClassBuilder.toBytes_again`).
-/

namespace JvmClass.ClassBuilder

open ClassImage (nestedMarker)

variable {b b' : ClassBuilder} {bytes : Bytes}

/-- The attributes of a class that was written are made again, and no request adds to the pool. -/
theorem classAttributes_again {header : StoredHeader} {own last : List Attribute}
    {mid pool : ConstantPool} (hown : ownAttributes b header b.pool = .ok own mid)
    (hlast : Attribute.makeIf (bootstrapBody mid) mid = .ok last pool) :
    ownAttributes b header pool = .ok own pool ∧
      Attribute.makeIf (bootstrapBody pool) pool = .ok last pool := by
  obtain ⟨-, hownAgain⟩ := (gives_ownAttributes b header).stable _ _ _ hown
  obtain ⟨hadded, hlastAgain⟩ := (Attribute.gives_makeIf (bootstrapBody mid)).stable _ _ _ hlast
  have hbody : bootstrapBody pool = bootstrapBody mid := by
    unfold bootstrapBody
    rw [(ConstantPool.makeIf_ok hlast).2]
  rw [hbody]
  exact ⟨hownAgain pool hadded.grows, hlastAgain pool (.refl pool)⟩

/-- A pool that has grown while the class was written gives the same bytes. -/
theorem toBytes_grown (h : toBytes b = .ok bytes b') : toBytes b' = .ok bytes b' := by
  obtain ⟨header, own, mid, last, hheader, hown, hlast, hb', hfits, hbytes⟩ := toBytes_ok h
  obtain ⟨hown', hlast'⟩ := classAttributes_again hown hlast
  generalize b'.pool = pool at *
  subst hb'
  have hagain := toBytes_of_fits (b := { b with pool }) hheader hown' hlast' hfits
  rwa [← hbytes, Array.toArray_toList] at hagain

/-- **A class can be written again.** Writing changes nothing but the pool, to which it only adds;
and writing once more, with no event in between, gives the same bytes and changes nothing at all,
neither the pool nor its bootstrap methods. -/
theorem toBytes_again (h : toBytes b = .ok bytes b') :
    b' = { b with pool := b'.pool } ∧ b.pool.Extended b'.pool ∧ toBytes b' = .ok bytes b' := by
  obtain ⟨header, own, mid, last, -, -, -, hb', -⟩ := toBytes_ok h
  exact ⟨hb', (pool_toBytes h).1, toBytes_grown h⟩

/-- A class whose pool holds bootstrap methods, with annotations that have not been stored. -/
def markedClass : ClassBuilder :=
  { bare (ConstantPool.empty.afterAll [.loadable nestedValue]) with
    annotations := #[(nestedMarker, true), (⟨"b", []⟩, false)] }

theorem markedClass_made : ∃ header own mid last pool, markedClass.header = some header ∧
    ownAttributes markedClass header markedClass.pool = .ok own mid ∧
    Attribute.makeIf (bootstrapBody mid) mid = .ok last pool ∧
    markedClass.pool.nextIndex = 21 ∧ pool.nextIndex = 28 ∧
    Fits { markedClass with pool } header (own ++ last) := by
  have hsize (text : String) (h : text ∈ ["A", "a", "b", "c", "f", "I", "()I",
      "RuntimeVisibleAnnotations", "RuntimeInvisibleAnnotations", "BootstrapMethods"]) :
      Text.ModifiedUtf8.encodedSize text < 65536 := by
    revert h text
    decide
  simp [markedClass, bare, fresh, ownAttributes, bootstrapBody, Attribute.makeIf,
    Attribute.makeSignature, Attribute.makeAnnotations, Attribute.makeRaw, Attribute.make,
    AttributeBody.name, nestedMarker, Attribute.annotations, storeAnnotations, Annotation.store,
    storeElements, storeValues, ElementValue.store, Store.index, Store.count, Store.u8, count16,
    Step.of, Step.on, nestedValue, ConstantPool.afterAll, ConstantPool.after, PoolRequest.ask,
    ConstantPool.loadable, ConstantPool.loadables, ConstantPool.methodHandle, ConstantPool.int,
    ConstantPool.float, ConstantPool.double, ConstantPool.addBootstrap, ConstantPool.methodRef,
    ConstantPool.fieldRef, ConstantPool.cls, ConstantPool.nameAndType, ConstantPool.utf8, hsize,
    ConstantPool.intern, ConstantPool.bootstrapAt, ConstantPool.empty, ConstantPool.indexAfter,
    Constant.width, bind, EStateM.bind, pure, EStateM.pure, Step.modify_run,
    ChainTable.getElem?_insert, HandleKind.isField]
  refine ⟨by simp, ⟨by simp, by simp⟩, ⟨by simp, by simp⟩, by simp, ?_⟩
  simp [AttributeBody.AllFit, AttributeBody.Fits, AttributeBody.byteSize, total,
    BootstrapMethod.byteSize]

theorem toBytes_again_markedClass : ∃ bytes b', toBytes markedClass = .ok bytes b' ∧
    markedClass.pool.nextIndex = 21 ∧ b'.pool.nextIndex = 28 ∧ toBytes b' = .ok bytes b' := by
  obtain ⟨header, own, mid, last, pool, hheader, hown, hlast, hbefore, hafter, hfits⟩ :=
    markedClass_made
  have hbytes := toBytes_of_fits hheader hown hlast hfits
  obtain ⟨-, -, hagain⟩ := toBytes_again hbytes
  exact ⟨_, _, hbytes, hbefore, hafter, hagain⟩

end JvmClass.ClassBuilder
