import JvmClass.Proofs.Constant.Section
import JvmClass.Proofs.Image.Parsing

/-!
# Pools that start as copies

The pool of a class file that parses can always be copied, and the copy stores the entries of the
file: duplicates, references to later entries and texts in other than their usual form included.
Requests add entries behind them, so that what was read at an index is read there again. A request
comes down to one entry once its parts have been asked for (`PoolRequest.entry?`); if the file has
that entry, its first index is the answer.

A text is measured before it is looked for. One that the file stores in fewer bytes than its usual
form has, so that only the usual form is too long, is therefore refused although the pool holds it.
-/

namespace JvmClass

/-- The entry that a request comes down to, once its parts have been asked for. Bootstrap methods
are not entries of the pool. -/
def PoolRequest.entry? : PoolRequest → Option (ConstantPool.Request Constant)
  | utf8 text => some (pure (.utf8 text))
  | nameAndType name descriptor => some do
    let name ← ConstantPool.utf8 name
    let descriptor ← ConstantPool.utf8 descriptor
    return .nameAndType name descriptor
  | fieldRef owner name descriptor => some do
    let owner ← ConstantPool.cls owner
    let member ← ConstantPool.nameAndType name descriptor
    return .fieldRef owner member
  | methodRef owner name descriptor ownerIsInterface => some do
    let owner ← ConstantPool.cls owner
    let member ← ConstantPool.nameAndType name descriptor
    return .methodRef owner member ownerIsInterface
  | module name => some do return .module (← ConstantPool.utf8 name)
  | package name => some do return .package (← ConstantPool.utf8 name)
  | loadable (.int value) => some (pure (.int value))
  | loadable (.float bits) => some (pure (.float bits))
  | loadable (.long value) => some (pure (.long value))
  | loadable (.double bits) => some (pure (.double bits))
  | loadable (.string text) => some do return .string (← ConstantPool.utf8 text)
  | loadable (.cls name) => some do return .cls (← ConstantPool.utf8 name)
  | loadable (.methodType descriptor) => some do
    return .methodType (← ConstantPool.utf8 descriptor)
  | loadable (.methodHandle h) => some do
    let member ←
      if h.kind.isField then ConstantPool.fieldRef h.owner h.name h.descriptor
      else ConstantPool.methodRef h.owner h.name h.descriptor h.ownerIsInterface
    return .methodHandle h.kind member
  | loadable (.dynamic name descriptor handle arguments) => some do
    let position ← ConstantPool.bootstrap handle arguments
    let member ← ConstantPool.nameAndType name descriptor
    return .dynamic position member
  | invokeDynamic name descriptor handle arguments => some do
    let position ← ConstantPool.bootstrap handle arguments
    let member ← ConstantPool.nameAndType name descriptor
    return .invokeDynamic position member
  | bootstrap _ _ => none

namespace ConstantPool

variable {p q : ConstantPool} {v : SlotVec Constant}

section Entries

/-- The index of an entry whose parts are there; only a text may be too long for one. -/
def entryIndex : Constant → Request PoolIndex
  | .utf8 text => utf8 text
  | c => intern c

theorem entryIndex_of_fits {c : Constant} (hc : c.Fits) : entryIndex c = intern c := by
  cases c with
  | utf8 text =>
    unfold entryIndex utf8
    exact if_pos hc
  | _ => rfl

/-- A request asks for the parts of its entry and then for the entry. -/
theorem ask_eq_entry {r : PoolRequest} {entry : Request Constant} (h : r.entry? = some entry) :
    r.ask = entry >>= entryIndex := by
  cases r with
  | utf8 text =>
    cases h
    rfl
  | loadable value =>
    cases value with
    | dynamic name descriptor handle arguments =>
      cases h
      simp only [PoolRequest.ask, loadable, bootstrap, bind_assoc, pure_bind, entryIndex]
    | methodHandle h' =>
      cases h
      simp only [PoolRequest.ask, loadable, methodHandle]
      split
      · simp only [bind_assoc, pure_bind, entryIndex]
      · simp only [bind_assoc, pure_bind, entryIndex]
    | _ =>
      cases h
      simp only [PoolRequest.ask, loadable, int, float, long, double, string, cls, methodType,
        bind_assoc, pure_bind, entryIndex]
  | bootstrap handle arguments => cases h
  | _ =>
    cases h
    simp only [PoolRequest.ask, nameAndType, fieldRef, methodRef, module, package, invokeDynamic,
      bind_assoc, pure_bind, entryIndex]

theorem stable_entry {r : PoolRequest} {entry : Request Constant} (h : r.entry? = some entry) :
    Stable entry := by
  have hmember (owner name descriptor : String) (f : PoolIndex → PoolIndex → Constant) :
      Stable (do
        let owner ← cls owner
        let member ← nameAndType name descriptor
        return f owner member) :=
    (stable_cls owner).bind fun _ => (stable_nameAndType name descriptor).map
  have hcomputed (handle : Handle) (arguments : List Loadable) (name descriptor : String)
      (f : UInt16 → PoolIndex → Constant) : Stable (do
        let position ← bootstrap handle arguments
        let member ← nameAndType name descriptor
        return f position member) :=
    (stable_bootstrap handle arguments).bind fun _ => (stable_nameAndType name descriptor).map
  cases r with
  | utf8 text =>
    cases h
    exact stable_pure _
  | nameAndType name descriptor =>
    cases h
    exact (stable_utf8 name).bind fun _ => (stable_utf8 descriptor).map
  | fieldRef owner name descriptor =>
    cases h
    exact hmember owner name descriptor .fieldRef
  | methodRef owner name descriptor ownerIsInterface =>
    cases h
    exact hmember owner name descriptor (.methodRef · · ownerIsInterface)
  | module name | package name =>
    cases h
    exact (stable_utf8 name).map
  | invokeDynamic name descriptor handle arguments =>
    cases h
    exact hcomputed handle arguments name descriptor .invokeDynamic
  | bootstrap handle arguments => cases h
  | loadable value =>
    cases value with
    | int | float | long | double =>
      cases h
      exact stable_pure _
    | string text | cls text | methodType text =>
      cases h
      exact (stable_utf8 text).map
    | methodHandle handle =>
      cases h
      exact stable_ite (stable_fieldRef _ _ _).map (stable_methodRef _ _ _ _).map
    | dynamic name descriptor handle arguments =>
      cases h
      exact hcomputed handle arguments name descriptor .dynamic

end Entries

section Copying

/-- Entries whose indices fit can be registered. -/
theorem registerAll_ok (h : v.Laid) (hv : v.nextOffset < 65536) (hstart : v.start = 1) :
    ∃ q, empty.registerAll (indexed v) = .ok q := by
  induction h with
  | startingAt start => exact ⟨empty, rfl⟩
  | @push w c _ ih =>
    rw [SlotVec.nextOffset_push] at hv
    obtain ⟨q, hq⟩ := ih (by omega) hstart
    have hnext : indexAfter (UInt16.ofNat w.nextOffset) c =
        .ok (UInt16.ofNat (w.nextOffset + c.width)) := by
      unfold indexAfter
      rw [UInt16.toNat_ofNat_of_lt' (show w.nextOffset < 65536 by omega)]
      exact if_pos hv
    rw [indexed_push, registerAll_append, hq]
    simp only [registerAll, hnext]
    exact ⟨_, rfl⟩

theorem copy_ok (h : v.Laid) (hv : v.nextOffset < 65536) (hstart : v.start = 1) (bytes : Bytes)
    (methods : List BootstrapMethod) : ∃ p, ConstantPool.copy bytes (indexed v) methods = .ok p := by
  obtain ⟨q, hq⟩ := registerAll_ok h hv hstart
  have hsame : SameAnswers empty { empty with bytes } := ⟨rfl, rfl, rfl⟩
  obtain ⟨q', hq', -⟩ := hsame.registerAll hq
  unfold ConstantPool.copy
  rw [hq']
  exact ⟨_, rfl⟩

end Copying

end ConstantPool

namespace ClassImage

variable {data : Bytes} {image : ClassImage} {p q : ConstantPool}

/-- The pool of a class file can be copied. -/
theorem backed_copyPool (h : parse data = .ok image) :
    ∃ p, image.copyPool = .ok p ∧ p.Backed image.constants ∧ p.bytes = image.rawPool := by
  obtain ⟨hrun, hlt⟩ := run_rawPool h
  obtain ⟨p, hp⟩ := ConstantPool.copy_ok (hrun.laid (.startingAt 1)) hlt hrun.start_eq
    image.rawPool image.bootstraps.toList
  obtain ⟨hbacked, hbytes, -⟩ := ConstantPool.backed_copy hrun hlt hp
  exact ⟨p, hp, hbacked, hbytes⟩

/-- A copied pool keeps every index of the original. After any requests, answered or not, the pool
is written with the original entries as they were in front of the added ones, and reads back with
the original constant at every original index. A request that comes down to an entry that the
original has, and that is no text of more than 65535 bytes, is answered with the first original
index of the entry, and nothing but its parts is added for it. -/
theorem copyPool_keeps_indices (h : parse data = .ok image) :
    ∃ p, image.copyPool = .ok p ∧ ∀ requests,
      (∃ (added : Bytes) (w : SlotVec Constant), ∀ front back : Bytes,
        let q := p.afterAll requests
        let out := front ++ ((bytes16 q.nextIndex).toArray ++ image.rawPool ++ added)
        q.put front = .ok () out ∧
          Constant.readPool ⟨out ++ back, front.size⟩ = .ok w ⟨out ++ back, out.size⟩ ∧
          ∀ n c, image.constants.get? n = some c → w.get? n = some c) ∧
      ∀ (r : PoolRequest) entry, r.entry? = some entry → ∀ c q,
        entry (p.afterAll requests) = .ok c q → c.Fits →
        (∃ n, image.constants.get? n = some c) →
        ∃ i, r.ask (p.afterAll requests) = .ok i q ∧ image.constants.get? i.toNat = some c ∧
          ∀ n, image.constants.get? n = some c → i.toNat ≤ n := by
  obtain ⟨p, hp, hbacked, hbytes⟩ := backed_copyPool h
  refine ⟨p, hp, fun requests => ⟨?_, ?_⟩⟩
  · obtain ⟨cs, hcs⟩ := hbacked.extended (ConstantPool.extended_afterAll p requests)
    refine ⟨(cs.flatMap Constant.encode).toArray, image.constants.append cs, fun front back => ?_⟩
    intro q out
    have hout : out = front.putAll q.stored := by
      apply Array.toList_inj.1
      rw [Bytes.toList_putAll, ConstantPool.stored, hcs.bytes, hbytes]
      simp [out, q]
    refine ⟨hout ▸ q.put_stored front, ?_, fun n c hc => ?_⟩
    · have hread := hcs.backed.reads_stored front.size (out ++ back)
        ⟨front.toList, back.toList, by simp [hout, q], by simp⟩
      rw [hread, hout, Bytes.size_putAll]
    · exact SlotVec.get?_of_mem Constant.width_pos hcs.backed.laid
        (SlotVec.mem_append (SlotVec.mem_of_get? hc) cs)
  · intro r entry hr c q hentry hfits hheld
    obtain ⟨n, hn⟩ := hheld
    obtain ⟨i, hi⟩ := hbacked.answers hn
    have hext := ConstantPool.extended_afterAll p requests
    have hq := (ConstantPool.stable_entry hr _ _ _ hentry).1
    refine ⟨i, ?_, hbacked.first_get? hi⟩
    rw [ConstantPool.ask_eq_entry hr]
    refine Step.bind_ok.2 ⟨c, q, hentry, ?_⟩
    rw [ConstantPool.entryIndex_of_fits hfits]
    exact ConstantPool.intern_again ((hext.trans hq).grows.constant hi)

/-- Entries with a reference to a later one, and each of them twice. -/
def repeatedEntries : List Constant := [.cls 2, .utf8 "a", .utf8 "a", .cls 2]

theorem copyPool_keeps_indices_repeated : ∃ image p,
    parse (bareClass 5 (repeatedEntries.flatMap Constant.encode)) = .ok image ∧
      image.copyPool = .ok p ∧
      (PoolRequest.loadable (.cls "a")).ask (p.afterAll [.loadable (.long 7)]) =
        .ok 1 (p.afterAll [.loadable (.long 7)]) := by
  have htext : (Constant.utf8 "a").Fits := by
    unfold Constant.Fits
    decide +kernel
  have hfits : ∀ c ∈ repeatedEntries, c.Fits := by
    simp only [repeatedEntries, List.forall_mem_cons]
    exact ⟨trivial, htext, htext, trivial, fun _ h => nomatch h⟩
  obtain ⟨image, himage, hv⟩ := parse_bareClass 5 (Constant.Run.encode hfits _) rfl
  have hlaid : image.constants.Laid := hv ▸ SlotVec.laid_append (.startingAt 1) repeatedEntries
  have hentries : image.constants.entries.toList =
      [(1, .cls 2), (2, .utf8 "a"), (3, .utf8 "a"), (4, .cls 2)] := by
    rw [hv]
    rfl
  obtain ⟨p, hp, hrequests⟩ := copyPool_keeps_indices himage
  have hanswer := (hrequests [.loadable (.long 7)]).2
  have htwo : image.constants.get? 2 = some (.utf8 "a") :=
    SlotVec.get?_of_mem Constant.width_pos hlaid (by simp [hentries])
  have hone : image.constants.get? 1 = some (.cls 2) :=
    SlotVec.get?_of_mem Constant.width_pos hlaid (by simp [hentries])
  -- The text is at its first index, so that the class comes down to the first entry.
  obtain ⟨i, hask, hi, hmin⟩ := hanswer (.utf8 "a") _ rfl (.utf8 "a") _ rfl htext ⟨2, htwo⟩
  have hi2 : i = 2 := by
    have hmem := SlotVec.mem_of_get? hi
    have hle := hmin 2 htwo
    simp [hentries] at hmem
    exact UInt16.toNat_inj.1 (by simp; omega)
  rw [hi2] at hask
  obtain ⟨j, hcls, hj, hmin⟩ := hanswer (.loadable (.cls "a")) _ rfl (.cls 2) _
    (Step.bind_ok.2 ⟨2, _, hask, rfl⟩) trivial ⟨1, hone⟩
  have hj1 : j = 1 := by
    have hmem := SlotVec.mem_of_get? hj
    have hle := hmin 1 hone
    simp [hentries] at hmem
    exact UInt16.toNat_inj.1 (by simp; omega)
  exact ⟨image, p, himage, hp, hj1 ▸ hcls⟩

/-- A text of characters NUL. -/
def nuls (count : Nat) : String := String.ofList (List.replicate count '\x00')

/-- A class file whose pool has a text of characters NUL, each stored as one zero byte. -/
def nulClass (count : Nat) : Bytes :=
  bareClass 2 (1 :: (bytes16 (UInt16.ofNat count) ++ List.replicate count 0))

theorem encodedSize_nuls (count : Nat) : Text.ModifiedUtf8.encodedSize (nuls count) = count * 2 := by
  rw [← Text.ModifiedUtf8.length_encode, Text.ModifiedUtf8.encode, nuls, String.toList_ofList,
    List.length_flatMap, List.map_replicate, List.sum_replicate_nat]
  rfl

theorem decode?_nuls (count : Nat) :
    Text.ModifiedUtf8.decode? (List.replicate count 0) = some (nuls count) := by
  unfold Text.ModifiedUtf8.decode?
  rw [Text.decodeStandard?_ascii fun b hb => ?_]
  · simp [nuls]
  · rw [List.eq_of_mem_replicate hb]
    decide

/-- A text that the file stores in half the bytes of its usual form is known to the copied pool
under its index, but is refused if the usual form is too long. -/
theorem refuses_nuls {count : Nat} (hcount : count < 65536) (hlong : 32768 ≤ count) :
    ∃ image p, parse (nulClass count) = .ok image ∧ image.copyPool = .ok p ∧
      image.constants.get? 1 = some (.utf8 (nuls count)) ∧
      p.indices[Constant.utf8 (nuls count)]? = some 1 ∧
      (PoolRequest.utf8 (nuls count)).ask p = .error (.stringTooLong (count * 2)) p := by
  have hread (index : PoolIndex) : Scan.Reads (Constant.read index)
      (1 :: (bytes16 (UInt16.ofNat count) ++ List.replicate count 0)) (.utf8 (nuls count)) := by
    have htext := Constant.reads_text (by rwa [List.length_replicate]) (decode?_nuls count) index
    rw [List.length_replicate] at htext
    exact (Scan.reads_u8 1).bind htext
  have hrun := (Constant.Run.nil (.startingAt 1)).concat (hread _)
  obtain ⟨image, himage, hv⟩ := parse_bareClass 2 hrun rfl
  have hlaid : image.constants.Laid := hv ▸ (SlotVec.Laid.startingAt 1).push _
  have hone : image.constants.get? 1 = some (.utf8 (nuls count)) :=
    SlotVec.get?_of_mem Constant.width_pos hlaid (by rw [hv]; exact List.mem_singleton_self _)
  obtain ⟨p, hp, hbacked, -⟩ := backed_copyPool himage
  refine ⟨image, p, himage, hp, hone, ?_, ?_⟩
  · rw [hbacked.getElem?_indices, hv]
    simp [SlotVec.push, SlotVec.startingAt]
  · show ConstantPool.utf8 (nuls count) p = _
    simp only [ConstantPool.utf8, encodedSize_nuls]
    rw [if_neg (by omega)]
    rfl

theorem copyPool_refuses_held : ∃ image p,
    parse (nulClass 32768) = .ok image ∧ image.copyPool = .ok p ∧
      image.constants.get? 1 = some (.utf8 (nuls 32768)) ∧
      p.indices[Constant.utf8 (nuls 32768)]? = some 1 ∧
      (PoolRequest.utf8 (nuls 32768)).ask p = .error (.stringTooLong 65536) p :=
  refuses_nuls (by decide) (by decide)

end ClassImage

end JvmClass
