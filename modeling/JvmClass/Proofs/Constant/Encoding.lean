import JvmClass.Constant.Decode
import JvmClass.Proofs.Cursor
import JvmClass.Proofs.SlotVec
import JvmClass.Proofs.Text.ModifiedUtf8

/-!
# Stored constants read back

Every entry reads back from its bytes. The pool section is a run of such entries, each read with the
index that the entries before it leave (`Constant.Run`), and reading the section follows the run to
its end and no further.
-/

namespace JvmClass.Constant

open Scan (Reads Local)

/-- What can be stored: the size of a text has sixteen bits. -/
def Fits : Constant → Prop
  | utf8 text => Text.ModifiedUtf8.encodedSize text < 65536
  | _ => True

/-- A text is read from whatever bytes it is the reading of. -/
theorem reads_text {bytes : List UInt8} {text : String} (hsize : bytes.length < 65536)
    (h : Text.ModifiedUtf8.decode? bytes = some text) (index : PoolIndex) :
    Reads (readPayload index 1) (bytes16 (UInt16.ofNat bytes.length) ++ bytes) (.utf8 text) := by
  refine (Scan.reads_u16 _).bind ?_
  rw [UInt16.toNat_ofNat_of_lt' hsize]
  refine ((Scan.reads_bytes bytes).bind ?_).cast (List.append_nil _)
  rw [List.toList_toArray, h]
  exact Scan.reads_pure _

/-- An entry reads back. -/
theorem reads_encode {c : Constant} (hc : c.Fits) (index : PoolIndex) :
    Reads (read index) c.encode c := by
  unfold read
  show Reads _ ([c.tag] ++ c.payload) c
  refine (Scan.reads_u8 c.tag).bind ?_
  cases c with
  | utf8 text =>
    have hsize := Text.ModifiedUtf8.length_encode text
    have hread := reads_text (hsize ▸ hc) (Text.ModifiedUtf8.decode?_encode text) index
    rwa [hsize] at hread
  | int value => exact (Scan.reads_i32 value).map
  | float bits => exact (Scan.reads_u32 bits).map
  | long value => exact (Scan.reads_i64 value).map
  | double bits => exact (Scan.reads_u64 bits).map
  | cls name => exact (Scan.reads_u16 name).map
  | string text => exact (Scan.reads_u16 text).map
  | fieldRef owner member => exact (Scan.reads_u16 owner).bind (Scan.reads_u16 member).map
  | methodRef owner member ownerIsInterface =>
    cases ownerIsInterface with
    | false => exact (Scan.reads_u16 owner).bind (Scan.reads_u16 member).map
    | true => exact (Scan.reads_u16 owner).bind (Scan.reads_u16 member).map
  | nameAndType name descriptor =>
    exact (Scan.reads_u16 name).bind (Scan.reads_u16 descriptor).map
  | methodHandle kind member =>
    show Reads _ ([kind.code] ++ bytes16 member) _
    refine (Scan.reads_u8 _).bind ?_
    rw [HandleKind.ofCode?_code]
    exact (Scan.reads_u16 member).map
  | methodType descriptor => exact (Scan.reads_u16 descriptor).map
  | dynamic bootstrap member => exact (Scan.reads_u16 bootstrap).bind (Scan.reads_u16 member).map
  | invokeDynamic bootstrap member =>
    exact (Scan.reads_u16 bootstrap).bind (Scan.reads_u16 member).map
  | module name => exact (Scan.reads_u16 name).map
  | package name => exact (Scan.reads_u16 name).map

/-- Only the bytes of an entry decide how it is read. -/
theorem local_read (index : PoolIndex) : Local (read index) := by
  refine Scan.local_u8.bind fun tag => ?_
  unfold readPayload
  have hpair (f : UInt16 → UInt16 → Constant) :
      Local (do let a ← Scan.u16; return f a (← Scan.u16)) :=
    Scan.local_u16.bind fun _ => Scan.local_u16.map
  refine Scan.local_ite ?_ ?_
  · refine Scan.local_u16.bind fun size => (Scan.local_bytes _).bind fun bytes => ?_
    split
    · exact Scan.local_pure _
    · exact Scan.local_throw _
  refine Scan.local_ite (Scan.local_u32.map (f := UInt32.toInt32)).map ?_
  refine Scan.local_ite Scan.local_u32.map ?_
  refine Scan.local_ite (Scan.local_u64.map (f := UInt64.toInt64)).map ?_
  refine Scan.local_ite Scan.local_u64.map ?_
  refine Scan.local_ite Scan.local_u16.map ?_
  refine Scan.local_ite Scan.local_u16.map ?_
  refine Scan.local_ite (hpair _) ?_
  refine Scan.local_ite (hpair _) ?_
  refine Scan.local_ite (hpair _) ?_
  refine Scan.local_ite ?_ ?_
  · refine Scan.local_u8.bind fun code => ?_
    split
    · exact Scan.local_u16.map
    · exact Scan.local_throw _
  refine Scan.local_ite Scan.local_u16.map ?_
  refine Scan.local_ite (hpair _) ?_
  refine Scan.local_ite (hpair _) ?_
  refine Scan.local_ite Scan.local_u16.map ?_
  exact Scan.local_ite Scan.local_u16.map (Scan.local_throw _)

theorem width_pos (c : Constant) : 0 < c.width := by
  unfold width
  split <;> omega

/-- Bytes of entries that are read one after another, from some entries on to others. -/
inductive Run : SlotVec Constant → List UInt8 → SlotVec Constant → Prop where
  | nil (v : SlotVec Constant) : Run v [] v
  | cons {v w : SlotVec Constant} {c : Constant} {bytes rest : List UInt8}
    (read : Reads (read (UInt16.ofNat v.nextOffset)) bytes c) (run : Run (v.push c) rest w) :
    Run v (bytes ++ rest) w

namespace Run

variable {u v w : SlotVec Constant} {a b bytes : List UInt8}

theorem append (h : Run u a v) (h' : Run v b w) : Run u (a ++ b) w := by
  induction h with
  | nil v => exact h'
  | cons read _ ih =>
    rw [List.append_assoc]
    exact .cons read (ih h')

/-- An entry at the end of a run. -/
theorem concat (h : Run u a v) {c : Constant}
    (hr : Reads (read (UInt16.ofNat v.nextOffset)) b c) : Run u (a ++ b) (v.push c) := by
  have := h.append (.cons hr (.nil (v.push c)))
  rwa [List.append_nil] at this

/-- The bytes of entries in order. -/
theorem encode {cs : List Constant} (h : ∀ c ∈ cs, c.Fits) (v : SlotVec Constant) :
    Run v (cs.flatMap Constant.encode) (v.append cs) := by
  induction cs generalizing v with
  | nil => exact .nil v
  | cons c rest ih =>
    exact .cons (reads_encode (h c List.mem_cons_self) _)
      (ih (fun d hd => h d (List.mem_cons_of_mem _ hd)) (v.push c))

theorem nextOffset_le (h : Run u a v) : u.nextOffset ≤ v.nextOffset := by
  induction h with
  | nil v => exact Nat.le_refl _
  | cons read _ ih =>
    rw [SlotVec.nextOffset_push] at ih
    omega

theorem start_eq (h : Run u a v) : v.start = u.start := by
  induction h with
  | nil v => rfl
  | cons _ _ ih => exact ih

theorem laid (h : Run u a v) (hu : u.Laid) : v.Laid := by
  induction h with
  | nil v => exact hu
  | cons read _ ih => exact ih (hu.push _)

/-- Reading up to the index that a run ends at follows the run. -/
theorem reads_readEntries (h : Run u a v) {count : UInt16} {budget : Nat}
    (hcount : count.toNat = v.nextOffset) (hbudget : count.toNat ≤ u.nextOffset + budget) :
    Reads (readEntries count budget u) a v := by
  induction h generalizing budget with
  | nil v =>
    cases budget with
    | zero => exact Scan.reads_pure v
    | succ budget =>
      unfold readEntries
      rw [if_neg (by omega)]
      exact Scan.reads_pure v
  | @cons u v c bytes rest read run ih =>
    have hle := run.nextOffset_le
    have hpos := width_pos c
    have hpush : (u.push c).nextOffset = u.nextOffset + c.width := SlotVec.nextOffset_push u c
    cases budget with
    | zero => omega
    | succ budget =>
      unfold readEntries
      rw [if_pos (by omega)]
      refine read.bind ?_
      have hlt := count.toNat_lt
      simp only
      rw [if_pos (by omega)]
      exact ih hcount (by omega)

end Run

/-- What reading entries takes is a run of entries. -/
theorem run_of_readEntries {count : UInt16} {budget start : Nat} {v w : SlotVec Constant}
    {data : Bytes} {c : Cursor} (hstart : start ≤ data.size) (hv : v.nextOffset < 65536)
    (h : readEntries count budget v ⟨data, start⟩ = .ok w c) :
    ∃ bytes, c = ⟨data, start + bytes.length⟩ ∧ Spells data start bytes ∧ Run v bytes w ∧
      w.nextOffset < 65536 := by
  have hstop : Spells data start [] := .of_getElem (by simpa using hstart) (by simp)
  induction budget generalizing v start with
  | zero =>
    obtain ⟨rfl, rfl⟩ := Step.pure_ok.1 h
    exact ⟨[], rfl, hstop, .nil v, hv⟩
  | succ budget ih =>
    unfold readEntries at h
    split at h
    · obtain ⟨entry, mid, hr, h⟩ := Step.bind_ok.1 h
      split at h
      · rename_i hlt
        obtain ⟨front, rfl, hs, hreads⟩ := local_read _ data start entry mid hstart hr
        obtain ⟨rest, rfl, hs', hrun, hw⟩ := ih hs.size_le hlt h
          (.of_getElem (by simpa using hs.size_le) (by simp))
        refine ⟨front ++ rest, ?_, hs.append hs', .cons hreads hrun, hw⟩
        rw [List.length_append, Nat.add_assoc]
      · exact (Step.throw_ok.1 h).elim
    · obtain ⟨rfl, rfl⟩ := Step.pure_ok.1 h
      exact ⟨[], rfl, hstop, .nil v, hv⟩

/-- The pool section: a count and a run of entries up to it. -/
theorem reads_readPool {bytes : List UInt8} {v : SlotVec Constant} {count : UInt16}
    (h : Run (.startingAt 1) bytes v) (hcount : count.toNat = v.nextOffset) :
    Reads readPool (bytes16 count ++ bytes) v :=
  (Scan.reads_u16 count).bind (h.reads_readEntries hcount (by omega))

theorem run_of_readPool {data : Bytes} {start : Nat} {v : SlotVec Constant} {c : Cursor}
    (h : readPool ⟨data, start⟩ = .ok v c) :
    ∃ bytes, c = ⟨data, start + 2 + bytes.length⟩ ∧ Spells data (start + 2) bytes ∧
      Run (.startingAt 1) bytes v ∧ v.nextOffset < 65536 := by
  obtain ⟨count, mid, hu, h⟩ := Step.bind_ok.1 h
  unfold Scan.u16 at hu
  split at hu
  · rename_i hsize
    cases hu
    exact run_of_readEntries hsize (by decide) h
  · cases hu

end JvmClass.Constant
