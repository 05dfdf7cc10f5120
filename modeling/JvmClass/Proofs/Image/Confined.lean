import JvmClass.Image.Events
import JvmClass.Proofs.Image.Parsing

/-!
# Reads that data contain

What a read takes are bytes from its start on. Data that have those bytes there are read in the same
way, whatever else they have, and data that end among them are too short: the read stops at the
first number that reaches past the end (`Scan.Short`). This holds of every read of an attribute
(`Scan.Confined`).

Values of annotations are read with a bound on how deep they nest, which comes from the size of the
data. The property is therefore stated of a family of reads, one for each bound: a read that takes
some bytes within one bound takes them within every bound that is no less than their number.
-/

namespace JvmClass

/-- The front of bytes that end later. -/
theorem Spells.cut {data : Bytes} {start stop : Nat} {bytes : List UInt8}
    (h : Spells data start bytes) (hstop : start + bytes.length ≤ stop) :
    Spells (data.extract 0 stop) start bytes := by
  have hsize := h.size_le
  refine .of_getElem (by rw [Array.size_extract]; omega) fun i hi => ?_
  obtain ⟨hlt, he⟩ := h.getElem i hi
  rw [Array.getElem?_extract, if_pos (by omega), Nat.zero_add, Array.getElem?_eq_getElem hlt, he,
    List.getElem?_eq_getElem hi]

namespace Scan

variable {α β : Type} {read : Scan α} {f : Nat → Scan α} {data : Bytes} {start stop depth : Nat}

/-- The read of data that end at `stop` fails with a number that reaches past the end. -/
def Short (read : Scan α) (data : Bytes) (start stop : Nat) : Prop :=
  ∃ offset needed c, read ⟨data.extract 0 stop, start⟩ = .error (.unexpectedEnd offset needed) c ∧
    offset ≤ stop ∧ stop < offset + needed

theorem Short.bind (h : Short read data start stop) (k : α → Scan β) :
    Short (read >>= k) data start stop := by
  obtain ⟨offset, needed, c, he, hle, hlt⟩ := h
  refine ⟨offset, needed, c, ?_, hle, hlt⟩
  show EStateM.bind read k _ = _
  unfold EStateM.bind
  rw [he]

/-- What comes before has all its bytes. -/
theorem Short.after {k : α → Scan β} {a : α} {next : Nat}
    (h : read ⟨data.extract 0 stop, start⟩ = .ok a ⟨data.extract 0 stop, next⟩)
    (hk : Short (k a) data next stop) : Short (read >>= k) data start stop := by
  obtain ⟨offset, needed, c, he, hle, hlt⟩ := hk
  refine ⟨offset, needed, c, ?_, hle, hlt⟩
  show EStateM.bind read k _ = _
  unfold EStateM.bind
  rw [h]
  exact he

/-- What was read off are bytes that the reads of a family with bounds no less than their number
take for the same value in any data; reads of data that end among them are short. -/
def Takes (f : Nat → Scan α) (data : Bytes) (start : Nat) (a : α) (c : Cursor) : Prop :=
  ∃ bytes, c = ⟨data, start + bytes.length⟩ ∧ Spells data start bytes ∧
    (∀ d, bytes.length ≤ d → ReadsAt start (f d) bytes a) ∧
    ∀ stop d, start ≤ stop → stop < start + bytes.length → stop - start ≤ d →
      Short (f d) data start stop

/-- Whatever the read of a family that has the given bound takes, the others take as well. -/
def Confined (f : Nat → Scan α) (depth : Nat) : Prop :=
  ∀ data start a c, start ≤ data.size → f depth ⟨data, start⟩ = .ok a c → Takes f data start a c

section Combinators

theorem confined_pure (a : α) : Confined (fun _ => pure a) depth := by
  intro data start a' c hstart h
  obtain ⟨rfl, rfl⟩ := Step.pure_ok.1 h
  refine ⟨[], rfl, .of_getElem (by simpa using hstart) (by simp), fun _ _ => readsAt_pure a, ?_⟩
  intro stop d hle hlt
  rw [List.length_nil] at hlt
  omega

theorem confined_throw (e : ClassError) : Confined (fun _ => (throw e : Scan α)) depth :=
  fun _ _ _ _ _ h => (Step.throw_ok.1 h).elim

theorem confined_of (x : Except ClassError α) : Confined (fun _ => Step.of x) depth := by
  cases x with
  | ok a => exact confined_pure a
  | error e => exact confined_throw e

theorem Confined.bind {k : α → Nat → Scan β} (h : Confined f depth)
    (hk : ∀ a, Confined (k a) depth) : Confined (fun d => f d >>= fun a => k a d) depth := by
  intro data start b c hstart hb
  obtain ⟨a, _, ha, hb⟩ := Step.bind_ok.1 hb
  obtain ⟨front, rfl, hs, hr, hshort⟩ := h data start a _ hstart ha
  obtain ⟨rest, rfl, hs', hr', hshort'⟩ := hk a data _ b c hs.size_le hb
  have hlength : (front ++ rest).length = front.length + rest.length := List.length_append
  refine ⟨front ++ rest, by rw [hlength, Nat.add_assoc], hs.append hs', fun d hd => ?_, ?_⟩
  · exact (hr d (by omega)).bind (hr' d (by omega))
  · intro stop d hstop hlt hd
    by_cases hfront : start + front.length ≤ stop
    · have hread := hr d (by omega) _ (hs.cut hfront)
      exact .after hread (hshort' stop d hfront (by omega) (by omega))
    · exact (hshort stop d hstop (by omega) hd).bind _

theorem Confined.map {g : α → β} (h : Confined f depth) :
    Confined (fun d => do return g (← f d)) depth := h.bind fun a => confined_pure (g a)

theorem confined_ite {c : Prop} [Decidable c] {f' : Nat → Scan α} (h : Confined f depth)
    (h' : Confined f' depth) : Confined (fun d => if c then f d else f' d) depth := by
  by_cases hc : c
  · simpa only [if_pos hc] using h
  · simpa only [if_neg hc] using h'

theorem Confined.timesFrom (h : Confined f depth) (n : Nat) (done : List α) :
    Confined (fun d => timesFrom (f d) done n) depth := by
  induction n generalizing done with
  | zero => exact confined_pure done.reverse
  | succ n ih => exact h.bind fun a => ih (a :: done)

theorem Confined.times (h : Confined f depth) (n : Nat) :
    Confined (fun d => times n (f d)) depth := h.timesFrom n []

/-- A read that looks only at where it is. -/
theorem confined_offset {k : Nat → Nat → Scan α} (h : ∀ n, Confined (k n) depth) :
    Confined (fun d => get >>= fun c => k c.offset d) depth :=
  fun data start a c hstart hk => h start data start a c hstart hk

/-- A read whose bound is the size of the rest of the data. -/
theorem confined_remaining (h : ∀ depth, Confined f depth) :
    Confined (fun _ => get >>= fun c => f c.remaining) depth := by
  intro data start a c hstart hf
  obtain ⟨bytes, hc, hs, hr, hshort⟩ := h (data.size - start) data start a c hstart hf
  refine ⟨bytes, hc, hs, fun _ _ data' hs' => ?_, fun stop _ hle hlt _ => ?_⟩
  · have hsize := hs'.size_le
    exact hr (data'.size - start) (by omega) data' hs'
  · have hsize : (data.extract 0 stop).size = stop := by
      have := hs.size_le
      rw [Array.size_extract]
      omega
    obtain ⟨offset, needed, c', he, hbound⟩ := hshort stop (stop - start) hle hlt (Nat.le_refl _)
    refine ⟨offset, needed, c', ?_, hbound⟩
    show f ((data.extract 0 stop).size - start) _ = _
    rw [hsize]
    exact he

end Combinators

section Numbers

/-- A read of a number of bytes. -/
theorem Local.confined {size : Nat} (h : Local read)
    (hok : ∀ c a c', read c = .ok a c' → c'.offset = c.offset + size)
    (hshort : ∀ c : Cursor, ¬ c.offset + size ≤ c.data.size →
      read c = .error (.unexpectedEnd c.offset size) c) : Confined (fun _ => read) depth := by
  intro data start a c hstart hread
  obtain ⟨bytes, rfl, hs, hr⟩ := h data start a c hstart hread
  have hsize : bytes.length = size := Nat.add_left_cancel (hok _ _ _ hread)
  refine ⟨bytes, rfl, hs, fun _ _ => hr start, fun stop _ hle hlt _ => ?_⟩
  refine ⟨start, size, _, hshort _ ?_, hle, by omega⟩
  simp only [Array.size_extract]
  omega

theorem confined_u8 : Confined (fun _ => u8) depth :=
  local_u8.confined (fun _ _ _ h => by rw [u8_ok h]) fun _ h => dif_neg h

theorem confined_u16 : Confined (fun _ => u16) depth :=
  local_u16.confined (fun _ _ _ h => by rw [u16_ok h]) fun _ h => dif_neg h

theorem confined_u32 : Confined (fun _ => u32) depth :=
  local_u32.confined (fun _ _ _ h => by rw [u32_ok h]) fun _ h => dif_neg h

theorem confined_bytes (n : Nat) : Confined (fun _ => Scan.bytes n) depth := by
  refine (local_bytes n).confined (fun c a c' h => ?_) fun c h => if_neg h
  unfold Scan.bytes at h
  split at h
  · cases h
    rfl
  · cases h

theorem confined_skip (n : Nat) : Confined (fun _ => skip n) depth := by
  rw [skip_eq_bytes]
  exact (confined_bytes n).bind fun _ => confined_pure ()

theorem Confined.counted (h : Confined f depth) : Confined (fun d => counted (f d)) depth :=
  confined_u16.bind fun n => h.times n.toNat

end Numbers

section Attributes

variable {a : α} {c : Cursor}

/-- A read of an attribute: data contain it or are too short for it, and it begins in the data. -/
structure Bounded (read : Scan α) : Prop where
  confined : Confined (fun _ => read) 0
  start_le : ∀ {data start a c}, read ⟨data, start⟩ = .ok a c → start ≤ data.size

theorem bounded_u16 : Bounded u16 where
  confined := confined_u16
  start_le h := by
    unfold u16 at h
    split at h
    · rename_i hsize
      exact Nat.le_of_add_right_le hsize
    · cases h

/-- Every attribute that is interpreted begins with a number of sixteen bits. -/
theorem bounded_of_u16 {k : UInt16 → Scan α} (h : Confined (fun _ => u16 >>= k) 0) :
    Bounded (u16 >>= k) where
  confined := h
  start_le hread := by
    obtain ⟨n, mid, hn, -⟩ := Step.bind_ok.1 hread
    exact bounded_u16.start_le hn

/-- A read stays before an end, in which case nothing from there on matters to it, or data with that
end are too short for it. -/
theorem Bounded.stays_or_short (h : Bounded read) (hread : read ⟨data, start⟩ = .ok a c)
    (hstop : start ≤ stop) : ∃ next, c = ⟨data, next⟩ ∧
      ((next ≤ stop ∧ ∀ data' : Bytes, stop ≤ data'.size →
          (∀ i, start ≤ i → i < stop → data'[i]? = data[i]?) →
          read ⟨data', start⟩ = .ok a ⟨data', next⟩) ∨
        (stop < next ∧ Short read data start stop)) := by
  obtain ⟨bytes, rfl, hs, hr, hshort⟩ := h.confined data start a c (h.start_le hread) hread
  refine ⟨_, rfl, ?_⟩
  by_cases hnext : start + bytes.length ≤ stop
  · refine Or.inl ⟨hnext, fun data' hsize hsame => ?_⟩
    refine hr _ (Nat.le_refl _) data' (.of_getElem (by omega) fun i hi => ?_)
    obtain ⟨hlt, he⟩ := hs.getElem i hi
    rw [hsame _ (by omega) (by omega), Array.getElem?_eq_getElem hlt, he,
      List.getElem?_eq_getElem hi]
  · exact Or.inr ⟨by omega, hshort stop (stop - start) hstop (by omega) (Nat.le_refl _)⟩

end Attributes

end Scan

end JvmClass
