import JvmClass.Cursor
import JvmClass.Proofs.Bytes
import Mathlib.Data.List.Forall2
import Mathlib.Tactic.IntervalCases

/-!
# What reads take

A read takes bytes for a value if it does so wherever the bytes stand in whatever data
(`Scan.Reads`). Reads that follow one another take bytes that follow one another. Conversely, what
a read has taken is a run of bytes that it takes for the same value everywhere (`Scan.Local`).
-/

namespace JvmClass

/-- What one list has is related to something that the other one has. -/
theorem exists_of_forall₂ {α β : Type} {R : α → β → Prop} {as : List α} {bs : List β}
    (h : List.Forall₂ R as bs) {b : β} (hb : b ∈ bs) : ∃ a ∈ as, R a b := by
  induction h with
  | nil => cases hb
  | @cons a b as bs hab _ ih =>
    rcases List.mem_cons.1 hb with rfl | hb
    · exact ⟨a, List.mem_cons_self, hab⟩
    · exact (ih hb).imp fun a h => ⟨List.mem_cons_of_mem _ h.1, h.2⟩

/-- The bytes stand at a position of the data. -/
def Spells (data : Bytes) (start : Nat) (bytes : List UInt8) : Prop :=
  ∃ front back, data.toList = front ++ bytes ++ back ∧ front.length = start

namespace Spells

variable {data : Bytes} {start : Nat} {a b bytes : List UInt8}

theorem size_le (h : Spells data start bytes) : start + bytes.length ≤ data.size := by
  obtain ⟨front, back, hdata, rfl⟩ := h
  rw [← Array.length_toList, hdata, List.length_append, List.length_append]
  omega

theorem left (h : Spells data start (a ++ b)) : Spells data start a := by
  obtain ⟨front, back, hdata, hstart⟩ := h
  exact ⟨front, b ++ back, by rw [hdata]; simp, hstart⟩

theorem right (h : Spells data start (a ++ b)) : Spells data (start + a.length) b := by
  obtain ⟨front, back, hdata, rfl⟩ := h
  exact ⟨front ++ a, back, by rw [hdata]; simp, List.length_append⟩

theorem append (ha : Spells data start a) (hb : Spells data (start + a.length) b) :
    Spells data start (a ++ b) := by
  obtain ⟨front, back, hdata, rfl⟩ := ha
  obtain ⟨front', back', hdata', hlen⟩ := hb
  refine ⟨front, back', ?_, rfl⟩
  rw [List.append_assoc] at hdata'
  obtain ⟨hfront, -⟩ := List.append_inj (hdata'.symm.trans hdata) (by simp [hlen])
  rw [hdata', hfront]
  simp

theorem getElem (h : Spells data start bytes) (i : Nat) (hi : i < bytes.length) :
    ∃ hlt : start + i < data.size, data[start + i] = bytes[i] := by
  have hsize := h.size_le
  refine ⟨by omega, ?_⟩
  obtain ⟨front, back, hdata, rfl⟩ := h
  rw [← Array.getElem_toList]
  simp only [hdata]
  rw [List.getElem_append_left (by simp; omega), List.getElem_append_right (by omega)]
  simp

theorem extract (h : Spells data start bytes) :
    data.extract start (start + bytes.length) = bytes.toArray := by
  obtain ⟨front, back, hdata, rfl⟩ := h
  apply Array.toList_inj.1
  rw [Array.toList_extract, List.extract_eq_drop_take', hdata, List.append_assoc,
    List.take_length_add_append, List.drop_left, List.take_left]

/-- The data from a position up to another one. -/
theorem of_extract {stop : Nat} (h : start ≤ stop) (hstop : stop ≤ data.size) :
    Spells data start (data.extract start stop).toList := by
  refine ⟨data.toList.take start, data.toList.drop stop, ?_, by simp; omega⟩
  rw [Array.toList_extract, List.extract_eq_drop_take']
  have := List.take_append_drop stop data.toList
  have htake : (data.toList.take stop).take start ++ (data.toList.take stop).drop start =
      data.toList.take stop := List.take_append_drop start _
  rw [List.take_take, Nat.min_eq_left h] at htake
  rw [htake, this]

theorem of_getElem (hsize : start + bytes.length ≤ data.size)
    (h : ∀ i, i < bytes.length → data[start + i]? = bytes[i]?) : Spells data start bytes := by
  have hbytes : (data.extract start (start + bytes.length)).toList = bytes := by
    apply List.ext_getElem?
    intro i
    rw [Array.getElem?_toList, Array.getElem?_extract]
    split
    · exact h i (by omega)
    · rw [List.getElem?_eq_none (by omega)]
  rw [← hbytes]
  exact of_extract (by omega) hsize

/-- Data that agree with others on a run of bytes have this run too. -/
theorem congr {data' : Bytes} (h : Spells data start bytes) (hsize : data'.size = data.size)
    (hsame : ∀ i, start ≤ i → i < start + bytes.length → data'[i]? = data[i]?) :
    Spells data' start bytes := by
  refine of_getElem (hsize ▸ h.size_le) fun i hi => ?_
  obtain ⟨hlt, he⟩ := h.getElem i hi
  rw [hsame _ (Nat.le_add_right _ _) (by omega), Array.getElem?_eq_getElem hlt, he,
    List.getElem?_eq_getElem hi]

/-- A whole output. -/
theorem of_toList (h : data.toList = bytes) : Spells data 0 bytes := ⟨[], [], by simp [h], rfl⟩

theorem toList_eq (h : Spells data 0 bytes) (hsize : bytes.length = data.size) :
    data.toList = bytes := by
  have hall := h.extract
  rw [Nat.zero_add, hsize, Array.extract_size] at hall
  rw [hall]

end Spells

namespace Scan

variable {α β : Type} {read : Scan α} {k : α → Scan β} {a : α} {b : β} {bytes rest : List UInt8}
  {start : Nat}

/-- At the given position, the read takes the bytes for a value, in whatever data. -/
def ReadsAt (start : Nat) (read : Scan α) (bytes : List UInt8) (a : α) : Prop :=
  ∀ data, Spells data start bytes → read ⟨data, start⟩ = .ok a ⟨data, start + bytes.length⟩

/-- The read takes the bytes for a value wherever they stand. -/
def Reads (read : Scan α) (bytes : List UInt8) (a : α) : Prop :=
  ∀ start, ReadsAt start read bytes a

theorem ReadsAt.bind (h : ReadsAt start read bytes a)
    (hk : ReadsAt (start + bytes.length) (k a) rest b) :
    ReadsAt start (read >>= k) (bytes ++ rest) b := by
  intro data hs
  rw [Step.bind_ok]
  refine ⟨a, _, h data hs.left, ?_⟩
  rw [hk data hs.right, List.length_append, Nat.add_assoc]

theorem readsAt_pure (a : α) : ReadsAt start (pure a) [] a := by
  intro data _
  rfl

theorem ReadsAt.map {f : α → β} (h : ReadsAt start read bytes a) :
    ReadsAt start (do return f (← read)) bytes (f a) := by
  have := h.bind (k := fun a => pure (f a)) (readsAt_pure (f a))
  rwa [List.append_nil] at this

theorem Reads.bind (h : Reads read bytes a) (hk : Reads (k a) rest b) :
    Reads (read >>= k) (bytes ++ rest) b := fun start => (h start).bind (hk _)

theorem Reads.map {f : α → β} (h : Reads read bytes a) :
    Reads (do return f (← read)) bytes (f a) := fun start => (h start).map

theorem Reads.cast (h : Reads read bytes a) (hb : bytes = rest) : Reads read rest a := hb ▸ h

theorem reads_pure (a : α) : Reads (pure a) [] a := fun _ => readsAt_pure a

theorem reads_of (a : α) : Reads (Step.of (.ok a)) [] a := reads_pure a

/-- A read of no bytes before another. -/
theorem Reads.after (h : Reads read [] a) (hk : Reads (k a) bytes b) :
    Reads (read >>= k) bytes b := h.bind hk

/-- A read before another of no bytes. -/
theorem Reads.before (h : Reads read bytes a) (hk : Reads (k a) [] b) :
    Reads (read >>= k) bytes b := (h.bind hk).cast (List.append_nil bytes)

theorem reads_u8 (n : UInt8) : Reads u8 [n] n := by
  intro start data hs
  obtain ⟨_, h0⟩ := hs.getElem 0 (by simp)
  have hsize := hs.size_le
  simp only [List.length_singleton] at hsize ⊢
  unfold u8
  rw [dif_pos hsize]
  simp only [Nat.add_zero] at h0
  simp only [h0, List.getElem_cons_zero]

theorem reads_join16 (x y : UInt8) : Reads u16 [x, y] (join16 x y) := by
  intro start data hs
  obtain ⟨_, h0⟩ := hs.getElem 0 (by simp)
  obtain ⟨_, h1⟩ := hs.getElem 1 (by simp)
  have hsize := hs.size_le
  simp only [List.length_cons, List.length_nil, Nat.zero_add] at hsize ⊢
  unfold u16
  rw [dif_pos hsize]
  simp only [Nat.add_zero] at h0
  simp only [h0, h1, List.getElem_cons_zero, List.getElem_cons_succ]

theorem reads_join32 (x y z w : UInt8) : Reads u32 [x, y, z, w] (join32 x y z w) := by
  intro start data hs
  obtain ⟨_, h0⟩ := hs.getElem 0 (by simp)
  obtain ⟨_, h1⟩ := hs.getElem 1 (by simp)
  obtain ⟨_, h2⟩ := hs.getElem 2 (by simp)
  obtain ⟨_, h3⟩ := hs.getElem 3 (by simp)
  have hsize := hs.size_le
  simp only [List.length_cons, List.length_nil, Nat.zero_add] at hsize ⊢
  unfold u32
  rw [dif_pos hsize]
  simp only [Nat.add_zero] at h0
  simp only [h0, h1, h2, h3, List.getElem_cons_zero, List.getElem_cons_succ]

theorem reads_join64 (x y z w x' y' z' w' : UInt8) :
    Reads u64 [x, y, z, w, x', y', z', w'] (join64 (join32 x y z w) (join32 x' y' z' w')) := by
  intro start data hs
  obtain ⟨_, h0⟩ := hs.getElem 0 (by simp)
  obtain ⟨_, h1⟩ := hs.getElem 1 (by simp)
  obtain ⟨_, h2⟩ := hs.getElem 2 (by simp)
  obtain ⟨_, h3⟩ := hs.getElem 3 (by simp)
  obtain ⟨_, h4⟩ := hs.getElem 4 (by simp)
  obtain ⟨_, h5⟩ := hs.getElem 5 (by simp)
  obtain ⟨_, h6⟩ := hs.getElem 6 (by simp)
  obtain ⟨_, h7⟩ := hs.getElem 7 (by simp)
  have hsize := hs.size_le
  simp only [List.length_cons, List.length_nil, Nat.zero_add] at hsize ⊢
  unfold u64
  rw [dif_pos hsize]
  simp only [Nat.add_zero] at h0
  simp only [h0, h1, h2, h3, h4, h5, h6, h7, List.getElem_cons_zero, List.getElem_cons_succ]

theorem reads_u16 (n : UInt16) : Reads u16 (bytes16 n) n := by
  have := reads_join16 (n >>> 8).toUInt8 n.toUInt8
  rwa [join16_bytes] at this

theorem reads_u32 (n : UInt32) : Reads u32 (bytes32 n) n := by
  have := reads_join32 (n >>> 24).toUInt8 (n >>> 16).toUInt8 (n >>> 8).toUInt8 n.toUInt8
  rwa [join32_bytes] at this

theorem reads_u64 (n : UInt64) : Reads u64 (bytes64 n) n := by
  have := reads_join64 (n >>> 56).toUInt8 (n >>> 48).toUInt8 (n >>> 40).toUInt8
    (n >>> 32).toUInt8 (n >>> 24).toUInt8 (n >>> 16).toUInt8 (n >>> 8).toUInt8 n.toUInt8
  rwa [join64_bytes] at this

theorem reads_i8 (n : Int8) : Reads i8 [n.toUInt8] n := (reads_u8 n.toUInt8).map

theorem reads_i16 (n : Int16) : Reads i16 (bytes16 n.toUInt16) n := (reads_u16 n.toUInt16).map

theorem reads_i32 (n : Int32) : Reads i32 (bytes32 n.toUInt32) n := (reads_u32 n.toUInt32).map

theorem reads_i64 (n : Int64) : Reads i64 (bytes64 n.toUInt64) n := (reads_u64 n.toUInt64).map

theorem reads_bytes (bytes : List UInt8) : Reads (Scan.bytes bytes.length) bytes bytes.toArray := by
  intro start data hs
  unfold Scan.bytes
  rw [if_pos hs.size_le]
  simp only [hs.extract]

theorem reads_skip (bytes : List UInt8) : Reads (skip bytes.length) bytes () := by
  intro start data hs
  unfold skip
  rw [if_pos hs.size_le]

/-- Structures that are read one after another. -/
theorem reads_timesFrom {chunks : List (List UInt8)} {values : List α}
    (h : List.Forall₂ (Reads read) chunks values) (done : List α) :
    Reads (timesFrom read done values.length) chunks.flatten (done.reverse ++ values) := by
  induction h generalizing done with
  | nil =>
    rw [List.append_nil]
    exact reads_pure done.reverse
  | @cons chunk a chunks values hread _ ih =>
    have := hread.bind (k := fun a => timesFrom read (a :: done) values.length) (ih (a :: done))
    rwa [List.reverse_cons, List.append_assoc] at this

theorem reads_times {chunks : List (List UInt8)} {values : List α}
    (h : List.Forall₂ (Reads read) chunks values) :
    Reads (times values.length read) chunks.flatten values := reads_timesFrom h []

/-- The items of a list, each of which is read from its bytes. -/
theorem forall₂_encode {encode : β → List UInt8} {f : β → α} (items : List β)
    (h : ∀ x ∈ items, Reads read (encode x) (f x)) :
    List.Forall₂ (Reads read) (items.map encode) (items.map f) := by
  rw [List.forall₂_map_left_iff, List.forall₂_map_right_iff, List.forall₂_same]
  exact h

theorem reads_counted {chunks : List (List UInt8)} {values : List α}
    (h : List.Forall₂ (Reads read) chunks values) (hcount : values.length < 65536) :
    Reads (counted read) (bytes16 (UInt16.ofNat values.length) ++ chunks.flatten) values := by
  refine (reads_u16 _).bind ?_
  rw [UInt16.toNat_ofNat_of_lt' hcount]
  exact reads_times h

/-- A counted list reads back as it was written. -/
theorem reads_countedBytes {encode : α → List UInt8} {items : List α}
    (hcount : items.length < 65536) (h : ∀ a ∈ items, Reads read (encode a) a) :
    Reads (counted read) (Put.countedBytes encode items) items := by
  have hitems := forall₂_encode (f := id) items h
  rw [List.map_id] at hitems
  exact reads_counted hitems hcount

theorem reads_repeated {read : Scan Unit} {chunks : List (List UInt8)}
    (h : ∀ chunk ∈ chunks, Reads read chunk ()) :
    Reads (repeated chunks.length read) chunks.flatten () := by
  induction chunks with
  | nil => exact reads_pure ()
  | cons chunk rest ih =>
    exact (h chunk List.mem_cons_self).bind (ih fun c hc => h c (List.mem_cons_of_mem _ hc))

theorem Reads.runAt {data : Bytes} (h : Reads read bytes a) (hs : Spells data start bytes) :
    runAt data start read = .ok a := by
  unfold Scan.runAt
  rw [h start data hs]

/-- In the data, the read takes the bytes wherever they stand and finds a good value, which may
depend on where they stand. -/
def Finds (data : Bytes) (read : Scan α) (bytes : List UInt8) (good : α → Prop) : Prop :=
  ∀ ⦃start⦄, Spells data start bytes →
    ∃ a, read ⟨data, start⟩ = .ok a ⟨data, start + bytes.length⟩ ∧ good a

theorem Reads.finds {data : Bytes} (h : Reads read bytes a) : Finds data read bytes (· = a) :=
  fun start hs => ⟨a, h start data hs, rfl⟩

theorem Finds.mono {data : Bytes} {good good' : α → Prop} (h : Finds data read bytes good)
    (hgood : ∀ a, good a → good' a) : Finds data read bytes good' := by
  intro start hs
  obtain ⟨a, ha, hg⟩ := h hs
  exact ⟨a, ha, hgood a hg⟩

theorem Finds.bind {data : Bytes} {good : α → Prop} {good' : β → Prop}
    (h : Finds data read bytes good) (hk : ∀ a, good a → Finds data (k a) rest good') :
    Finds data (read >>= k) (bytes ++ rest) good' := by
  intro start hs
  obtain ⟨a, ha, hg⟩ := h hs.left
  obtain ⟨b, hb, hg'⟩ := hk a hg hs.right
  refine ⟨b, Step.bind_ok.2 ⟨a, _, ha, ?_⟩, hg'⟩
  rw [hb, List.length_append, Nat.add_assoc]

/-- A read of no bytes before another. -/
theorem Finds.after {data : Bytes} {good : β → Prop} (h : Reads read [] a)
    (hk : Finds data (k a) bytes good) : Finds data (read >>= k) bytes good :=
  h.finds.bind fun _ ha => ha ▸ hk

/-- A read before another of no bytes. -/
theorem Finds.before {data : Bytes} {good : α → Prop} {good' : β → Prop}
    (h : Finds data read bytes good) (hk : ∀ a, good a → Finds data (k a) [] good') :
    Finds data (read >>= k) bytes good' := by
  have := h.bind hk
  rwa [List.append_nil] at this

theorem finds_pure {data : Bytes} {good : α → Prop} (h : good a) :
    Finds data (pure a) [] good := fun _ _ => ⟨a, rfl, h⟩

theorem Finds.runAt {data : Bytes} {good : α → Prop} (h : Finds data read bytes good)
    (hs : Spells data start bytes) : ∃ a, runAt data start read = .ok a ∧ good a := by
  obtain ⟨a, ha, hg⟩ := h hs
  refine ⟨a, ?_, hg⟩
  unfold Scan.runAt
  rw [ha]

section Lists

variable {data : Bytes} {encode : β → List UInt8} {good : β → α → Prop}

theorem finds_timesFrom (items : List β) (h : ∀ x ∈ items, Finds data read (encode x) (good x))
    (done : List α) :
    Finds data (timesFrom read done items.length) (items.flatMap encode) fun values =>
      ∃ found, values = done.reverse ++ found ∧ List.Forall₂ good items found := by
  induction items generalizing done with
  | nil => exact finds_pure ⟨[], by simp, .nil⟩
  | cons x rest ih =>
    refine (h x List.mem_cons_self).bind fun a ha => ?_
    refine (ih (fun y hy => h y (List.mem_cons_of_mem _ hy)) (a :: done)).mono ?_
    rintro _ ⟨found, rfl, hall⟩
    exact ⟨a :: found, by simp, .cons ha hall⟩

theorem finds_counted {items : List β} (hcount : items.length < 65536)
    (h : ∀ x ∈ items, Finds data read (encode x) (good x)) :
    Finds data (counted read) (Put.countedBytes encode items) fun values =>
      List.Forall₂ good items values := by
  refine (reads_u16 _).finds.bind ?_
  rintro _ rfl
  rw [UInt16.toNat_ofNat_of_lt' hcount]
  refine (finds_timesFrom items h []).mono ?_
  rintro _ ⟨found, rfl, hall⟩
  exact hall

end Lists

section Positions

theorem runAt_ok {data : Bytes} {start : Nat} {read : Scan α} {a : α} :
    runAt data start read = .ok a ↔ ∃ c, read ⟨data, start⟩ = .ok a c := by
  unfold runAt
  cases read ⟨data, start⟩ with
  | ok b c => simp
  | error e c => simp

theorem u8_ok {c c' : Cursor} {n : UInt8} (h : u8 c = .ok n c') :
    c' = ⟨c.data, c.offset + 1⟩ := by
  unfold u8 at h
  split at h
  · cases h
    rfl
  · cases h

theorem u16_ok {c c' : Cursor} {n : UInt16} (h : u16 c = .ok n c') :
    c' = ⟨c.data, c.offset + 2⟩ := by
  unfold u16 at h
  split at h
  · cases h
    rfl
  · cases h

theorem u32_ok {c c' : Cursor} {n : UInt32} (h : u32 c = .ok n c') :
    c' = ⟨c.data, c.offset + 4⟩ := by
  unfold u32 at h
  split at h
  · cases h
    rfl
  · cases h

theorem i32_ok {c c' : Cursor} {n : Int32} (h : i32 c = .ok n c') :
    c' = ⟨c.data, c.offset + 4⟩ := by
  obtain ⟨m, mid, hm, h⟩ := Step.bind_ok.1 h
  obtain ⟨-, rfl⟩ := Step.pure_ok.1 h
  exact u32_ok hm

theorem skip_ok {n : Nat} {c c' : Cursor} {u : Unit} (h : skip n c = .ok u c') :
    c' = ⟨c.data, c.offset + n⟩ := by
  unfold skip at h
  split at h
  · cases h
    rfl
  · cases h

/-- Moving past bytes is reading them. -/
theorem skip_eq_bytes (n : Nat) : skip n = (do let _ ← Scan.bytes n) := by
  funext c
  show _ = EStateM.bind (Scan.bytes n) _ c
  unfold EStateM.bind Scan.bytes skip
  split <;> rfl

/-- Structures of one size are read from places that lie this size apart. -/
theorem timesFrom_ok {size n : Nat} {done items : List α} {c c' : Cursor}
    (hsize : ∀ c a c', read c = .ok a c' → c' = ⟨c.data, c.offset + size⟩)
    (h : timesFrom read done n c = .ok items c') :
    c' = ⟨c.data, c.offset + n * size⟩ ∧ ∃ found, items = done.reverse ++ found ∧
      found.length = n ∧ ∀ (i : Nat) a, found[i]? = some a →
        read ⟨c.data, c.offset + i * size⟩ = .ok a ⟨c.data, c.offset + (i + 1) * size⟩ := by
  induction n generalizing done c with
  | zero =>
    obtain ⟨rfl, rfl⟩ := Step.pure_ok.1 h
    exact ⟨by simp, [], (List.append_nil _).symm, rfl, fun i a ha => nomatch ha⟩
  | succ n ih =>
    obtain ⟨a, mid, hread, h⟩ := Step.bind_ok.1 h
    obtain rfl := hsize c a mid hread
    obtain ⟨rfl, found, rfl, rfl, hfound⟩ := ih h
    have hnext (i : Nat) : c.offset + size + i * size = c.offset + (i + 1) * size := by
      rw [Nat.succ_mul]
      omega
    refine ⟨by rw [hnext], a :: found, by simp, rfl, fun i b hb => ?_⟩
    cases i with
    | zero =>
      cases hb
      simpa using hread
    | succ i =>
      have := hfound i b hb
      rwa [hnext, hnext] at this

theorem times_ok {size n : Nat} {items : List α} {c c' : Cursor}
    (hsize : ∀ c a c', read c = .ok a c' → c' = ⟨c.data, c.offset + size⟩)
    (h : times n read c = .ok items c') :
    c' = ⟨c.data, c.offset + n * size⟩ ∧ items.length = n ∧ ∀ (i : Nat) a, items[i]? = some a →
      read ⟨c.data, c.offset + i * size⟩ = .ok a ⟨c.data, c.offset + (i + 1) * size⟩ := by
  obtain ⟨hc, found, rfl, hlength, hfound⟩ := timesFrom_ok hsize h
  exact ⟨hc, hlength, hfound⟩

end Positions

/-- What the read takes are bytes that it takes for the same value anywhere. -/
def Local (read : Scan α) : Prop :=
  ∀ data start a c, start ≤ data.size → read ⟨data, start⟩ = .ok a c →
    ∃ bytes, c = ⟨data, start + bytes.length⟩ ∧ Spells data start bytes ∧ Reads read bytes a

theorem local_pure (a : α) : Local (pure a : Scan α) := by
  intro data start a' c hstart h
  obtain ⟨rfl, rfl⟩ := Step.pure_ok.1 h
  exact ⟨[], rfl, .of_getElem (by simpa using hstart) (by simp), reads_pure a⟩

theorem local_throw (e : ClassError) : Local (throw e : Scan α) := by
  intro data start a c _ h
  exact (Step.throw_ok.1 h).elim

theorem Local.bind (h : Local read) (hk : ∀ a, Local (k a)) : Local (read >>= k) := by
  intro data start b c hstart hb
  obtain ⟨a, _, ha, hb⟩ := Step.bind_ok.1 hb
  obtain ⟨front, rfl, hs, hr⟩ := h data start a _ hstart ha
  obtain ⟨rest, rfl, hs', hr'⟩ := hk a data _ b c hs.size_le hb
  refine ⟨front ++ rest, ?_, hs.append hs', hr.bind hr'⟩
  rw [List.length_append, Nat.add_assoc]

theorem Local.map {f : α → β} (h : Local read) : Local (do return f (← read)) :=
  h.bind fun a => local_pure (f a)

theorem local_ite {c : Prop} [Decidable c] {read' : Scan α} (h : Local read) (h' : Local read') :
    Local (if c then read else read') := by
  split
  · exact h
  · exact h'

theorem local_u8 : Local u8 := by
  intro data start a c _ h
  unfold u8 at h
  split at h
  · rename_i hsize
    cases h
    refine ⟨[data[start]], rfl, .of_getElem hsize ?_, reads_u8 _⟩
    intro i hi
    simp only [List.length_singleton, Nat.lt_one_iff] at hi
    subst hi
    exact Array.getElem?_eq_getElem _
  · cases h

theorem local_u16 : Local u16 := by
  intro data start a c _ h
  unfold u16 at h
  split at h
  · rename_i hsize
    cases h
    refine ⟨[data[start], data[start + 1]], rfl, .of_getElem hsize ?_, reads_join16 _ _⟩
    intro i hi
    simp only [List.length_cons, List.length_nil] at hi
    interval_cases i
    · exact Array.getElem?_eq_getElem _
    · exact Array.getElem?_eq_getElem _
  · cases h

theorem local_u32 : Local u32 := by
  intro data start a c _ h
  unfold u32 at h
  split at h
  · rename_i hsize
    cases h
    refine ⟨[data[start], data[start + 1], data[start + 2], data[start + 3]], rfl,
      .of_getElem hsize ?_, reads_join32 _ _ _ _⟩
    intro i hi
    simp only [List.length_cons, List.length_nil] at hi
    interval_cases i <;> exact Array.getElem?_eq_getElem _
  · cases h

theorem local_u64 : Local u64 := by
  intro data start a c _ h
  unfold u64 at h
  split at h
  · rename_i hsize
    cases h
    refine ⟨[data[start], data[start + 1], data[start + 2], data[start + 3], data[start + 4],
      data[start + 5], data[start + 6], data[start + 7]], rfl, .of_getElem hsize ?_,
      reads_join64 _ _ _ _ _ _ _ _⟩
    intro i hi
    simp only [List.length_cons, List.length_nil] at hi
    interval_cases i <;> exact Array.getElem?_eq_getElem _
  · cases h

theorem local_bytes (n : Nat) : Local (Scan.bytes n) := by
  intro data start a c _ h
  unfold Scan.bytes at h
  split at h
  · rename_i hsize
    cases h
    simp only at hsize
    have hlen : (data.extract start (start + n)).toList.length = n := by
      simp
      omega
    have hr := reads_bytes (data.extract start (start + n)).toList
    rw [hlen, Array.toArray_toList] at hr
    exact ⟨_, by rw [hlen], .of_extract (by omega) hsize, hr⟩
  · cases h

end Scan

end JvmClass
