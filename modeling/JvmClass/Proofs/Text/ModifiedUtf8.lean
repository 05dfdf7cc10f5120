import JvmClass.Text.ModifiedUtf8

/-!
# Stored text reads back

Decoding undoes encoding. Encoded text without NUL and without supplementary characters is standard
UTF-8 and read as such; with one of those it is no standard UTF-8, and the strict form reads it.
Either way one character is read off at a time.
-/

namespace JvmClass.Text

theorem toNat_continuation (payload : Nat) :
    (continuation payload).toNat = 128 + payload % 64 := by
  unfold continuation
  rw [UInt8.toNat_ofNat']
  omega

theorem isContinuation_iff (b : UInt8) :
    isContinuation b = true ↔ 128 ≤ b.toNat ∧ b.toNat < 192 := by
  simp [isContinuation, UInt8.le_iff_toNat_le, UInt8.lt_iff_toNat_lt]

theorem opensTwo_iff (a : UInt8) : opensTwo a = true ↔ 194 ≤ a.toNat ∧ a.toNat ≤ 223 := by
  simp [opensTwo, UInt8.le_iff_toNat_le]

theorem opensThree_iff (a b : UInt8) :
    opensThree a b = true ↔
      (a.toNat = 224 ∧ 160 ≤ b.toNat ∧ b.toNat ≤ 191) ∨
      (225 ≤ a.toNat ∧ a.toNat ≤ 236 ∧ 128 ≤ b.toNat ∧ b.toNat < 192) ∨
      (a.toNat = 237 ∧ 128 ≤ b.toNat ∧ b.toNat ≤ 159) ∨
      (238 ≤ a.toNat ∧ a.toNat ≤ 239 ∧ 128 ≤ b.toNat ∧ b.toNat < 192) := by
  simp [opensThree, isContinuation, UInt8.le_iff_toNat_le, UInt8.lt_iff_toNat_lt,
    ← UInt8.toNat_inj]
  omega

theorem opensFour_of_small (a b : UInt8) (h : a.toNat < 240) : opensFour a b = false := by
  cases hb : opensFour a b with
  | false => rfl
  | true =>
    simp [opensFour, isContinuation, UInt8.le_iff_toNat_le, UInt8.lt_iff_toNat_lt,
      ← UInt8.toNat_inj] at hb
    omega

/-- The bounds of the number of a character. -/
theorem toNat_bounds (c : Char) : c.toNat < 55296 ∨ 57343 < c.toNat ∧ c.toNat < 1114112 := by
  rcases c.valid with h | h
  · exact Or.inl h
  · exact Or.inr h

theorem eq_of_toNat {c : Char} {n : Nat} (h : n = c.toNat) : Char.ofNat n = c := by
  rw [h, Char.ofNat_toNat]

/-- The first byte of a 16-bit unit. -/
theorem toNat_opening {unit : Nat} (h : unit < 65536) :
    (UInt8.ofNat (0xE0 + unit / 4096)).toNat = 224 + unit / 4096 := by
  rw [UInt8.toNat_ofNat']
  omega

theorem unitOf_threeBytes {unit : Nat} (h : unit < 65536) :
    unitOf (UInt8.ofNat (0xE0 + unit / 4096)) (continuation (unit / 64)) (continuation unit) =
      unit := by
  unfold unitOf
  rw [toNat_opening h, toNat_continuation, toNat_continuation]
  omega

theorem opensThree_unit {unit : Nat} (h : unit < 65536) :
    opensThree (UInt8.ofNat (0xE0 + unit / 4096)) (continuation (unit / 64)) = true ↔
      2048 ≤ unit ∧ (unit < 55296 ∨ 57343 < unit) := by
  rw [opensThree_iff, toNat_opening h, toNat_continuation]
  omega

theorem isContinuation_continuation (payload : Nat) :
    isContinuation (continuation payload) = true := by
  rw [isContinuation_iff, toNat_continuation]
  omega

/-- A byte that opens a three-byte sequence opens none of two bytes and is no character. -/
theorem opening_facts {unit : Nat} (h : unit < 65536) :
    ¬ UInt8.ofNat (0xE0 + unit / 4096) < 0x80 ∧
      opensTwo (UInt8.ofNat (0xE0 + unit / 4096)) = false ∧
      (UInt8.ofNat (0xE0 + unit / 4096) == 0) = false ∧
      (UInt8.ofNat (0xE0 + unit / 4096) == 0xC0) = false := by
  have ha := toNat_opening h
  refine ⟨?_, ?_, ?_, ?_⟩
  · rw [UInt8.lt_iff_toNat_lt, ha]
    simp
    omega
  · rw [← Bool.not_eq_true, opensTwo_iff, ha]
    omega
  · rw [beq_eq_false_iff_ne, Ne, ← UInt8.toNat_inj, ha]
    simp
  · rw [beq_eq_false_iff_ne, Ne, ← UInt8.toNat_inj, ha]
    simp
    omega

/-- The units of the surrogates of a supplementary character. -/
theorem surrogate_bounds {n : Nat} (h : 65536 ≤ n) (h' : n < 1114112) :
    0xD800 + (n - 0x10000) / 1024 < 65536 ∧ 0xDC00 + (n - 0x10000) % 1024 < 65536 := by
  omega

theorem isHighUnit_threeBytes {unit : Nat} (h : unit < 65536) :
    isHighUnit (UInt8.ofNat (0xE0 + unit / 4096)) (continuation (unit / 64))
      (continuation unit) = true ↔ 55296 ≤ unit ∧ unit < 56320 := by
  unfold isHighUnit
  rw [isContinuation_continuation, Bool.and_true]
  simp only [Bool.and_eq_true, beq_iff_eq, decide_eq_true_eq, UInt8.le_iff_toNat_le,
    ← UInt8.toNat_inj, toNat_opening h, toNat_continuation]
  simp
  omega

theorem isLowUnit_threeBytes {unit : Nat} (h : unit < 65536) :
    isLowUnit (UInt8.ofNat (0xE0 + unit / 4096)) (continuation (unit / 64))
      (continuation unit) = true ↔ 56320 ≤ unit ∧ unit < 57344 := by
  unfold isLowUnit
  rw [isContinuation_continuation, Bool.and_true]
  simp only [Bool.and_eq_true, beq_iff_eq, decide_eq_true_eq, UInt8.le_iff_toNat_le,
    ← UInt8.toNat_inj, toNat_opening h, toNat_continuation]
  simp
  omega

open ModifiedUtf8

variable {read : List Char} {c : Char} {rest : List UInt8}

theorem encodeChar_nul (h : c.toNat = 0) : encodeChar c = [0xC0, 0x80] := by
  simp [encodeChar, h]

theorem encodeChar_one (h0 : c.toNat ≠ 0) (h : c.toNat < 0x80) :
    encodeChar c = [UInt8.ofNat c.toNat] := by
  simp [encodeChar, h0, h]

theorem encodeChar_two (h0 : ¬ c.toNat < 0x80) (h : c.toNat < 0x800) :
    encodeChar c = [UInt8.ofNat (0xC0 + c.toNat / 64), continuation c.toNat] := by
  have : c.toNat ≠ 0 := by omega
  simp [encodeChar, h0, h, this]

theorem encodeChar_three (h0 : ¬ c.toNat < 0x800) (h : c.toNat < 0x10000) :
    encodeChar c = threeBytes c.toNat := by
  have h1 : c.toNat ≠ 0 := by omega
  have h2 : ¬ c.toNat < 0x80 := by omega
  simp [encodeChar, h0, h, h1, h2]

theorem encodeChar_pair (h : ¬ c.toNat < 0x10000) :
    encodeChar c = threeBytes (0xD800 + (c.toNat - 0x10000) / 1024) ++
      threeBytes (0xDC00 + (c.toNat - 0x10000) % 1024) := by
  have h1 : c.toNat ≠ 0 := by omega
  have h2 : ¬ c.toNat < 0x80 := by omega
  have h3 : ¬ c.toNat < 0x800 := by omega
  simp [encodeChar, h, h1, h2, h3]

/-- The first byte of a two-byte sequence. -/
theorem two_facts (h0 : ¬ c.toNat < 0x80) (h : c.toNat < 0x800) :
    ¬ UInt8.ofNat (0xC0 + c.toNat / 64) < 0x80 ∧
      opensTwo (UInt8.ofNat (0xC0 + c.toNat / 64)) = true ∧
      (UInt8.ofNat (0xC0 + c.toNat / 64) == 0) = false ∧
      (UInt8.ofNat (0xC0 + c.toNat / 64) == 0xC0) = false ∧
      joinTwo (UInt8.ofNat (0xC0 + c.toNat / 64)) (continuation c.toNat) = c := by
  have ha : (UInt8.ofNat (0xC0 + c.toNat / 64)).toNat = 192 + c.toNat / 64 := by
    rw [UInt8.toNat_ofNat']
    omega
  refine ⟨?_, ?_, ?_, ?_, ?_⟩
  · rw [UInt8.lt_iff_toNat_lt, ha]
    simp
    omega
  · rw [opensTwo_iff, ha]
    omega
  · rw [beq_eq_false_iff_ne, Ne, ← UInt8.toNat_inj, ha]
    simp
  · rw [beq_eq_false_iff_ne, Ne, ← UInt8.toNat_inj, ha]
    simp
    omega
  · unfold joinTwo
    apply eq_of_toNat
    rw [ha, toNat_continuation]
    omega

/-- The byte of a character below 128. -/
theorem one_facts (h0 : c.toNat ≠ 0) (h : c.toNat < 0x80) :
    UInt8.ofNat c.toNat < 0x80 ∧ (UInt8.ofNat c.toNat == 0) = false ∧
      Char.ofNat (UInt8.ofNat c.toNat).toNat = c := by
  have ha : (UInt8.ofNat c.toNat).toNat = c.toNat := by
    rw [UInt8.toNat_ofNat']
    omega
  refine ⟨?_, ?_, eq_of_toNat ha⟩
  · rw [UInt8.lt_iff_toNat_lt, ha]
    simpa using h
  · rw [beq_eq_false_iff_ne, Ne, ← UInt8.toNat_inj, ha]
    simpa using h0

/-- The strict form reads one character off. -/
theorem decodeStrict?_encodeChar (read : List Char) (c : Char) (rest : List UInt8) :
    decodeStrict? read (encodeChar c ++ rest) = decodeStrict? (c :: read) rest := by
  have hv := toNat_bounds c
  by_cases h0 : c.toNat = 0
  · obtain rfl : '\x00' = c := eq_of_toNat h0.symm
    rw [encodeChar_nul h0, List.cons_append, decodeStrict?.eq_def]
    simp
  by_cases h1 : c.toNat < 0x80
  · obtain ⟨hlt, hne, hc⟩ := one_facts h0 h1
    rw [encodeChar_one h0 h1, List.cons_append, decodeStrict?.eq_def]
    simp only [hne, Bool.false_eq_true, if_false, hlt, if_true, hc, List.nil_append]
  by_cases h2 : c.toNat < 0x800
  · obtain ⟨hlt, htwo, hne, hne', hc⟩ := two_facts h1 h2
    rw [encodeChar_two h1 h2, List.cons_append, decodeStrict?.eq_def]
    simp only [hne, Bool.false_eq_true, if_false, hlt, List.cons_append, List.nil_append, hne',
      Bool.false_and, htwo, isContinuation_continuation, Bool.and_self, if_true, hc]
  by_cases h3 : c.toNat < 0x10000
  · obtain ⟨hlt, htwo, hne, hne'⟩ := opening_facts h3
    have hopen := (opensThree_unit h3).2 ⟨by omega, by omega⟩
    rw [encodeChar_three h2 h3, threeBytes, List.cons_append, decodeStrict?.eq_def]
    simp only [hne, Bool.false_eq_true, if_false, hlt, List.cons_append, List.nil_append, hne',
      Bool.false_and, htwo, isContinuation_continuation, hopen, Bool.and_self, if_true,
      unitOf_threeBytes h3, Char.ofNat_toNat]
  · obtain ⟨hhigh, hlow⟩ := surrogate_bounds (n := c.toNat) (by omega) (by omega)
    obtain ⟨hlt, htwo, hne, hne'⟩ := opening_facts hhigh
    have hopen := mt (opensThree_unit hhigh).1 (by omega)
    rw [Bool.not_eq_true] at hopen
    have hisHigh := (isHighUnit_threeBytes hhigh).2 ⟨by omega, by omega⟩
    have hisLow := (isLowUnit_threeBytes hlow).2 ⟨by omega, by omega⟩
    have hc : joinSurrogates (0xD800 + (c.toNat - 0x10000) / 1024)
        (0xDC00 + (c.toNat - 0x10000) % 1024) = c := by
      unfold joinSurrogates
      apply eq_of_toNat
      omega
    rw [encodeChar_pair h3, threeBytes, threeBytes, List.cons_append, List.cons_append,
      decodeStrict?.eq_def]
    simp only [hne, Bool.false_eq_true, if_false, hlt, List.cons_append, List.nil_append, hne',
      Bool.false_and, htwo, hopen, hisHigh, hisLow, Bool.and_self, if_true,
      unitOf_threeBytes hhigh, unitOf_threeBytes hlow, hc]

/-- What standard UTF-8 reads off encoded text, if anything, is one character. -/
theorem decodeStandard?_encodeChar {chars : List Char}
    (h : decodeStandard? read (encodeChar c ++ rest) = some chars) :
    decodeStandard? (c :: read) rest = some chars := by
  have hv := toNat_bounds c
  by_cases h0 : c.toNat = 0
  · rw [encodeChar_nul h0, List.cons_append, decodeStandard?.eq_def] at h
    have htwo : opensTwo 0xC0 = false := by decide
    have hthree : opensThree 0xC0 0x80 = false := by decide
    have hfour : opensFour 0xC0 0x80 = false := by decide
    simp [htwo, hthree, hfour] at h
    split at h
    · cases h
    · split at h <;> cases h
  by_cases h1 : c.toNat < 0x80
  · obtain ⟨hlt, -, hc⟩ := one_facts h0 h1
    rw [encodeChar_one h0 h1, List.cons_append, decodeStandard?.eq_def] at h
    simpa only [hlt, if_true, hc, List.nil_append] using h
  by_cases h2 : c.toNat < 0x800
  · obtain ⟨hlt, htwo, -, -, hc⟩ := two_facts h1 h2
    rw [encodeChar_two h1 h2, List.cons_append, decodeStandard?.eq_def] at h
    simpa only [if_false, hlt, List.cons_append, List.nil_append, htwo,
      isContinuation_continuation, Bool.and_self, if_true, hc] using h
  by_cases h3 : c.toNat < 0x10000
  · obtain ⟨hlt, htwo, -, -⟩ := opening_facts h3
    have hopen := (opensThree_unit h3).2 ⟨by omega, by omega⟩
    rw [encodeChar_three h2 h3, threeBytes, List.cons_append, decodeStandard?.eq_def] at h
    simpa only [if_false, hlt, List.cons_append, List.nil_append, Bool.false_and, htwo,
      Bool.false_eq_true, isContinuation_continuation, hopen, Bool.and_self, if_true,
      unitOf_threeBytes h3, Char.ofNat_toNat] using h
  · obtain ⟨hhigh, hlow⟩ := surrogate_bounds (n := c.toNat) (by omega) (by omega)
    obtain ⟨hlt, htwo, -, -⟩ := opening_facts hhigh
    have hopen := mt (opensThree_unit hhigh).1 (by omega)
    rw [Bool.not_eq_true] at hopen
    have hfour := opensFour_of_small (UInt8.ofNat (0xE0 +
      (0xD800 + (c.toNat - 0x10000) / 1024) / 4096))
      (continuation ((0xD800 + (c.toNat - 0x10000) / 1024) / 64)) (by
        rw [toNat_opening hhigh]
        omega)
    rw [encodeChar_pair h3, threeBytes, threeBytes, List.cons_append, List.cons_append,
      decodeStandard?.eq_def] at h
    simp only [if_false, hlt, List.cons_append, List.nil_append, Bool.false_and, htwo,
      Bool.false_eq_true, hopen, hfour] at h
    cases h

/-- Standard UTF-8 has a character for each byte below `80`, zero bytes included. -/
theorem decodeStandard?_ascii {bytes : List UInt8} (h : ∀ b ∈ bytes, b < 0x80) (read : List Char) :
    decodeStandard? read bytes =
      some (read.reverse ++ bytes.map fun b => Char.ofNat b.toNat) := by
  induction bytes generalizing read with
  | nil => rw [List.map_nil, List.append_nil, decodeStandard?.eq_def]
  | cons b rest ih =>
    rw [decodeStandard?.eq_def]
    simp only [h b List.mem_cons_self, if_true]
    rw [ih fun c hc => h c (List.mem_cons_of_mem _ hc)]
    simp

namespace ModifiedUtf8

theorem decodeStrict?_flatMap (chars read : List Char) :
    decodeStrict? read (chars.flatMap encodeChar) = some (read.reverse ++ chars) := by
  induction chars generalizing read with
  | nil =>
    rw [List.append_nil, List.flatMap_nil, decodeStrict?.eq_def]
  | cons c rest ih =>
    rw [List.flatMap_cons, decodeStrict?_encodeChar, ih, List.reverse_cons, List.append_assoc,
      List.singleton_append]

theorem decodeStandard?_flatMap {chars read result : List Char}
    (h : decodeStandard? read (chars.flatMap encodeChar) = some result) :
    result = read.reverse ++ chars := by
  induction chars generalizing read with
  | nil =>
    rw [List.flatMap_nil, decodeStandard?.eq_def] at h
    rw [List.append_nil]
    exact (Option.some.inj h).symm
  | cons c rest ih =>
    rw [List.flatMap_cons] at h
    rw [ih (decodeStandard?_encodeChar h), List.reverse_cons, List.append_assoc,
      List.singleton_append]

/-- Every text reads back from its stored form. -/
theorem decode?_encode (text : String) : decode? (encode text) = some text := by
  unfold decode? encode
  cases h : decodeStandard? [] (text.toList.flatMap encodeChar) with
  | some chars =>
    have := decodeStandard?_flatMap h
    simp only [this, List.reverse_nil, List.nil_append, String.ofList_toList]
  | none =>
    simp only [decodeStrict?_flatMap, List.reverse_nil, List.nil_append, Option.map_some,
      String.ofList_toList]

theorem length_encodeChar (c : Char) : (encodeChar c).length = charSize c := by
  unfold encodeChar charSize
  simp only
  split
  · rfl
  split
  · rfl
  split
  · rfl
  split
  · rfl
  · rfl

/-- The size of the stored form is the number of its bytes. -/
theorem length_encode (text : String) : (encode text).length = encodedSize text := by
  have h (chars : List Char) (n : Nat) :
      chars.foldl (fun n c => n + charSize c) n = n + (chars.flatMap encodeChar).length := by
    induction chars generalizing n with
    | nil => rfl
    | cons c rest ih =>
      rw [List.foldl_cons, ih, List.flatMap_cons, List.length_append, length_encodeChar]
      omega
  unfold encodedSize encode
  rw [h, Nat.zero_add]

end ModifiedUtf8

end JvmClass.Text
