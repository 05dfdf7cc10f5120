import JvmClass.Proofs.StackMap

/-!
# The shortest entry for a frame

A short form says all about a frame but for the locals before it, so that at most one short form
stands for a frame after another one, and that form is chosen where there is one
(`Layout.entryAfter_of_expand?`). The full form is never shorter than another one
(`Layout.byteSize_le_fullEntry`), and so the entry that is chosen is the shortest of those that can
be stored (`Layout.entryAfter_shortest`).
-/

namespace JvmClass.Layout

section Choice

variable {T : Type} [DecidableEq T] (previous : Layout T) (delta : UInt16)

theorem entryAfter_same : (⟨previous.locals, []⟩ : Layout T).entryAfter previous delta =
    .same delta := by
  simp [entryAfter]

theorem entryAfter_sameWithStack (entry : T) :
    (⟨previous.locals, [entry]⟩ : Layout T).entryAfter previous delta =
      .sameWithStack delta entry := by
  simp [entryAfter]

theorem entryAfter_chop {count : UInt8} (hfits : 1 ≤ count ∧ count ≤ 3)
    (hle : count.toNat ≤ previous.locals.length) :
    (⟨previous.locals.take (previous.locals.length - count.toNat), []⟩ : Layout T).entryAfter
      previous delta = .chop delta count := by
  have hfirst : 1 ≤ count.toNat := hfits.1
  have hlast : count.toNat < 4 := Nat.lt_succ_of_le hfits.2
  have hkept : previous.locals.take (previous.locals.length - count.toNat) <+: previous.locals :=
    List.take_prefix _ _
  have hlength : (previous.locals.take (previous.locals.length - count.toNat)).length =
      previous.locals.length - count.toNat := by
    rw [List.length_take]
    omega
  have hgone : previous.locals.length - (previous.locals.length - count.toNat) = count.toNat := by
    omega
  simp only [entryAfter, hlength, hgone]
  rw [if_pos (by omega), if_pos (by simpa [hkept] using hlast), if_neg (by omega),
    UInt8.ofNat_toNat]

theorem entryAfter_append {added : List T} (hfits : 1 ≤ added.length ∧ added.length ≤ 3) :
    (⟨previous.locals ++ added, []⟩ : Layout T).entryAfter previous delta =
      .append delta added := by
  obtain ⟨hfirst, hlast⟩ := hfits
  simp only [entryAfter, List.length_append]
  rw [if_neg (by omega), if_pos, List.drop_left]
  simp only [Bool.and_eq_true, decide_eq_true_eq, List.isPrefixOf_iff_prefix]
  exact ⟨by omega, List.prefix_append _ _⟩

end Choice

variable {l previous : Layout PooledType} {e : StackMapEntry PooledType}

/-- An entry that can be stored is the one that is chosen for its frame, unless it is in full. -/
theorem entryAfter_of_expand? (hfits : e.Fits) (h : expand? previous.locals e = some l) :
    l.entryAfter previous e.delta = e ∨ e = l.fullEntry e.delta := by
  cases e with
  | same delta =>
    cases h
    exact Or.inl (entryAfter_same previous delta)
  | sameWithStack delta entry =>
    cases h
    exact Or.inl (entryAfter_sameWithStack previous delta entry)
  | chop delta count =>
    simp only [expand?] at h
    split at h
    · cases h
      exact Or.inl (entryAfter_chop previous delta hfits ‹_›)
    · cases h
  | append delta added =>
    cases h
    exact Or.inl (entryAfter_append previous delta hfits)
  | full delta locals stack =>
    cases h
    exact Or.inr rfl

/-- No entry is longer than the one that stores its frame in full. -/
theorem byteSize_le_fullEntry (h : expand? previous.locals e = some l) :
    e.byteSize ≤ (l.fullEntry e.delta).byteSize := by
  cases e with
  | same delta =>
    simp only [StackMapEntry.byteSize, fullEntry, PooledType.listSize]
    split <;> omega
  | sameWithStack delta entry =>
    cases h
    simp only [StackMapEntry.byteSize, fullEntry, PooledType.listSize, total_cons, total_nil]
    split <;> omega
  | chop delta count =>
    simp only [StackMapEntry.byteSize, fullEntry]
    omega
  | append delta added =>
    cases h
    simp only [StackMapEntry.byteSize, fullEntry, PooledType.listSize, total_append]
    omega
  | full delta locals stack =>
    cases h
    exact Nat.le_refl _

/-- The entry that is chosen can be stored, if it is not in full. -/
theorem fits_entryAfter (l previous : Layout PooledType) (delta : UInt16) :
    (l.entryAfter previous delta).Fits ∨ l.entryAfter previous delta = l.fullEntry delta := by
  unfold entryAfter
  split
  · split
    · dsimp only
      split
      · rename_i hgone
        simp only [Bool.and_eq_true, decide_eq_true_eq] at hgone
        split
        · exact Or.inl trivial
        · have hcount : (UInt8.ofNat (previous.locals.length - l.locals.length)).toNat =
              previous.locals.length - l.locals.length :=
            UInt8.toNat_ofNat_of_lt' (by simp only [UInt8.size]; omega)
          left
          constructor
          · show 1 ≤ (UInt8.ofNat _).toNat
            omega
          · show (UInt8.ofNat _).toNat ≤ 3
            omega
      · exact Or.inr rfl
    · split
      · rename_i hadded
        simp only [Bool.and_eq_true, decide_eq_true_eq] at hadded
        left
        simp only [StackMapEntry.Fits, List.length_drop]
        omega
      · exact Or.inr rfl
  · split
    · exact Or.inl trivial
    · exact Or.inr rfl
  · exact Or.inr rfl

/-- Storing a frame after another one loses nothing and takes no more bytes than needed: the entry
that is chosen has the distance and expands to the frame, and of all entries that can be stored, with
this distance, and that expand to the frame, none is shorter. Where there are any, the entry that is
chosen can be stored too. -/
theorem entryAfter_shortest (l previous : Layout PooledType) (delta : UInt16) :
    (l.entryAfter previous delta).delta = delta ∧
    expand? previous.locals (l.entryAfter previous delta) = some l ∧
    ∀ (e : StackMapEntry PooledType) (out out' : Bytes), e.delta = delta →
      e.put out = .ok () out' → expand? previous.locals e = some l →
      (l.entryAfter previous delta).byteSize ≤ e.byteSize ∧
      ∃ stored, (l.entryAfter previous delta).put out = .ok () stored := by
  refine ⟨delta_entryAfter l previous delta, expand?_entryAfter l previous delta, ?_⟩
  rintro e out out' rfl hput h
  obtain ⟨hfits, -⟩ := (StackMapEntry.writes_put e out () out').1 hput
  obtain hchosen | hfull := entryAfter_of_expand? hfits h
  · rw [hchosen]
    exact ⟨Nat.le_refl _, out', hput⟩
  · have hle := byteSize_le_fullEntry (expand?_entryAfter l previous e.delta)
    rw [delta_entryAfter, ← hfull] at hle
    refine ⟨hle, ?_⟩
    obtain hchosen | hchosen := fits_entryAfter l previous e.delta
    · exact ⟨_, (StackMapEntry.writes_put _ out () _).2 ⟨hchosen, rfl⟩⟩
    · rw [hchosen, ← hfull]
      exact ⟨out', hput⟩

/-- A frame that loses a local takes three bytes; in full it would take eight. -/
theorem entryAfter_shortest_chop :
    (⟨[.int], []⟩ : Layout PooledType).entryAfter ⟨[.int, .float], []⟩ 70 = .chop 70 1 ∧
    ∃ out, StackMapEntry.put (.full 70 [.int] []) #[] = .ok () out ∧ out.size = 8 ∧
      StackMapEntry.byteSize (.chop 70 1) ≤ StackMapEntry.byteSize (.full 70 [.int] []) ∧
      ∃ stored, StackMapEntry.put (.chop 70 1) #[] = .ok () stored := by
  have hfull : StackMapEntry.put (.full 70 [.int] []) #[] =
      .ok () #[255, 0, 70, 0, 1, 1, 0, 0] := rfl
  refine ⟨rfl, _, hfull, rfl, ?_⟩
  exact (entryAfter_shortest ⟨[.int], []⟩ ⟨[.int, .float], []⟩ 70).2.2 (.full 70 [.int] []) #[] _
    rfl hfull rfl

end JvmClass.Layout
