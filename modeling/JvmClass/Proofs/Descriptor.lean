import JvmClass.Descriptor.Parse

/-!
# Descriptors are read as they are written

A reader of types accepts the characters of a type at the front of a descriptor, leaves the cursor
behind them, and accepts nothing else (`Takes`). What it takes is never in doubt: the name of a class
ends at the first semicolon, which no name contains, brackets end before an element, and no type
starts with the character that ends the parameters of a method or stands for no return type. So a
text is read as a type exactly if it is the text of the type, and the type can be written down at all
(`parseDescriptor_iff_render`).
-/

namespace JvmClass

/-- The name is that of a class. -/
def ClassName.Valid (cls : ClassName) : Prop := ClassName.fault? cls.text = none

/-- An array has at most 255 dimensions. -/
def RefType.Valid : RefType → Prop
  | .object cls => cls.Valid
  | .objectArray extra element => extra + 1 ≤ 255 ∧ element.Valid
  | .primitiveArray extra _ => extra + 1 ≤ 255

def FieldType.Valid : FieldType → Prop
  | .base _ => True
  | .ref type => type.Valid

def MethodDescriptor.Valid (d : MethodDescriptor) : Prop :=
  (∀ type ∈ d.parameters, type.Valid) ∧ ∀ type ∈ d.returnType, type.Valid

/-! ### Cursors -/

namespace DescriptorCursor

/-- Going over characters leads from a cursor to one behind them. -/
def Passes (c : DescriptorCursor) (chars : List Char) (after : DescriptorCursor) : Prop :=
  c.rest = chars ++ after.rest ∧ after.offset = c.offset + total Char.utf8Size chars

variable {c mid after after' : DescriptorCursor} {a b chars rest : List Char} {offset : Nat}
  {first : Char}

theorem passes_nil : c.Passes [] after ↔ after = c := by
  obtain ⟨rest, offset⟩ := c
  obtain ⟨rest', offset'⟩ := after
  simp [Passes, eq_comm]

theorem passes_cons : (⟨first :: rest, offset⟩ : DescriptorCursor).Passes (first :: chars) after ↔
    (⟨rest, offset + first.utf8Size⟩ : DescriptorCursor).Passes chars after := by
  simp [Passes, Nat.add_assoc]

theorem Passes.append (h : c.Passes a mid) (h' : mid.Passes b after) :
    c.Passes (a ++ b) after := by
  obtain ⟨hrest, hoffset⟩ := h
  obtain ⟨hrest', hoffset'⟩ := h'
  constructor
  · rw [hrest, hrest', List.append_assoc]
  · rw [hoffset', hoffset, total_append, Nat.add_assoc]

theorem passes_append : c.Passes (a ++ b) after ↔ ∃ mid, c.Passes a mid ∧ mid.Passes b after := by
  constructor
  · rintro ⟨hrest, hoffset⟩
    refine ⟨⟨b ++ after.rest, c.offset + total Char.utf8Size a⟩, ⟨?_, rfl⟩, rfl, ?_⟩
    · rw [hrest, List.append_assoc]
    · rw [hoffset, total_append, Nat.add_assoc]
  · rintro ⟨mid, h, h'⟩
    exact h.append h'

/-- A name that is taken is what comes before the first semicolon. -/
theorem takeName_iff {name taken : List Char} :
    takeName name offset rest = some (taken, after) ↔ ∃ front, taken = name.reverse ++ front ∧
      ';' ∉ front ∧ (⟨rest, offset⟩ : DescriptorCursor).Passes (front ++ [';']) after := by
  induction rest generalizing name offset with
  | nil => simp [takeName, Passes]
  | cons first rest ih =>
    by_cases hend : first = ';'
    · subst hend
      simp only [takeName, Option.some.injEq, Prod.mk.injEq]
      constructor
      · rintro ⟨rfl, rfl⟩
        exact ⟨[], by simp, by simp, passes_cons.2 (passes_nil.2 rfl)⟩
      · rintro ⟨_ | ⟨other, front⟩, rfl, hfront, hpasses⟩
        · exact ⟨by simp, (passes_nil.1 (passes_cons.1 hpasses)).symm⟩
        · obtain rfl : ';' = other := (List.cons.inj hpasses.1).1
          exact absurd List.mem_cons_self hfront
    · have hstep : takeName name offset (first :: rest) =
          takeName (first :: name) (offset + first.utf8Size) rest := by
        rw [takeName]
        exact hend
      rw [hstep, ih]
      constructor
      · rintro ⟨front, rfl, hfront, hpasses⟩
        refine ⟨first :: front, by simp, ?_, passes_cons.2 hpasses⟩
        rw [List.mem_cons]
        rintro (he | hmem)
        · exact hend he.symm
        · exact hfront hmem
      · rintro ⟨_ | ⟨other, front⟩, rfl, hfront, hpasses⟩
        · exact absurd (List.cons.inj hpasses.1).1 hend
        · obtain rfl : first = other := (List.cons.inj hpasses.1).1
          refine ⟨front, by simp, fun hmem => hfront (List.mem_cons_of_mem _ hmem), ?_⟩
          exact passes_cons.1 hpasses

theorem takeBrackets_of_head (count : Nat) (h : rest.head? ≠ some '[') :
    takeBrackets count offset rest = (count, ⟨rest, offset⟩) := by
  rw [takeBrackets]
  rintro rest' rfl
  exact h rfl

/-- Brackets are taken up to something else. -/
theorem takeBrackets_passes (count offset : Nat) (rest : List Char) : ∃ more after,
    takeBrackets count offset rest = (count + more, after) ∧
    (⟨rest, offset⟩ : DescriptorCursor).Passes (List.replicate more '[') after ∧
    after.rest.head? ≠ some '[' := by
  induction rest generalizing count offset with
  | nil => exact ⟨0, ⟨[], offset⟩, rfl, passes_nil.2 rfl, by simp⟩
  | cons first rest ih =>
    by_cases hopen : first = '['
    · subst hopen
      obtain ⟨more, after, htake, hpasses, hhead⟩ := ih (count + 1) (offset + 1)
      refine ⟨more + 1, after, ?_, passes_cons.2 hpasses, hhead⟩
      rw [takeBrackets, htake, Nat.add_assoc, Nat.add_comm 1]
    · have hhead : (first :: rest).head? ≠ some '[' := by simpa using hopen
      exact ⟨0, ⟨first :: rest, offset⟩, takeBrackets_of_head count hhead, passes_nil.2 rfl, hhead⟩

theorem takeBrackets_of_passes {count more : Nat}
    (h : (⟨rest, offset⟩ : DescriptorCursor).Passes (List.replicate more '[') after)
    (hhead : after.rest.head? ≠ some '[') :
    takeBrackets count offset rest = (count + more, after) := by
  induction more generalizing count offset rest with
  | zero =>
    obtain rfl := passes_nil.1 h
    exact takeBrackets_of_head count hhead
  | succ more ih =>
    obtain rfl : rest = '[' :: (List.replicate more '[' ++ after.rest) := h.1
    have htake : takeBrackets (count + 1) (offset + 1) (List.replicate more '[' ++ after.rest) =
        (count + 1 + more, after) := ih (passes_cons.1 h)
    rw [takeBrackets, htake, Nat.add_assoc, Nat.add_comm 1]

end DescriptorCursor

open DescriptorCursor

/-! ### Readers -/

/-- A reader accepts the characters of valid types, at the front of whatever follows them, and
nothing else. -/
def Takes {α : Type} (take : DescriptorCursor → Except DescriptorFault (α × DescriptorCursor))
    (chars : α → List Char) (valid : α → Prop) : Prop :=
  ∀ c type after, take c = .ok (type, after) ↔ valid type ∧ c.Passes (chars type) after

namespace BaseType

theorem ofLetter?_eq_some {letter : Char} {type : BaseType} :
    ofLetter? letter = some type ↔ letter = type.letter := by
  constructor
  · intro h
    unfold ofLetter? at h
    split at h <;> cases h <;> rfl
  · rintro rfl
    exact ofLetter?_letter type

theorem utf8Size_letter (type : BaseType) : type.letter.utf8Size = 1 := by
  cases type <;> rfl

theorem takes : Takes BaseType.take (fun type => [type.letter]) fun _ => True := by
  rintro ⟨rest, offset⟩ type after
  constructor
  · intro h
    unfold BaseType.take at h
    split at h
    · cases h
    · rename_i letter rest hrest
      obtain rfl : _ = letter :: rest := hrest
      split at h
      · rename_i hletter
        cases h
        obtain rfl := ofLetter?_eq_some.1 hletter
        exact ⟨trivial, rfl, by simp [utf8Size_letter]⟩
      · cases h
  · rintro ⟨-, hpasses⟩
    obtain rfl : rest = type.letter :: after.rest := hpasses.1
    have hafter : after = ⟨after.rest, offset + 1⟩ := by
      rw [← utf8Size_letter type]
      exact passes_nil.1 (passes_cons.1 hpasses)
    simp only [BaseType.take, ofLetter?_letter]
    rw [← hafter]

end BaseType

namespace ClassName

/-- No segment of the name of a class has a character that descriptors reserve. -/
theorem isReserved_of_segmentsFault? {segment rest : List Char} {c : Char}
    (h : segmentsFault? segment rest = none) (hc : c ∈ segment ∨ c ∈ rest) :
    isReserved c = false := by
  have hjudged : ∀ {segment : List Char}, ¬ segment.any isReserved = true → c ∈ segment →
      isReserved c = false := by
    intro segment hany hmem
    exact Bool.eq_false_iff.2 fun hreserved => hany (List.any_eq_true.2 ⟨c, hmem, hreserved⟩)
  induction rest generalizing segment with
  | nil =>
    simp only [segmentsFault?] at h
    split at h
    · cases h
    · split at h
      · cases h
      · exact hjudged ‹_› (hc.resolve_right List.not_mem_nil)
  | cons first rest ih =>
    rw [segmentsFault?] at h
    split at h
    · rename_i hslash
      split at h
      · cases h
      · split at h
        · cases h
        · rcases hc with hmem | hmem
          · exact hjudged ‹_› hmem
          · rcases List.mem_cons.1 hmem with rfl | hmem
            · rw [hslash]
              rfl
            · exact ih h (Or.inr hmem)
    · apply ih h
      rcases hc with hmem | hmem
      · exact Or.inl (List.mem_cons_of_mem _ hmem)
      · rcases List.mem_cons.1 hmem with rfl | hmem
        · exact Or.inl List.mem_cons_self
        · exact Or.inr hmem

variable {cls : ClassName}

theorem Valid.isReserved (h : cls.Valid) {c : Char} (hc : c ∈ cls.text.toList) :
    ClassName.isReserved c = false := by
  unfold Valid fault? faultOf? at h
  split at h
  · cases h
  · exact isReserved_of_segmentsFault? h (Or.inr hc)

theorem takes : Takes ClassName.take ClassName.chars ClassName.Valid := by
  rintro ⟨rest, offset⟩ cls after
  constructor
  · intro h
    unfold ClassName.take at h
    split at h
    · rename_i rest hrest
      obtain rfl : _ = 'L' :: rest := hrest
      split at h
      · cases h
      · rename_i name mid hname
        obtain ⟨front, rfl, -, hpasses⟩ := takeName_iff.1 hname
        simp only at h
        split at h
        · cases h
        · rename_i hfault
          cases h
          refine ⟨?_, passes_cons.2 ?_⟩
          · unfold Valid fault?
            rwa [String.toList_ofList]
          · rw [String.toList_ofList]
            exact hpasses
    · cases h
  · rintro ⟨hvalid, hpasses⟩
    obtain rfl : rest = 'L' :: (cls.text.toList ++ [';'] ++ after.rest) := hpasses.1
    have hend : ';' ∉ cls.text.toList := by
      intro hmem
      have := hvalid.isReserved hmem
      simp [ClassName.isReserved] at this
    have hname : takeName [] (offset + 1) (cls.text.toList ++ [';'] ++ after.rest) =
        some (cls.text.toList, after) := takeName_iff.2 ⟨_, rfl, hend, passes_cons.1 hpasses⟩
    have hfault : faultOf? cls.text.toList = none := hvalid
    simp only [ClassName.take, hname, hfault, String.ofList_toList]

end ClassName

namespace RefType

variable {c after : DescriptorCursor} {type : RefType}

theorem passes_of_take (h : RefType.take c = .ok (type, after)) :
    type.Valid ∧ c.Passes type.chars after := by
  obtain ⟨dimensions, mid, hbrackets, hopen, -⟩ := takeBrackets_passes 0 c.offset c.rest
  rw [Nat.zero_add] at hbrackets
  simp only [RefType.take, hbrackets] at h
  split at h
  · cases h
  · rename_i hmost
    have hmost : dimensions ≤ 255 := Nat.le_of_not_lt hmost
    split at h
    · cases hcls : ClassName.take mid with
      | error fault =>
        rw [hcls] at h
        cases h
      | ok taken =>
        rw [hcls] at h
        obtain ⟨hvalid, hpasses⟩ := (ClassName.takes _ _ _).1 hcls
        cases dimensions with
        | zero =>
          cases h
          rw [passes_nil.1 hopen] at hpasses
          exact ⟨hvalid, hpasses⟩
        | succ extra =>
          cases h
          exact ⟨⟨hmost, hvalid⟩, hopen.append hpasses⟩
    · cases dimensions with
      | zero => cases h
      | succ extra =>
        cases htype : BaseType.take mid with
        | error fault =>
          simp only [htype] at h
          cases h
        | ok taken =>
          simp only [htype] at h
          cases h
          exact ⟨hmost, hopen.append ((BaseType.takes _ _ _).1 htype).2⟩

theorem take_of_passes (hvalid : type.Valid) (hpasses : c.Passes type.chars after) :
    RefType.take c = .ok (type, after) := by
  cases type with
  | object cls =>
    have hcls := (ClassName.takes c cls after).2 ⟨hvalid, hpasses⟩
    have hhead : c.rest.head? = some 'L' := by
      rw [hpasses.1]
      rfl
    have hbrackets : takeBrackets 0 c.offset c.rest = (0, c) :=
      takeBrackets_of_head 0 (by rw [hhead]; decide)
    simp [RefType.take, hbrackets, hhead, hcls]
  | objectArray extra cls =>
    obtain ⟨hmost, hvalid⟩ := hvalid
    obtain ⟨mid, hopen, hpasses⟩ := passes_append.1 hpasses
    have hcls := (ClassName.takes mid cls after).2 ⟨hvalid, hpasses⟩
    have hhead : mid.rest.head? = some 'L' := by
      rw [hpasses.1]
      rfl
    have hbrackets : takeBrackets 0 c.offset c.rest = (0 + (extra + 1), mid) :=
      takeBrackets_of_passes hopen (by rw [hhead]; decide)
    have hfew : ¬ maxDimensions < extra + 1 := Nat.not_lt.2 hmost
    simp [RefType.take, hbrackets, hhead, hcls, hfew]
  | primitiveArray extra base =>
    obtain ⟨mid, hopen, hpasses⟩ := passes_append.1 hpasses
    have htype := (BaseType.takes mid base after).2 ⟨trivial, hpasses⟩
    have hhead : mid.rest.head? = some base.letter := by
      rw [hpasses.1]
      rfl
    have hbrackets : takeBrackets 0 c.offset c.rest = (0 + (extra + 1), mid) :=
      takeBrackets_of_passes hopen (by rw [hhead]; cases base <;> decide)
    have hfew : ¬ maxDimensions < extra + 1 := Nat.not_lt.2 hvalid
    have hbase : base.letter ≠ 'L' := by cases base <;> decide
    simp [RefType.take, hbrackets, hhead, htype, hfew, hbase]

theorem takes : Takes RefType.take RefType.chars RefType.Valid := by
  intro c type after
  constructor
  · exact passes_of_take
  · rintro ⟨hvalid, hpasses⟩
    exact take_of_passes hvalid hpasses

end RefType

namespace FieldType

/-- The first character of a type tells whether it is a reference type. -/
theorem chars_eq_cons (type : FieldType) : ∃ first rest, type.chars = first :: rest ∧
    first ≠ ')' ∧ first ≠ 'V' ∧
    ((first = 'L' ∨ first = '[') ↔ ∃ ref, type = .ref ref) := by
  cases type with
  | base type =>
    refine ⟨type.letter, [], rfl, ?_⟩
    cases type <;> simp [BaseType.letter]
  | ref type =>
    cases type with
    | object cls => exact ⟨'L', cls.text.toList ++ [';'], rfl, by simp⟩
    | objectArray extra element =>
      exact ⟨'[', List.replicate extra '[' ++ element.chars, rfl, by simp⟩
    | primitiveArray extra element =>
      exact ⟨'[', List.replicate extra '[' ++ [element.letter], rfl, by simp⟩

theorem takes : Takes FieldType.take FieldType.chars FieldType.Valid := by
  intro c type after
  constructor
  · intro h
    unfold FieldType.take at h
    split at h
    · cases href : RefType.take c with
      | error fault =>
        rw [href] at h
        cases h
      | ok taken =>
        rw [href] at h
        cases h
        exact (RefType.takes _ _ _).1 href
    · cases htype : BaseType.take c with
      | error fault =>
        rw [htype] at h
        cases h
      | ok taken =>
        rw [htype] at h
        cases h
        exact (BaseType.takes _ _ _).1 htype
  · rintro ⟨hvalid, hpasses⟩
    obtain ⟨first, rest, hchars, -, -, hfirst⟩ := type.chars_eq_cons
    have hhead : c.rest.head? = some first := by
      rw [hpasses.1, hchars]
      rfl
    cases type with
    | base type =>
      have htype := (BaseType.takes c type after).2 ⟨trivial, hpasses⟩
      have hother : ¬ (first = 'L' ∨ first = '[') := by simp [hfirst]
      simp [FieldType.take, hhead, hother, htype]
    | ref type =>
      have htype := (RefType.takes c type after).2 ⟨hvalid, hpasses⟩
      have hstarts : first = 'L' ∨ first = '[' := hfirst.2 ⟨type, rfl⟩
      simp [FieldType.take, hhead, hstarts, htype, Except.map]

end FieldType

/-! ### Methods -/

section Parameters

variable {read parameters : List FieldType} {budget : Nat} {c after : DescriptorCursor}

/-- The types that are taken as parameters come before a parenthesis. -/
theorem passes_of_takeParameters (h : takeParameters read budget c = .ok (parameters, after)) :
    ∃ new, parameters = read.reverse ++ new ∧ (∀ type ∈ new, type.Valid) ∧
      c.Passes (new.flatMap FieldType.chars ++ [')']) after := by
  induction budget generalizing read c with
  | zero => cases h
  | succ budget ih =>
    obtain ⟨rest, offset⟩ := c
    unfold takeParameters at h
    split at h
    · cases h
    · rename_i rest hrest
      obtain rfl : _ = ')' :: rest := hrest
      cases h
      exact ⟨[], by simp, by simp, passes_cons.2 (passes_nil.2 rfl)⟩
    · split at h
      · cases h
      · rename_i type mid htype
        obtain ⟨hvalid, hpasses⟩ := (FieldType.takes _ _ _).1 htype
        obtain ⟨new, rfl, hall, hrest⟩ := ih h
        refine ⟨type :: new, by simp, ?_, ?_⟩
        · rintro other hmem
          rcases List.mem_cons.1 hmem with rfl | hmem
          · exact hvalid
          · exact hall other hmem
        · rw [List.flatMap_cons, List.append_assoc]
          exact hpasses.append hrest

/-- A type that starts at the cursor is one more parameter. -/
theorem takeParameters_step {type : FieldType} {mid : DescriptorCursor}
    (htype : FieldType.take c = .ok (type, mid)) :
    takeParameters read (budget + 1) c = takeParameters (type :: read) budget mid := by
  obtain ⟨-, hpasses⟩ := (FieldType.takes c type mid).1 htype
  obtain ⟨first, rest, hchars, hparen, -⟩ := type.chars_eq_cons
  have hrest : c.rest = first :: (rest ++ mid.rest) := by
    rw [hpasses.1, hchars]
    rfl
  rw [takeParameters]
  split
  · rename_i hnil
    rw [hrest] at hnil
    cases hnil
  · rename_i hclose
    rw [hrest] at hclose
    cases hclose
    exact absurd rfl hparen
  · rw [htype]

/-- Types before a parenthesis are taken as parameters, if the budget is above the number of
characters that are left. -/
theorem takeParameters_of_passes {new : List FieldType} (hvalid : ∀ type ∈ new, type.Valid)
    (hpasses : c.Passes (new.flatMap FieldType.chars ++ [')']) after)
    (hbudget : c.rest.length < budget) :
    takeParameters read budget c = .ok (read.reverse ++ new, after) := by
  induction new generalizing read budget c with
  | nil =>
    obtain ⟨budget, rfl⟩ := Nat.exists_eq_add_one_of_ne_zero (Nat.ne_zero_of_lt hbudget)
    obtain ⟨rest, offset⟩ := c
    obtain rfl : rest = ')' :: after.rest := hpasses.1
    have hafter : after = ⟨after.rest, offset + 1⟩ := passes_nil.1 (passes_cons.1 hpasses)
    simp only [takeParameters, List.append_nil]
    rw [← hafter]
  | cons type new ih =>
    obtain ⟨budget, rfl⟩ := Nat.exists_eq_add_one_of_ne_zero (Nat.ne_zero_of_lt hbudget)
    rw [List.flatMap_cons, List.append_assoc] at hpasses
    obtain ⟨mid, htype, hrest⟩ := passes_append.1 hpasses
    have hfewer : mid.rest.length < budget := by
      obtain ⟨first, rest, hchars, -⟩ := type.chars_eq_cons
      have hlength := congrArg List.length htype.1
      rw [hchars, List.length_append, List.length_cons] at hlength
      omega
    rw [takeParameters_step ((FieldType.takes c type mid).2 ⟨hvalid type List.mem_cons_self, htype⟩),
      ih (fun other hmem => hvalid other (List.mem_cons_of_mem _ hmem)) hrest hfewer,
      List.reverse_cons, List.append_assoc]
    rfl

end Parameters

namespace MethodDescriptor

/-- What comes after the parameters. -/
def returnChars : Option FieldType → List Char
  | none => ['V']
  | some type => type.chars

theorem chars_eq (d : MethodDescriptor) : d.chars =
    '(' :: ((d.parameters.flatMap FieldType.chars ++ [')']) ++ returnChars d.returnType) := by
  obtain ⟨parameters, _ | type⟩ := d
  · simp [MethodDescriptor.chars, returnChars]
  · simp [MethodDescriptor.chars, returnChars]

variable {c after : DescriptorCursor} {d : MethodDescriptor}

theorem passes_of_take (h : MethodDescriptor.take c = .ok (d, after)) :
    d.Valid ∧ c.Passes d.chars after := by
  obtain ⟨rest, offset⟩ := c
  rw [chars_eq]
  unfold MethodDescriptor.take at h
  split at h
  · rename_i rest hrest
    obtain rfl : _ = '(' :: rest := hrest
    split at h
    · cases h
    · rename_i parameters mid hparameters
      obtain ⟨_, rfl, hvalid, hpasses⟩ := passes_of_takeParameters hparameters
      split at h
      · rename_i rest hvoid
        cases h
        exact ⟨⟨hvalid, nofun⟩, passes_cons.2 (hpasses.append ⟨hvoid, rfl⟩)⟩
      · cases hreturn : FieldType.take mid with
        | error fault =>
          rw [hreturn] at h
          cases h
        | ok taken =>
          rw [hreturn] at h
          cases h
          obtain ⟨hvalid', hpasses'⟩ := (FieldType.takes _ _ _).1 hreturn
          refine ⟨⟨hvalid, ?_⟩, passes_cons.2 (hpasses.append hpasses')⟩
          rintro type hmem
          cases hmem
          exact hvalid'
  · cases h

theorem take_of_passes (hvalid : d.Valid) (hpasses : c.Passes d.chars after) :
    MethodDescriptor.take c = .ok (d, after) := by
  obtain ⟨rest, offset⟩ := c
  rw [chars_eq] at hpasses
  obtain ⟨parameters, returnType⟩ := d
  obtain ⟨hvalid, hvalid'⟩ := hvalid
  obtain ⟨more, rfl⟩ : ∃ more, rest = '(' :: more := ⟨_, hpasses.1⟩
  obtain ⟨mid, hparameters, hreturn⟩ := passes_append.1 (passes_cons.1 hpasses)
  have htake : takeParameters [] (more.length + 1) ⟨more, offset + 1⟩ = .ok (parameters, mid) :=
    takeParameters_of_passes hvalid hparameters (Nat.lt_succ_self _)
  cases returnType with
  | none =>
    obtain ⟨rest, stop⟩ := mid
    obtain rfl : rest = 'V' :: after.rest := hreturn.1
    have hafter : after = ⟨after.rest, stop + 1⟩ := passes_nil.1 (passes_cons.1 hreturn)
    simp only [MethodDescriptor.take, htake]
    rw [← hafter]
  | some type =>
    have htype := (FieldType.takes mid type after).2 ⟨hvalid' type rfl, hreturn⟩
    obtain ⟨first, rest, hchars, -, hvoid, -⟩ := type.chars_eq_cons
    have hrest : mid.rest = first :: (rest ++ after.rest) := by
      rw [hreturn.1, returnChars, hchars]
      rfl
    simp only [MethodDescriptor.take, htake, htype]
    split
    · rename_i hstart
      rw [hrest] at hstart
      cases hstart
      exact absurd rfl hvoid
    · rfl

theorem takes : Takes MethodDescriptor.take MethodDescriptor.chars MethodDescriptor.Valid := by
  intro c d after
  constructor
  · exact passes_of_take
  · rintro ⟨hvalid, hpasses⟩
    exact take_of_passes hvalid hpasses

end MethodDescriptor

/-! ### Whole descriptors -/

/-- A descriptor is read as a type exactly if it is the text of the type and the type is valid. -/
theorem Takes.parseDescriptor {α : Type} [ParseDescriptor α] [Render α] {valid : α → Prop}
    (h : Takes (ParseDescriptor.take : _ → Except DescriptorFault (α × _)) Render.chars valid)
    (text : String) (type : α) :
    JvmClass.parseDescriptor α text = .ok type ↔ render type = text ∧ valid type := by
  constructor
  · intro hparse
    unfold JvmClass.parseDescriptor at hparse
    split at hparse
    · cases hparse
    · rename_i after htake
      split at hparse
      · rename_i hend
        cases hparse
        obtain ⟨hvalid, hpasses⟩ := (h _ _ _).1 htake
        refine ⟨?_, hvalid⟩
        have hchars : text.toList = Render.chars type := by
          refine hpasses.1.trans ?_
          rw [List.isEmpty_iff.1 hend, List.append_nil]
        rw [render, ← hchars, String.ofList_toList]
      · cases hparse
  · rintro ⟨rfl, hvalid⟩
    have htake := (h ⟨(render type).toList, 0⟩ type ⟨[], 0 + total Char.utf8Size (Render.chars type)⟩).2
      ⟨hvalid, by rw [render, String.toList_ofList, List.append_nil], rfl⟩
    simp [JvmClass.parseDescriptor, htake]

/-! ### Names in the constant pool -/

theorem ClassName.parse_eq_ok {text : String} {cls : ClassName} :
    ClassName.parse text = .ok cls ↔ cls.text = text ∧ cls.Valid := by
  unfold ClassName.parse
  constructor
  · intro h
    split at h
    · cases h
    · rename_i hfault
      cases h
      exact ⟨rfl, Option.not_isSome_iff_eq_none.1 hfault⟩
  · rintro ⟨rfl, hvalid⟩
    rw [if_neg]
    rw [show ClassName.fault? cls.text = none from hvalid]
    decide

/-- The name of a class cannot be taken for that of an array. -/
theorem ClassName.Valid.head?_ne {cls : ClassName} (h : cls.Valid) :
    cls.text.toList.head? ≠ some '[' := by
  intro hopen
  have := h.isReserved (List.mem_of_mem_head? hopen)
  simp [ClassName.isReserved] at this

theorem RefType.ofInternalName_eq_ok {text : String} {type : RefType} :
    RefType.ofInternalName text = .ok type ↔ type.internalName = text ∧ type.Valid := by
  unfold RefType.ofInternalName
  split
  · rename_i hopen
    rw [RefType.takes.parseDescriptor]
    cases type with
    | object cls =>
      constructor
      · rintro ⟨rfl, -⟩
        simp [render, Render.chars, RefType.chars, ClassName.chars] at hopen
      · rintro ⟨rfl, hvalid⟩
        exact absurd hopen (ClassName.Valid.head?_ne hvalid)
    | objectArray extra element => exact Iff.rfl
    | primitiveArray extra element => exact Iff.rfl
  · rename_i hopen
    constructor
    · intro h
      cases hparse : ClassName.parse text with
      | error fault =>
        rw [hparse] at h
        cases h
      | ok cls =>
        rw [hparse] at h
        cases h
        exact ClassName.parse_eq_ok.1 hparse
    · rintro ⟨rfl, hvalid⟩
      cases type with
      | object cls =>
        rw [show ClassName.parse (RefType.object cls).internalName = .ok cls from
          ClassName.parse_eq_ok.2 ⟨rfl, hvalid⟩]
        rfl
      | objectArray extra element =>
        simp [RefType.internalName, render, Render.chars, RefType.chars, List.replicate_succ] at hopen
      | primitiveArray extra element =>
        simp [RefType.internalName, render, Render.chars, RefType.chars, List.replicate_succ] at hopen

/-- Reading accepts exactly what writing gives: a text is read as a type if and only if it is the text
of the type, all classes in the type have names of classes, and no array in it has more than 255
dimensions. The same holds of the names that the constant pool stores. -/
theorem parseDescriptor_iff_render :
    (∀ (text : String) (type : BaseType),
      parseDescriptor BaseType text = .ok type ↔ render type = text) ∧
    (∀ (text : String) (cls : ClassName),
      parseDescriptor ClassName text = .ok cls ↔ render cls = text ∧ cls.Valid) ∧
    (∀ (text : String) (type : RefType),
      parseDescriptor RefType text = .ok type ↔ render type = text ∧ type.Valid) ∧
    (∀ (text : String) (type : FieldType),
      parseDescriptor FieldType text = .ok type ↔ render type = text ∧ type.Valid) ∧
    (∀ (text : String) (d : MethodDescriptor),
      parseDescriptor MethodDescriptor text = .ok d ↔ render d = text ∧ d.Valid) ∧
    ∀ (text : String) (type : RefType),
      RefType.ofInternalName text = .ok type ↔ type.internalName = text ∧ type.Valid := by
  refine ⟨fun text type => ?_, ClassName.takes.parseDescriptor, RefType.takes.parseDescriptor,
    FieldType.takes.parseDescriptor, MethodDescriptor.takes.parseDescriptor,
    fun text type => RefType.ofInternalName_eq_ok⟩
  rw [BaseType.takes.parseDescriptor, and_true]

example : parseDescriptor MethodDescriptor "([[JLa/B;)V" =
    .ok ⟨[.ref (.primitiveArray 1 .long), .object ⟨"a/B"⟩], none⟩ := by rfl

end JvmClass
