import JvmClass.Proofs.Image.Telling

/-!
# How attributes are gathered

The attributes of a class, a field or a method are gone through in order. Some are read as they are
met, and of others the last one with a name is kept (`lastNamed`). Fields and methods are read as
they are stored before anything is made of their attributes.
-/

namespace JvmClass

theorem Step.of_bind {σ α β : Type} (x : Except ClassError α) (k : α → Except ClassError β) :
    (Step.of (x >>= k) : Step σ β) = Step.of x >>= fun a => Step.of (k a) := by
  cases x <;> rfl

/-- Where the body of an attribute ends. -/
def AttributeSpan.stop (span : AttributeSpan) : Nat := span.offset + span.size

/-- A field or method as it is stored. -/
structure StoredMember where
  flags : UInt16
  name : String
  descriptor : String
  attributes : List AttributeSpan

/-- The declaration of a stored method, as far as its attributes do not tell it. -/
def StoredMember.method (m : StoredMember) : MethodDeclaration where
  flags := .decode m.flags
  name := m.name
  descriptor := m.descriptor
  signature := none
  exceptions := []

/-- The attribute that counts of those with a name: the last one. -/
def lastNamed (name : String) (spans : List AttributeSpan) : Option AttributeSpan :=
  spans.reverse.find? (·.name == name)

theorem lastNamed_cons (name : String) (span : AttributeSpan) (rest : List AttributeSpan) :
    lastNamed name (span :: rest) =
      (lastNamed name rest).or (if span.name == name then some span else none) := by
  unfold lastNamed
  rw [List.reverse_cons, List.find?_append, List.find?_singleton]

namespace ClassImage

variable {image : ClassImage} {skip : Skip}

section Folds

variable {σ α : Type} {f : σ → α → Except ClassError σ} {s r : σ}

/-- A fold that ends has got past each item. -/
theorem step_of_foldlM {items : List α} (h : items.foldlM f s = .ok r) {a : α} (ha : a ∈ items) :
    ∃ t t', f t a = .ok t' := by
  induction items generalizing s with
  | nil => cases ha
  | cons first rest ih =>
    rw [List.foldlM_cons] at h
    obtain ⟨t, ht, h⟩ := Step.except_bind_ok.1 h
    rcases List.mem_cons.1 ha with rfl | ha
    · exact ⟨s, t, ht⟩
    · exact ih h ha

/-- A fold in which each attribute with a name takes the place of the one before. -/
theorem last_of_foldlM {f : σ → AttributeSpan → Except ClassError σ}
    {get : σ → Option AttributeSpan} {name : String}
    (hf : ∀ t span t', f t span = .ok t' →
      get t' = if span.name == name then some span else get t)
    {spans : List AttributeSpan} (h : spans.foldlM f s = .ok r) :
    get r = (lastNamed name spans).or (get s) := by
  induction spans generalizing s with
  | nil =>
    cases h
    rfl
  | cons span rest ih =>
    rw [List.foldlM_cons] at h
    obtain ⟨t, ht, h⟩ := Step.except_bind_ok.1 h
    rw [ih h, hf s span t ht, lastNamed_cons, Option.or_assoc]
    split <;> rfl

end Folds

section Adding

variable {span : AttributeSpan}

theorem readTextOf_ok {text : String} (h : image.readTextOf span = .ok text) :
    ∃ index, image.readBody span Scan.u16 = .ok index := by
  obtain ⟨index, hindex, -⟩ := Step.except_bind_ok.1 h
  exact ⟨index, hindex⟩

/-- Adding an attribute that members have in common. -/
structure Adds (image : ClassImage) (s : MemberAttributes) (span : AttributeSpan)
    (s' : MemberAttributes) : Prop where
  signature : span.name = "Signature" → ∃ index, image.readBody span Scan.u16 = .ok index
  visible : s'.visible =
    if span.name == "RuntimeVisibleAnnotations" then some span else s.visible
  invisible : s'.invisible =
    if span.name == "RuntimeInvisibleAnnotations" then some span else s.invisible

theorem addAttribute_ok {s s' : MemberAttributes} (h : image.addAttribute s span = .ok s') :
    image.Adds s span s' := by
  unfold addAttribute at h
  split at h
  · rename_i hname
    obtain ⟨text, htext, h⟩ := Step.except_bind_ok.1 h
    cases h
    exact ⟨fun _ => readTextOf_ok htext, by simp [eq_of_beq hname], by simp [eq_of_beq hname]⟩
  split at h
  · rename_i hname
    cases h
    have hname := eq_of_beq hname
    exact ⟨by simp [hname], by simp [hname], by simp [hname]⟩
  split at h
  · rename_i hname
    cases h
    have hname := eq_of_beq hname
    exact ⟨by simp [hname], by simp [hname], by simp [hname]⟩
  · rename_i h1 h2 h3
    cases h
    exact ⟨fun hname => absurd (beq_iff_eq.2 hname) h1, by rw [if_neg h2], by rw [if_neg h3]⟩

/-- Adding an attribute that members do not have in common. -/
theorem adds_other (s : MemberAttributes) (h1 : span.name ≠ "Signature")
    (h2 : span.name ≠ "RuntimeVisibleAnnotations")
    (h3 : span.name ≠ "RuntimeInvisibleAnnotations") : image.Adds s span s :=
  ⟨fun h => absurd h h1, by rw [if_neg (by simpa using h2)], by rw [if_neg (by simpa using h3)]⟩

/-- Adding an attribute of a class. -/
structure AddsToClass (image : ClassImage) (s : ClassAttributes) (span : AttributeSpan)
    (s' : ClassAttributes) : Prop where
  sourceFile : s'.sourceFile = if span.name == "SourceFile" then some span else s.sourceFile
  nestHost : s'.nestHost = if span.name == "NestHost" then some span else s.nestHost
  enclosingMethod : s'.enclosingMethod =
    if span.name == "EnclosingMethod" then some span else s.enclosingMethod
  nestMembers : s'.nestMembers = if span.name == "NestMembers" then some span else s.nestMembers
  innerClasses : s'.innerClasses =
    if span.name == "InnerClasses" then some span else s.innerClasses
  common : image.Adds s.common span s'.common

theorem addClassAttribute_ok {s s' : ClassAttributes}
    (h : image.addClassAttribute s span = .ok s') : image.AddsToClass s span s' := by
  unfold addClassAttribute at h
  split_ifs at h with h1 h2 h3 h4 h5 h6
  case neg =>
    obtain ⟨common, hcommon, h⟩ := Step.except_bind_ok.1 h
    cases h
    exact ⟨by rw [if_neg h1], by rw [if_neg h2], by rw [if_neg h3], by rw [if_neg h4],
      by rw [if_neg h5], addAttribute_ok hcommon⟩
  all_goals
    cases h
    have hname := eq_of_beq ‹_›
    constructor
    case common => exact adds_other _ (by simp [hname]) (by simp [hname]) (by simp [hname])
    all_goals simp [hname]

/-- Adding an attribute of a field. -/
theorem addFieldAttribute_ok {s s' : FieldAttributes}
    (h : image.addFieldAttribute s span = .ok s') :
    (span.name = "ConstantValue" → ∃ index, image.readBody span Scan.u16 = .ok index) ∧
      image.Adds s.common span s'.common := by
  unfold addFieldAttribute at h
  split at h
  · have hname := eq_of_beq ‹_›
    obtain ⟨index, hindex, h⟩ := Step.except_bind_ok.1 h
    obtain ⟨value, hvalue, h⟩ := Step.except_bind_ok.1 h
    cases h
    exact ⟨fun _ => ⟨index, hindex⟩,
      adds_other _ (by simp [hname]) (by simp [hname]) (by simp [hname])⟩
  · rename_i hne
    obtain ⟨common, hcommon, h⟩ := Step.except_bind_ok.1 h
    cases h
    exact ⟨fun hname => absurd (beq_iff_eq.2 hname) hne, addAttribute_ok hcommon⟩

/-- Adding an attribute of a method. -/
structure AddsToMethod (image : ClassImage) (s : MethodAttributes) (span : AttributeSpan)
    (s' : MethodAttributes) : Prop where
  code : s'.code = if span.name == "Code" then some span else s.code
  exceptions : span.name = "Exceptions" →
    ∃ classes, image.readBody span image.readClasses = .ok classes
  common : image.Adds s.common span s'.common

theorem addMethodAttribute_ok {s s' : MethodAttributes}
    (h : image.addMethodAttribute s span = .ok s') : image.AddsToMethod s span s' := by
  unfold addMethodAttribute at h
  split at h
  · cases h
    have hname := eq_of_beq ‹_›
    exact ⟨by simp [hname], by simp [hname],
      adds_other _ (by simp [hname]) (by simp [hname]) (by simp [hname])⟩
  split at h
  · have hname := eq_of_beq ‹_›
    obtain ⟨classes, hclasses, h⟩ := Step.except_bind_ok.1 h
    cases h
    exact ⟨by simp [hname], fun _ => ⟨classes, hclasses⟩,
      adds_other _ (by simp [hname]) (by simp [hname]) (by simp [hname])⟩
  · rename_i h1 h2
    obtain ⟨common, hcommon, h⟩ := Step.except_bind_ok.1 h
    cases h
    exact ⟨by rw [if_neg h1], fun hname => absurd (beq_iff_eq.2 hname) h2,
      addAttribute_ok hcommon⟩

end Adding

section Members

/-- Reads a field or method as it is stored. -/
def readMember (image : ClassImage) : Scan StoredMember := do
  let flags ← Scan.u16
  let name ← image.readUtf8
  let descriptor ← image.readUtf8
  return ⟨flags, name, descriptor, ← image.readAttributes⟩

/-- What a stored field declares, and its other attributes. -/
def fieldOf (image : ClassImage) (m : StoredMember) :
    Except ClassError (FieldDeclaration × MemberAttributes) := do
  let attributes ← m.attributes.foldlM image.addFieldAttribute {}
  return ({ flags := .decode m.flags, name := m.name, descriptor := m.descriptor,
            signature := attributes.common.signature, value := attributes.value },
          attributes.common)

/-- What a stored method declares, and its attributes. -/
def methodOf (image : ClassImage) (m : StoredMember) :
    Except ClassError (MethodDeclaration × MethodAttributes) := do
  let attributes ← m.attributes.foldlM image.addMethodAttribute {}
  return ({ m.method with
            signature := attributes.common.signature
            exceptions := attributes.exceptions.toList }, attributes)

theorem readField_eq :
    image.readField = image.readMember >>= fun m => Step.of (image.fieldOf m) := by
  simp only [readField, readMember, fieldOf, Step.of_bind, bind_assoc, pure_bind]
  rfl

theorem readMethod_eq :
    image.readMethod = image.readMember >>= fun m => Step.of (image.methodOf m) := by
  simp only [readMethod, readMember, methodOf, Step.of_bind, bind_assoc, pure_bind]
  rfl

/-- Items that are made of what is read. -/
theorem timesFrom_of_bind {α β : Type} {read : Scan α} {f : α → Except ClassError β} {n : Nat}
    {done items : List β} {c c' : Cursor}
    (h : Scan.timesFrom (read >>= fun a => Step.of (f a)) done n c = .ok items c')
    (before : List α) : ∃ found, Scan.timesFrom read before n c = .ok (before.reverse ++ found) c' ∧
      (∀ b ∈ done, b ∈ items) ∧ ∀ a ∈ found, ∃ b ∈ items, f a = .ok b := by
  induction n generalizing c done before with
  | zero =>
    obtain ⟨rfl, rfl⟩ := Step.pure_ok.1 h
    exact ⟨[], by rw [List.append_nil]; rfl, fun b hb => List.mem_reverse.2 hb,
      fun _ h => nomatch h⟩
  | succ n ih =>
    obtain ⟨b, mid, hb, h⟩ := Step.bind_ok.1 h
    obtain ⟨a, mid', ha, hmade⟩ := Step.bind_ok.1 hb
    obtain ⟨hf, rfl⟩ := Step.of_ok.1 hmade
    obtain ⟨found, hfound, hdone, hitems⟩ := ih h (a :: before)
    refine ⟨a :: found, Step.bind_ok.2 ⟨a, mid', ha, ?_⟩, ?_, ?_⟩
    · rw [hfound, List.reverse_cons, List.append_assoc]
      rfl
    · exact fun b' hb' => hdone b' (List.mem_cons_of_mem _ hb')
    · exact List.forall_mem_cons.2 ⟨⟨b, hdone b List.mem_cons_self, hf⟩, hitems⟩

theorem counted_of_bind {α β : Type} {read : Scan α} {f : α → Except ClassError β} {data : Bytes}
    {start : Nat} {items : List β}
    (h : Scan.runAt data start (Scan.counted (read >>= fun a => Step.of (f a))) = .ok items) :
    ∃ found, Scan.runAt data start (Scan.counted read) = .ok found ∧
      ∀ a ∈ found, ∃ b ∈ items, f a = .ok b := by
  obtain ⟨c, h⟩ := Scan.runAt_ok.1 h
  obtain ⟨n, mid, hn, h⟩ := Step.bind_ok.1 h
  obtain ⟨found, hfound, -, hitems⟩ := timesFrom_of_bind h []
  exact ⟨found, Scan.runAt_ok.2 ⟨c, Step.bind_ok.2 ⟨n, mid, hn, hfound⟩⟩, hitems⟩

end Members

end ClassImage
end JvmClass
