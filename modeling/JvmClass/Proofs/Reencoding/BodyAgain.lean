import JvmClass.Proofs.Reencoding.SecondCourse

/-!
# A body is told as it was stored

A body that is read and told to a method, and read again where it was stored, is told again with the
same result (`ClassImage.body_again`).
-/

namespace JvmClass

open ClassBuilder (feedMethod feedMethod_append)

theorem Tell.Tells.unique {ε : Type} {tell : Tell ε Unit} {events others : List ε}
    (h : tell.Tells events) (h' : tell.Tells others) : events = others :=
  congrArg Trace.events (h.trace_eq.symm.trans h'.trace_eq)

namespace ClassImage

open MethodBuilder

variable {image image' : ClassImage} {named : NamedBody} {d d' : MethodDeclaration}
  {span : AttributeSpan} {b b' : MethodBuilder} {final : ConstantPool}

/-- A body that has been read. -/
theorem readNamedBody_ok {skip : Skip} :
    image.readNamedBody skip d span = .ok named ↔ ∃ body tables s,
      image.readBody span image.readStoredBody = .ok body ∧
      body.attributes.foldlM (image.addTable skip d) ⟨#[], #[], [], #[]⟩ = .ok tables ∧
      image.nameBody body tables Places.empty = .ok named s := by
  constructor
  · intro h
    obtain ⟨body, hbody, h⟩ := Step.except_bind_ok.1 h
    obtain ⟨tables, htables, h⟩ := Step.except_bind_ok.1 h
    split at h
    · rename_i found s hnamed
      cases h
      exact ⟨body, tables, s, hbody, htables, hnamed⟩
    · cases h
  · rintro ⟨body, tables, s, hbody, htables, hnamed⟩
    refine Step.except_bind_ok.2 ⟨body, hbody, Step.except_bind_ok.2 ⟨tables, htables, ?_⟩⟩
    rw [hnamed]
    rfl

/-- Each result of a list of steps is that of an item. -/
theorem mem_mapM {σ α β : Type} {f : α → Step σ β} {items : List α} {found : List β} {s s' : σ}
    (h : items.mapM f s = .ok found s') {b : β} (hb : b ∈ found) :
    ∃ a ∈ items, ∃ t t', f a t = .ok b t' := by
  induction items generalizing s found with
  | nil =>
    obtain ⟨rfl, -⟩ := Step.pure_ok.1 h
    cases hb
  | cons a rest ih =>
    rw [List.mapM_cons] at h
    obtain ⟨first, t, hfirst, h⟩ := Step.bind_ok.1 h
    obtain ⟨others, t', hothers, h⟩ := Step.bind_ok.1 h
    obtain ⟨rfl, rfl⟩ := Step.pure_ok.1 h
    rcases List.mem_cons.1 hb with rfl | hb
    · exact ⟨a, List.mem_cons_self, s, t, hfirst⟩
    · obtain ⟨x, hx, hrun⟩ := ih hothers hb
      exact ⟨x, List.mem_cons_of_mem _ hx, hrun⟩

/-- Naming a body names its instructions and leaves its attributes as they are. -/
theorem nameBody_ok {body : StoredBody} {tables : BodyTables} {s s' : Places}
    (h : image.nameBody body tables s = .ok named s') :
    (∃ t, body.instructions.toList.mapM (nameInstruction body) s = .ok named.instructions t) ∧
      named.attributes = tables.attributes.toList := by
  obtain ⟨instructions, t, hinstructions, h⟩ := Step.bind_ok.1 h
  obtain ⟨_, _, -, h⟩ := Step.bind_ok.1 h
  obtain ⟨_, _, -, h⟩ := Step.bind_ok.1 h
  obtain ⟨_, _, -, h⟩ := Step.bind_ok.1 h
  obtain ⟨_, _, -, h⟩ := Step.bind_ok.1 h
  obtain ⟨_, _, -, h⟩ := Step.bind_ok.1 h
  obtain ⟨rfl, -⟩ := Step.pure_ok.1 h
  exact ⟨⟨t, hinstructions⟩, rfl⟩

theorem isProper_of_nameBody {body : StoredBody} {tables : BodyTables} {s : Places}
    (hbody : image.readBody span image.readStoredBody = .ok body)
    (h : image.nameBody body tables Places.empty = .ok named s) :
    ∀ x ∈ named.instructions, x.2.IsProper := by
  have hstored : ∀ x ∈ body.instructions.toList, x.2.IsProper := by
    obtain ⟨c, h⟩ := Scan.runAt_ok.1 hbody
    obtain ⟨_, _, -, h⟩ := Step.bind_ok.1 h
    obtain ⟨_, _, -, h⟩ := Step.bind_ok.1 h
    obtain ⟨_, _, -, h⟩ := Step.bind_ok.1 h
    obtain ⟨code, _, -, h⟩ := Step.bind_ok.1 h
    obtain ⟨found, _, hfound, h⟩ := Step.bind_ok.1 h
    obtain ⟨_, _, -, h⟩ := Step.bind_ok.1 h
    obtain ⟨_, _, -, h⟩ := Step.bind_ok.1 h
    obtain ⟨rfl, -⟩ := Step.pure_ok.1 h
    exact Instruction.isProper_decode (Step.of_ok.1 hfound).1
  obtain ⟨⟨_, hinstructions⟩, -⟩ := nameBody_ok h
  intro y hy
  obtain ⟨x, hx, t, t', hname⟩ := mem_mapM hinstructions hy
  obtain ⟨j, _, hj, hname⟩ := Step.bind_ok.1 hname
  obtain ⟨rfl, -⟩ := Step.pure_ok.1 hname
  exact Instruction.isProper_mapM hj (hstored x hx)

/-- Attributes of a body that are kept as they are have no name that is interpreted. -/
theorem isBodyTable_of_addTable {tables tables' : BodyTables}
    (h : image.addTable {} d tables span = .ok tables')
    (hnames : ∀ a ∈ tables.attributes, isBodyTable a.name = false) :
    ∀ a ∈ tables'.attributes, isBodyTable a.name = false := by
  simp only [addTable, Bool.false_eq_true, if_false, Bool.and_false] at h
  split at h
  · obtain ⟨_, -, h⟩ := Step.except_bind_ok.1 h
    cases h
    exact hnames
  split at h
  · obtain ⟨_, -, h⟩ := Step.except_bind_ok.1 h
    cases h
    exact hnames
  split at h
  · obtain ⟨_, -, h⟩ := Step.except_bind_ok.1 h
    obtain ⟨_, -, h⟩ := Step.except_bind_ok.1 h
    cases h
    exact hnames
  · rename_i h₁ h₂ h₃
    cases h
    intro a ha
    rcases Array.mem_push.1 ha with ha | rfl
    · exact hnames a ha
    · simp only [isBodyTable, Bool.or_eq_false_iff]
      exact ⟨⟨Bool.eq_false_iff.2 h₁, Bool.eq_false_iff.2 h₂⟩, Bool.eq_false_iff.2 h₃⟩

theorem isBodyTable_of_foldlM {spans : List AttributeSpan} {tables tables' : BodyTables}
    (h : spans.foldlM (image.addTable {} d) tables = .ok tables')
    (hnames : ∀ a ∈ tables.attributes, isBodyTable a.name = false) :
    ∀ a ∈ tables'.attributes, isBodyTable a.name = false := by
  induction spans generalizing tables with
  | nil =>
    cases h
    exact hnames
  | cons span rest ih =>
    rw [List.foldlM_cons] at h
    obtain ⟨mid, hmid, h⟩ := Step.except_bind_ok.1 h
    exact ih h (isBodyTable_of_addTable hmid hnames)

/-- **What a body stores is told again, and stored again.** -/
theorem body_again {events : List MethodEvent} {u : Unit}
    (hread : image.readNamedBody {} d span = .ok named)
    (htold : Tell.Tells (image.tellBody named) events) (hblank : b.Blank)
    (hplainly : b.setting.compute = ⟨false, false⟩) (hrun : feedMethod events b = .ok u b')
    (hfinal : b'.pool.Grows final) (hi : image'.Holds final)
    (hlocals : image'.entryLocals d' = .ok b.entryFrame.layout.locals) :
    ∃ a, b'.body = some a ∧ ∀ span', a.2.Fits → span'.Holds image'.data a → ∃ named' events',
      image'.readNamedBody {} d' span' = .ok named' ∧ Tell.Tells (image'.tellBody named') events' ∧
      ∀ pool, ConstantPool.Mirrors final b.pool pool → ∃ c,
        feedMethod events' { b with pool } = .ok () c ∧ c.rest = b'.rest ∧
        ConstantPool.Mirrors final b'.pool c.pool := by
  obtain ⟨body, tables, s, hstored, htables, hnameBody⟩ := readNamedBody_ok.1 hread
  have hnamed := named_of_nameBody hnameBody
  obtain ⟨told, htellings, htells⟩ := tellBody_ok ⟨_, _, htold #[]⟩
  obtain rfl := htells.unique htold
  obtain ⟨rows, opened, written, ended, closed, hcourse, hfinish⟩ :=
    course_of_run hplainly htellings hrun
  have hcloses := hcourse.closed_ok hblank hplainly
  obtain ⟨code, frames, a, pool', hcompletes, rfl⟩ :=
    (finishBody_plain (by rw [hcloses.setting, hplainly])).1 hfinish
  refine ⟨a, rfl, fun span' hfits hspan => ?_⟩
  -- The body that is read where it was stored.
  have hgrows := ((stable_codeRequest _ _ _ _ _ _) _ _ _ hcompletes.request).1.grows.trans hfinal
  obtain ⟨is, hdecode, hsize, hrows⟩ := hcourse.coded hblank hplainly hcompletes.size
    (isProper_of_nameBody hstored hnameBody) hcompletes.patch hgrows
  have hentry : closed.entryFrame = b.entryFrame := by
    unfold entryFrame
    rw [hcloses.setting]
  have hnames : ∀ raw ∈ closed.codeAttributes, isBodyTable raw.name = false := by
    intro raw hraw
    obtain ⟨-, hattributes⟩ := nameBody_ok hnameBody
    rw [← Array.mem_toList_iff, hcloses.codeAttributes, hattributes, Array.mem_toList_iff] at hraw
    exact isBodyTable_of_foldlM htables (fun _ hmem => (Array.not_mem_empty _ hmem).elim) raw hraw
  obtain ⟨body', tables', hstored', htables', hrereads⟩ := reread (d := d') hcompletes.request
    (hi.of_grows hfinal) hfits hspan (hentry ▸ hlocals) hnames (hsize ▸ hcompletes.size) hdecode
  have hreadBack : image'.ReadBack rows closed final named.maxStack named.maxLocals frames body'
      tables' := by
    refine ⟨?_, ?_, hcompletes.stored, starts_ascending hstored'⟩
    · rw [hrereads.instructions, ← hsize]
      exact hrereads
    · rw [hrereads.instructions]
      exact hrows
  have hsited : Sited named rows closed :=
    ⟨fun o label hl => hcourse.sited hblank hplainly hnamed hl, hcourse.wrote.targets hnamed⟩
  obtain ⟨named', s', hnameBody', hcalled⟩ :=
    (hreadBack.callable hcloses hnamed hsited).called hreadBack.ordered
  obtain ⟨told', -, htellings', -⟩ :=
    hcourse.again hblank hplainly hcompletes hfinal hreadBack hi hcalled (Or.inl rfl)
  have htells' := tells_bodyEvents htellings'
  refine ⟨named', _, readNamedBody_ok.2 ⟨body', tables', s', hstored', htables', hnameBody'⟩,
    htells', fun pool hmirrors => ?_⟩
  obtain ⟨told'', c, htellings'', hrun', hrest, hmirrors'⟩ :=
    hcourse.again hblank hplainly hcompletes hfinal hreadBack hi hcalled hmirrors
  rw [htells'.unique (tells_bodyEvents htellings'')]
  exact ⟨c, hrun', hrest, hmirrors'⟩

end ClassImage

end JvmClass
