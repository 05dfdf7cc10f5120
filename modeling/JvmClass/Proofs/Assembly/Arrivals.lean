import JvmClass.Proofs.Assembly.Charts
import JvmClass.Proofs.Flow.Heights

/-!
# Heights from instruction to instruction

Which heights the stack can have at the places of a body is a matter of its instructions and its
handlers alone (`Outline.Arrives`), however the instructions fall into blocks. The heights that
paths carry from block to block are those with which control arrives at the starts of blocks
(`MethodBuilder.Mapped.arrives_of_climbs`, `MethodBuilder.Mapped.stands_of_arrives`), and the
greatest peak of a block is the greatest of all heights (`MethodBuilder.Mapped.isGreatest_heights`).
-/

namespace JvmClass

/-- An instruction of a body by places: where it starts and stops, what it does to the height of the
stack, whether nothing falls through after it, and where its targets stand. -/
structure Line where
  offset : Nat
  stop : Nat
  delta : Int
  closes : Bool
  targets : List (Option Nat)

/-- A handler by places: where its range starts and stops, and where the handler itself stands. -/
structure Guard where
  start : Option Nat
  stop : Option Nat
  handler : Option Nat

/-- Whether a place lies in the range. -/
def Guard.covers (guard : Guard) (place : Nat) : Bool :=
  guard.start.any (· ≤ place) && guard.stop.any (place < ·)

/-- What decides about the heights of the stack in a body. -/
structure Outline where
  lines : List Line
  guards : List Guard

namespace Outline

variable {o : Outline}

/-- Control can arrive at a place with a height of the stack. -/
inductive Arrives (o : Outline) : Nat → Int → Prop
  | entry : Arrives o 0 0
  | falls {line : Line} {height : Int} (h : Arrives o line.offset height) (mem : line ∈ o.lines)
    (opens : line.closes = false) : Arrives o line.stop (height + line.delta)
  | jumps {line : Line} {height : Int} {place : Nat} (h : Arrives o line.offset height)
    (mem : line ∈ o.lines) (target : some place ∈ line.targets) :
    Arrives o place (height + line.delta)
  | caught {line : Line} {height : Int} {guard : Guard} {place : Nat}
    (h : Arrives o line.offset height) (mem : line ∈ o.lines) (guard_mem : guard ∈ o.guards)
    (covers : guard.covers line.offset = true) (handler : guard.handler = some place) :
    Arrives o place 1

/-- The heights before and after the instructions at which control can arrive. -/
def heights (o : Outline) : Set Int :=
  {top | ∃ place height, o.Arrives place height ∧
    (top = height ∨ ∃ line ∈ o.lines, line.offset = place ∧ top = height + line.delta)}

/-- Targets of instructions have their places, and so have the handlers of ranges that hold code. -/
structure Placed (o : Outline) : Prop where
  targets : ∀ line ∈ o.lines, none ∉ line.targets
  handlers : ∀ guard ∈ o.guards, ∀ place, guard.covers place = true → guard.handler ≠ none

end Outline

namespace Row

variable {row : Row} {rows front rest : List Row} {p q r : Nat} {keep : Bool}

/-- The instruction by places. -/
def line (place : Label → Option Nat) (row : Row) : Line :=
  ⟨row.offset, row.stop, row.effect.stackDelta, row.event.closes, row.event.targets.map place⟩

theorem Laid.unique (h : Laid p rows q) (h' : Laid p rows r) : q = r := by
  induction h with
  | nil =>
    cases h'
    rfl
  | cons _ _ _ ih =>
    cases h' with
    | cons _ _ h' => exact ih h'

/-- Instructions that stop in one place are as many, where some start others. -/
theorem Laid.eq_of_append {front' rest' : List Row} (h : Laid p front q) (h' : Laid p front' q)
    (heq : front ++ rest = front' ++ rest') : front = front' := by
  have hsame : ∀ {front mid : List Row}, Laid p front q → Laid p (front ++ mid) q →
      mid = [] := by
    intro front mid h h'
    obtain ⟨r, hfront, hmid⟩ := h'.split
    obtain rfl := h.unique hfront
    exact hmid.eq_nil
  rcases List.append_eq_append_iff.1 heq with ⟨mid, rfl, -⟩ | ⟨mid, rfl, -⟩
  · rw [hsame h h', List.append_nil]
  · rw [hsame h' h, List.append_nil]

theorem Laid.concat (h : Laid p (front ++ [row]) q) :
    Laid p front row.offset ∧ row.stop = q ∧ row.offset < q := by
  obtain ⟨r, hfront, hrow⟩ := h.split
  cases hrow with
  | cons offset grows hrow =>
    cases hrow
    exact ⟨offset ▸ hfront, rfl, offset ▸ grows⟩

theorem delta_concat :
    (summary keep (front ++ [row])).delta = (summary keep front).delta + row.effect.stackDelta := by
  rw [summary_concat]
  rfl

theorem peak_concat : (summary keep (front ++ [row])).peak =
    max (summary keep front).peak ((summary keep front).delta + row.effect.stackDelta) := by
  rw [summary_concat]
  rfl

/-- No height in a block is greater than its peak. -/
theorem delta_le_peak (keep : Bool) (front rest : List Row) :
    (summary keep front).delta ≤ (summary keep (front ++ rest)).peak := by
  induction rest using List.reverseRecOn with
  | nil =>
    rw [List.append_nil]
    rcases List.eq_nil_or_concat front with rfl | ⟨init, row, rfl⟩
    · exact Int.le_refl _
    · rw [List.concat_eq_append, delta_concat, peak_concat]
      exact Int.le_max_right _ _
  | append_singleton rest row ih =>
    rw [← List.append_assoc, peak_concat]
    exact Int.le_trans ih (Int.le_max_left _ _)

/-- The peak of a block is one of the heights in it. -/
theorem exists_peak (keep : Bool) (rows : List Row) :
    ∃ front rest, rows = front ++ rest ∧ (summary keep rows).peak = (summary keep front).delta := by
  induction rows using List.reverseRecOn with
  | nil => exact ⟨[], [], rfl, rfl⟩
  | append_singleton rows row ih =>
    obtain ⟨front, rest, rfl, hpeak⟩ := ih
    rw [peak_concat]
    rcases Int.le_total (summary keep (front ++ rest)).peak
      ((summary keep (front ++ rest)).delta + row.effect.stackDelta) with hle | hle
    · refine ⟨front ++ rest ++ [row], [], (List.append_nil _).symm, ?_⟩
      rw [Int.max_eq_right hle, delta_concat]
    · refine ⟨front, rest ++ [row], List.append_assoc .., ?_⟩
      rw [Int.max_eq_left hle, hpeak]

end Row

/-- The handler by places. -/
def ExceptionHandler.guard (place : Label → Option Nat) (h : ExceptionHandler) : Guard :=
  ⟨place h.start, place h.stop, place h.handler⟩

theorem Guard.covers_iff {guard : Guard} {place : Nat} : guard.covers place = true ↔
    ∃ start stop, guard.start = some start ∧ guard.stop = some stop ∧ start ≤ place ∧
      place < stop := by
  simp only [covers, Bool.and_eq_true, Option.any_eq_true, decide_eq_true_eq]
  constructor
  · rintro ⟨⟨start, hstart, hle⟩, stop, hstop, hlt⟩
    exact ⟨start, stop, hstart, hstop, hle, hlt⟩
  · rintro ⟨start, stop, hstart, hstop, hle, hlt⟩
    exact ⟨⟨start, hstart, hle⟩, stop, hstop, hlt⟩

/-- The handlers of a place, once labels have their offsets. -/
theorem Handlers.covers_guard {g : LabelGraph} (hr : g.Resolved) (h : ExceptionHandler)
    (place : Nat) : covers g place h = (h.guard g.position?).covers place := by
  rw [Bool.eq_iff_iff, Guard.covers_iff]
  simp only [ExceptionHandler.guard, ← hr _ _]
  unfold covers
  constructor
  · intro hc
    split at hc
    · rename_i start stop hstart hstop
      simp only [Bool.and_eq_true, decide_eq_true_eq] at hc
      exact ⟨start, stop, hstart, hstop, hc⟩
    · cases hc
  · rintro ⟨start, stop, hstart, hstop, hin⟩
    simpa [hstart, hstop] using hin

namespace MethodBuilder

open Row (Laid Straight jumps closed falls summary)

variable {b : MethodBuilder} {rowsOf : Label → List Row} {i : Nat} {l : Label} {p : Nat}

/-- The body by places. -/
def outline (b : MethodBuilder) (rows : List Row) : Outline :=
  ⟨rows.map (Row.line b.graph.position?),
    b.handlers.toList.map (ExceptionHandler.guard b.graph.position?)⟩

/-- A graph that has the edges of a body, and edges from the blocks of protected ranges to the
handlers. -/
structure Linked (b : MethodBuilder) (g : LabelGraph) : Prop where
  layout : b.graph.SameLayout g
  kept : ∀ (i : Nat) l, b.graph.chain[i]? = some l → ∀ edge ∈ b.graph.edges l, edge ∈ g.edges l
  caught : ∀ (i : Nat) l p, b.graph.chain[i]? = some l → b.graph.position? l = some p →
    ∀ h ∈ b.handlers.toList, (h.guard b.graph.position?).covers p = true →
      ∃ edge ∈ g.edges l, edge.kind ≠ .normal ∧ edge.successor = h.handler
  cases : ∀ (i : Nat) l p, b.graph.chain[i]? = some l → b.graph.position? l = some p →
    ∀ edge ∈ g.edges l, edge ∈ b.graph.edges l ∨
      edge.kind ≠ .normal ∧ ∃ h ∈ b.handlers.toList,
        (h.guard b.graph.position?).covers p = true ∧ edge.successor = h.handler

section Linked

variable {g : LabelGraph} {u : Unit}

/-- A graph is linked when a block has one edge more for each handler of it. -/
theorem linked_of_mem_edges (hlayout : b.graph.SameLayout g) (kind : ExceptionHandler → EdgeKind)
    (hkind : ∀ h ∈ b.handlers.toList, kind h ≠ .normal)
    (hmem : ∀ (i : Nat) l p, b.graph.chain[i]? = some l → b.graph.position? l = some p →
      ∀ edge, edge ∈ g.edges l ↔ edge ∈ b.graph.edges l ∨ ∃ h ∈ b.handlers.toList,
        (h.guard b.graph.position?).covers p = true ∧ edge = ⟨kind h, h.handler⟩)
    {size : Nat} (ht : b.graph.Tiled size) : b.Linked g where
  layout := hlayout
  kept i l hi edge he := by
    obtain ⟨p, -, hp⟩ := ht.position hi
    exact (hmem i l p hi hp edge).2 (Or.inl he)
  caught i l p hi hp h hh hc :=
    ⟨⟨kind h, h.handler⟩, (hmem i l p hi hp _).2 (Or.inr ⟨h, hh, hc, rfl⟩), hkind h hh, rfl⟩
  cases i l p hi hp edge he := by
    refine ((hmem i l p hi hp edge).1 he).imp_right ?_
    rintro ⟨h, hh, hc, rfl⟩
    exact ⟨hkind h hh, h, hh, hc, rfl⟩

theorem covers_resolve (graph : LabelGraph) (h : ExceptionHandler) (place : Nat) :
    Handlers.covers graph.resolve place h = (h.guard graph.position?).covers place := by
  rw [Handlers.covers_guard (LabelGraph.resolved_resolve _)]
  congr 2
  exact funext fun label => (LabelGraph.sameLayout_resolve graph).position? label

theorem linked_complete (ht : b.graph.Tiled b.code.size)
    (h : Handlers.complete b.handlers.toList b.graph.resolve = .ok u g) : b.Linked g := by
  have hlayout := LabelGraph.sameLayout_resolve b.graph
  refine linked_of_mem_edges (hlayout.trans (Handlers.complete_ok h).layout)
    (fun _ => .exception) (fun _ _ => EdgeKind.noConfusion) (fun i l p hi hp edge => ?_) ht
  rw [Handlers.mem_edges_complete (ht.sameLayout hlayout) (LabelGraph.resolved_resolve _) h
    (hlayout.chain ▸ hi) ((hlayout.position? l).trans hp), LabelGraph.edges_resolve]
  simp only [covers_resolve]

theorem linked_completeTyped (ht : b.graph.Tiled b.code.size)
    (h : Handlers.completeTyped b.handlers.toList b.graph.resolve = .ok u g) : b.Linked g := by
  have hlayout := LabelGraph.sameLayout_resolve b.graph
  obtain ⟨hw, htyped⟩ := Handlers.completeTyped_ok h
  refine linked_of_mem_edges (hlayout.trans hw.layout)
    (fun h => .caught (h.caughtType.toOption.getD default)) (fun _ _ => EdgeKind.noConfusion)
    (fun i l p hi hp edge => ?_) ht
  rw [Handlers.mem_edges_completeTyped (ht.sameLayout hlayout) (LabelGraph.resolved_resolve _) h
    (hlayout.chain ▸ hi) ((hlayout.position? l).trans hp), LabelGraph.edges_resolve]
  refine or_congr_right (exists_congr fun handler => and_congr_right fun hh => ?_)
  obtain ⟨type, -, htype, -⟩ := htyped handler hh
  rw [htype, covers_resolve]
  constructor
  · rintro ⟨_, he, hc, rfl⟩
    cases he
    exact ⟨hc, rfl⟩
  · rintro ⟨hc, rfl⟩
    exact ⟨type, rfl, hc, rfl⟩

end Linked

namespace Charted

/-- Instructions that others follow in their block neither jump nor pass control on. -/
theorem inner_of_append (h : b.Charted rowsOf) {front rest : List Row}
    (hrows : rowsOf l = front ++ rest) (hrest : rest ≠ []) :
    ∀ row ∈ front, row.event.targets = [] ∧ row.event.closes = false := by
  intro row hr
  obtain ⟨first, mid, rfl⟩ := List.append_of_mem hr
  refine h.inner l first row (mid ++ rest) ?_ fun hnil => hrest (List.append_eq_nil_iff.1 hnil).2
  rw [hrows, List.append_assoc, List.cons_append]

/-- A block with another one after it stops where that one starts. -/
theorem laid_next (h : b.Charted rowsOf) (hi : b.graph.chain[i]? = some l)
    (hp : b.graph.position? l = some p) {next : Label} (hnext : b.graph.chain[i + 1]? = some next) :
    ∃ q, b.graph.position? next = some q ∧ Laid p (rowsOf l) q ∧ p < q := by
  obtain ⟨q, -, hq⟩ := h.tiled.position hnext
  have hlaid := h.laid i l p hi hp
  unfold LabelGraph.blockStop at hlaid
  rw [hnext, Option.bind_some, hq] at hlaid
  exact ⟨q, hq, hlaid, h.tiled.ascending i (i + 1) l next p q (Nat.lt_succ_self i) hi hnext hp hq⟩

theorem rows_ne_nil (h : b.Charted rowsOf) (hi : b.graph.chain[i]? = some l) {next : Label}
    (hnext : b.graph.chain[i + 1]? = some next) : rowsOf l ≠ [] := by
  obtain ⟨p, -, hp⟩ := h.tiled.position hi
  obtain ⟨q, -, hlaid, hlt⟩ := h.laid_next hi hp hnext
  intro hnil
  rw [hnil] at hlaid
  cases hlaid
  exact Nat.lt_irrefl _ hlt

/-- A label that is placed before the end of a block is placed at its start or before it. -/
theorem position_le (h : b.Charted rowsOf) (hi : b.graph.chain[i]? = some l)
    (hp : b.graph.position? l = some p) {label : Label} {q place : Nat}
    (hq : b.graph.position? label = some q) (hle : q ≤ place)
    (hstop : ∀ next stop, b.graph.chain[i + 1]? = some next →
      b.graph.position? next = some stop → place < stop) : q ≤ p := by
  obtain ⟨⟨j, hj⟩, hq'⟩ := h.tiled.placed label q hq
  by_contra hlt
  have hij := h.tiled.index_le hi hj hp hq' (Nat.le_of_lt (Nat.not_le.1 hlt))
  rcases Nat.lt_or_eq_of_le hij with hij | rfl
  · have hlength := (Array.getElem?_eq_some_iff.1 hj).1
    obtain ⟨next, hnext⟩ : ∃ next, b.graph.chain[i + 1]? = some next :=
      ⟨_, Array.getElem?_eq_getElem (by omega)⟩
    obtain ⟨stop, -, hs⟩ := h.tiled.position hnext
    have hplace := hstop _ stop hnext hs
    rcases Nat.lt_or_eq_of_le (Nat.succ_le_of_lt hij) with hij | rfl
    · have := h.tiled.ascending (i + 1) j _ _ stop q hij hnext hj hs hq'
      omega
    · rw [hnext] at hj
      rw [← Option.some.inj hj, hs] at hq'
      have := Option.some.inj hq'
      omega
  · cases hi.symm.trans hj
    cases hp.symm.trans hq'
    exact hlt (Nat.le_refl _)

/-- Where something falls through after a block, control passes through all of it. -/
theorem opens (h : b.Charted rowsOf) (hopen : closed (rowsOf l) ≠ true) :
    ∀ row ∈ rowsOf l, row.event.closes = false := by
  rcases List.eq_nil_or_concat (rowsOf l) with hnil | ⟨front, last, hrows⟩
  · rw [hnil]
    exact List.forall_mem_nil _
  · rw [List.concat_eq_append] at hrows
    rw [hrows] at hopen ⊢
    intro row hr
    rcases List.mem_append.1 hr with hr | hr
    · exact (h.inner_of_append hrows (List.cons_ne_nil _ _) row hr).2
    · rw [List.mem_singleton.1 hr]
      rw [Row.closed_concat] at hopen
      exact Bool.eq_false_of_not_eq_true hopen

/-- A block that starts before the end of the code starts with an instruction. -/
theorem exists_row (h : b.Charted rowsOf) (hi : b.graph.chain[i]? = some l)
    (hp : b.graph.position? l = some p) (hlt : p < b.code.size) :
    ∃ row rest, rowsOf l = row :: rest ∧ row.offset = p := by
  have hlaid := h.laid i l p hi hp
  cases hrows : rowsOf l with
  | nil =>
    rw [hrows] at hlaid
    cases hnext : b.graph.chain[i + 1]? with
    | none =>
      unfold LabelGraph.blockStop at hlaid
      rw [hnext, Option.bind_none, Option.getD_none] at hlaid
      have := hlaid.unique (.nil p)
      omega
    | some next => exact absurd hrows (h.rows_ne_nil hi hnext)
  | cons row rest =>
    rw [hrows] at hlaid
    cases hlaid with
    | cons offset _ _ => exact ⟨row, rest, rfl, offset⟩

end Charted

/-- A body as blocks of instructions, with a graph that has the edges of the body and of its
handlers. -/
structure Mapped (b : MethodBuilder) (rows : List (Label × Row)) (g : LabelGraph) (entry : Label) :
    Prop where
  charted : b.Charted (inBlock rows)
  laid : Laid 0 (rows.map Prod.snd) b.code.size
  begun : b.entry = some entry
  linked : b.Linked g
  placed : (b.outline (rows.map Prod.snd)).Placed

namespace Mapped

variable {rows : List (Label × Row)} {g : LabelGraph} {entry : Label} {height : Int} {row : Row}

theorem mem_rows (hr : row ∈ inBlock rows l) : row ∈ rows.map Prod.snd :=
  List.mem_map_of_mem (mem_inBlock.1 hr)

theorem line_mem (hr : row ∈ rows.map Prod.snd) :
    row.line b.graph.position? ∈ (b.outline (rows.map Prod.snd)).lines :=
  List.mem_map_of_mem hr

/-- The body starts with the first instruction. -/
theorem entry_position (h : Mapped b rows g entry) : b.graph.position? entry = some 0 := by
  have hfirst := h.charted.begins entry h.begun
  obtain ⟨p, hle, hp⟩ := h.charted.tiled.position hfirst
  suffices p = 0 by rw [hp, this]
  have hlaid := h.laid
  cases hrows : rows with
  | nil =>
    rw [hrows] at hlaid
    have := hlaid.unique (.nil 0)
    omega
  | cons x rest =>
    have hx : x.2 ∈ inBlock rows x.1 := mem_inBlock.2 (hrows ▸ List.mem_cons_self)
    obtain ⟨j, hj⟩ := h.charted.chained x.1 (List.ne_nil_of_mem hx)
    obtain ⟨q, -, hq⟩ := h.charted.tiled.position hj
    have hbound := ((h.charted.laid j x.1 q hj hq).bounds x.2 hx).1
    rw [hrows] at hlaid
    cases hlaid with
    | cons offset _ _ =>
      rcases Nat.eq_zero_or_pos j with rfl | hpos
      · cases hfirst.symm.trans hj
        cases hp.symm.trans hq
        omega
      · have := h.charted.tiled.ascending 0 j _ _ p q hpos hfirst hj hp hq
        omega

/-- The block of a label that is placed starts there. -/
theorem block_of_placed (h : Mapped b rows g entry) {label : Label} {q : Nat}
    (hq : b.graph.position? label = some q) :
    (∃ j : Nat, b.graph.chain[j]? = some (g.blockOf label)) ∧
      b.graph.position? (g.blockOf label) = some q := by
  rw [h.linked.layout.blockOf]
  exact h.charted.tiled.placed label q hq

/-- Control passes through instructions after which something falls through. -/
theorem arrives_along {front : List Row} {q : Nat} (keep : Bool)
    (hmem : ∀ row ∈ front, row ∈ rows.map Prod.snd ∧ row.event.closes = false)
    (ha : (b.outline (rows.map Prod.snd)).Arrives p height) (hl : Laid p front q) :
    (b.outline (rows.map Prod.snd)).Arrives q (height + (summary keep front).delta) := by
  induction front using List.reverseRecOn generalizing q with
  | nil =>
    cases hl
    exact (Int.add_zero height).symm ▸ ha
  | append_singleton front row ih =>
    obtain ⟨hfront, rfl, -⟩ := hl.concat
    have hrow := hmem row (List.mem_append_right _ (List.mem_singleton_self row))
    have hat : Outline.Arrives _ (row.line b.graph.position?).offset _ :=
      ih (fun row' hr => hmem row' (List.mem_append_left _ hr)) hfront
    rw [Row.delta_concat, ← Int.add_assoc]
    exact .falls hat (line_mem hrow.1) hrow.2

/-- Control arrives with the height that an edge carries where the edge leads. -/
theorem arrives_edge (h : Mapped b rows g entry) (hi : b.graph.chain[i]? = some l)
    (hp : b.graph.position? l = some p) (ha : (b.outline (rows.map Prod.snd)).Arrives p height)
    {edge : Edge} (he : edge ∈ g.edges l) :
    ∃ (j : Nat) (q : Nat), b.graph.chain[j]? = some (g.blockOf edge.successor) ∧
      b.graph.position? (g.blockOf edge.successor) = some q ∧
      (b.outline (rows.map Prod.snd)).Arrives q
        (LabelGraph.heightAlong b.blocks l height edge) := by
  have hplaced : ∀ {label : Label} {q : Nat} {height : Int}, b.graph.position? label = some q →
      (b.outline (rows.map Prod.snd)).Arrives q height →
      ∃ (j : Nat) (q : Nat), b.graph.chain[j]? = some (g.blockOf label) ∧
        b.graph.position? (g.blockOf label) = some q ∧
        (b.outline (rows.map Prod.snd)).Arrives q height := by
    intro label q height hq harrives
    obtain ⟨⟨j, hj⟩, hq'⟩ := h.block_of_placed hq
    exact ⟨j, q, hj, hq', harrives⟩
  rcases h.linked.cases i l p hi hp edge he with he | ⟨hkind, k, hk, hcovers, hsuccessor⟩
  · rw [h.charted.edges i l hi] at he
    rcases List.mem_append.1 he with he | he
    · obtain ⟨row, hr, he⟩ := List.mem_flatMap.1 he
      obtain ⟨target, htarget, rfl⟩ := List.mem_map.1 he
      obtain ⟨front, rest, hrows⟩ := List.append_of_mem hr
      -- Only the last instruction of a block jumps.
      have hrest : rest = [] := by
        by_contra hne
        rw [(h.charted.inner l front row rest hrows hne).1] at htarget
        exact List.not_mem_nil htarget
      subst hrest
      have hlaid := h.charted.laid i l p hi hp
      rw [hrows] at hlaid
      have hline := line_mem (b := b) (mem_rows hr)
      have hat : Outline.Arrives _ (row.line b.graph.position?).offset _ :=
        arrives_along b.setting.compute.frames (fun row' hr' =>
          ⟨mem_rows (hrows ▸ List.mem_append_left _ hr'),
            (h.charted.inner_of_append hrows (List.cons_ne_nil _ _) row' hr').2⟩) ha hlaid.concat.1
      cases hq : b.graph.position? target with
      | none => exact absurd (List.mem_map.2 ⟨target, htarget, hq⟩) (h.placed.targets _ hline)
      | some q =>
        refine hplaced hq ?_
        show Outline.Arrives _ q (height + (b.blocks.getD l {}).delta)
        rw [h.charted.summary l, hrows, Row.delta_concat, ← Int.add_assoc]
        exact .jumps hat hline (List.mem_map.2 ⟨target, htarget, hq⟩)
    · unfold falls at he
      split at he
      · cases he
      · rename_i hopen
        obtain ⟨next, hnext, rfl⟩ := List.mem_map.1 he
        rw [Option.mem_toList] at hnext
        obtain ⟨q, hq, hlaid, -⟩ := h.charted.laid_next hi hp hnext
        refine hplaced hq ?_
        show Outline.Arrives _ q (height + (b.blocks.getD l {}).delta)
        rw [h.charted.summary l]
        exact arrives_along _ (fun row hr => ⟨mem_rows hr, h.charted.opens hopen row hr⟩) ha hlaid
  · rw [LabelGraph.heightAlong_of_ne hkind, hsuccessor]
    have hguard : k.guard b.graph.position? ∈ (b.outline (rows.map Prod.snd)).guards :=
      List.mem_map_of_mem hk
    obtain ⟨start, stop, -, hstop, -, hlt⟩ := Guard.covers_iff.1 hcovers
    obtain ⟨⟨j, hj⟩, hstop'⟩ := h.charted.tiled.placed k.stop stop hstop
    obtain ⟨q, hle, hq⟩ := h.charted.tiled.position hj
    cases hstop'.symm.trans hq
    obtain ⟨row, rest, hrows, rfl⟩ := h.charted.exists_row hi hp (by omega)
    have hat : Outline.Arrives _ (row.line b.graph.position?).offset _ := ha
    have hline := line_mem (b := b) (mem_rows (l := l) (hrows ▸ List.mem_cons_self))
    cases hq : b.graph.position? k.handler with
    | none => exact absurd hq (h.placed.handlers _ hguard _ hcovers)
    | some q => exact hplaced hq (.caught hat hline hguard hcovers hq)

/-- Control arrives at the starts of blocks with the heights that paths carry to them. -/
theorem arrives_of_climbs (h : Mapped b rows g entry) (hc : g.Climbs b.blocks entry l height) :
    ∃ (i : Nat) (p : Nat), b.graph.chain[i]? = some l ∧ b.graph.position? l = some p ∧
      (b.outline (rows.map Prod.snd)).Arrives p height := by
  induction hc with
  | entry => exact ⟨0, 0, h.charted.begins entry h.begun, h.entry_position, .entry⟩
  | step _ edge_mem ih =>
    obtain ⟨i, p, hi, hp, ha⟩ := ih
    exact h.arrives_edge hi hp ha edge_mem

end Mapped

/-- A place after some instructions of a block, with the height that control has there when a path
carries a height to the block. At the end of a block the place belongs to the next one. -/
structure Stands (b : MethodBuilder) (rows : List (Label × Row)) (g : LabelGraph) (entry : Label)
    (place : Nat) (height : Int) (i : Nat) (l : Label) (start : Nat) (front rest : List Row) :
    Prop where
  chained : b.graph.chain[i]? = some l
  position : b.graph.position? l = some start
  rows_eq : inBlock rows l = front ++ rest
  laid : Laid start front place
  climbs : g.Climbs b.blocks entry l (height - (summary b.setting.compute.frames front).delta)
  last : rest = [] → b.graph.chain[i + 1]? = none

namespace Mapped

variable {rows : List (Label × Row)} {g : LabelGraph} {entry : Label} {height : Int} {row : Row}
  {place start : Nat} {front rest : List Row}

theorem stands_start (h : Mapped b rows g entry) (hi : b.graph.chain[i]? = some l)
    (hp : b.graph.position? l = some p) (hc : g.Climbs b.blocks entry l height) :
    Stands b rows g entry p height i l p [] (inBlock rows l) where
  chained := hi
  position := hp
  rows_eq := rfl
  laid := .nil p
  climbs := (Int.sub_zero height).symm ▸ hc
  last hnil := by
    cases hnext : b.graph.chain[i + 1]? with
    | none => rfl
    | some next => exact absurd hnil (h.charted.rows_ne_nil hi hnext)

theorem stands_target (h : Mapped b rows g entry) {label : Label}
    (hp : b.graph.position? label = some p)
    (hc : g.Climbs b.blocks entry (g.blockOf label) height) :
    ∃ (i : Nat) (l : Label) (start : Nat) (front rest : List Row),
      Stands b rows g entry p height i l start front rest := by
  obtain ⟨⟨j, hj⟩, hp'⟩ := h.block_of_placed hp
  exact ⟨j, _, p, [], _, h.stands_start hj hp' hc⟩

/-- Where an instruction starts at a place, the place stands before that instruction. -/
theorem row_of_stands (h : Mapped b rows g entry)
    (hs : Stands b rows g entry place height i l start front rest)
    (hr : row ∈ rows.map Prod.snd) (hrow : row.offset = place) :
    ∃ later, rest = row :: later := by
  have hlaid := h.charted.laid i l start hs.chained hs.position
  rw [hs.rows_eq] at hlaid
  obtain ⟨hle, hgrows, hstop⟩ := h.laid.bounds row hr
  cases rest with
  | nil =>
    rw [List.append_nil] at hlaid
    have hend := hs.laid.unique hlaid
    unfold LabelGraph.blockStop at hend
    rw [hs.last rfl, Option.bind_none, Option.getD_none] at hend
    omega
  | cons row' later =>
    obtain ⟨r, hfront, hrest⟩ := hlaid.split
    obtain rfl := hs.laid.unique hfront
    have hr' : row' ∈ inBlock rows l :=
      hs.rows_eq ▸ List.mem_append_right _ List.mem_cons_self
    cases hrest with
    | cons offset _ _ =>
      rw [h.laid.eq_of_offset hr (mem_rows hr') (hrow.trans offset.symm)]
      exact ⟨later, rfl⟩

theorem climbs_after (row : Row) (hs : Stands b rows g entry place height i l start front rest) :
    g.Climbs b.blocks entry l (height + row.effect.stackDelta -
      (summary b.setting.compute.frames (front ++ [row])).delta) := by
  rw [Row.delta_concat, Int.add_sub_add_right]
  exact hs.climbs

/-- The place after an instruction, unless another block starts there. -/
theorem stands_after (h : Mapped b rows g entry) {later : List Row}
    (hs : Stands b rows g entry place height i l start front (row :: later))
    (hlast : later = [] → b.graph.chain[i + 1]? = none) :
    Stands b rows g entry row.stop (height + row.effect.stackDelta) i l start (front ++ [row])
      later where
  chained := hs.chained
  position := hs.position
  rows_eq := by rw [hs.rows_eq, List.append_assoc, List.singleton_append]
  laid := by
    have hlaid := h.charted.laid i l start hs.chained hs.position
    rw [hs.rows_eq] at hlaid
    obtain ⟨r, hfront, hrest⟩ := hlaid.split
    cases hrest with
    | cons offset grows _ => exact hfront.append (.cons offset grows (.nil _))
  climbs := climbs_after row hs
  last := hlast

/-- An edge out of a block carries on the height that control has after the last instruction. -/
theorem climbs_of_stands (h : Mapped b rows g entry)
    (hs : Stands b rows g entry place height i l start front [row]) {successor : Label}
    (he : ⟨.normal, successor⟩ ∈ b.graph.edges l) :
    g.Climbs b.blocks entry (g.blockOf successor) (height + row.effect.stackDelta) := by
  have hstep : g.Climbs b.blocks entry (g.blockOf successor) _ :=
    .step (climbs_after row hs) (h.linked.kept i l hs.chained _ he)
  have hheight : ∀ height, LabelGraph.heightAlong b.blocks l
      (height - (summary b.setting.compute.frames (front ++ [row])).delta)
      ⟨.normal, successor⟩ = height := by
    intro height
    show _ + (b.blocks.getD l {}).delta = height
    rw [h.charted.summary l, hs.rows_eq, Int.sub_add_cancel]
  rwa [hheight] at hstep

/-- Wherever control arrives, it comes from the start of a block to which a path leads. -/
theorem stands_of_arrives (h : Mapped b rows g entry)
    (ha : (b.outline (rows.map Prod.snd)).Arrives place height) :
    ∃ (i : Nat) (l : Label) (start : Nat) (front rest : List Row),
      Stands b rows g entry place height i l start front rest := by
  induction ha with
  | entry =>
    exact ⟨0, entry, 0, [], _,
      h.stands_start (h.charted.begins entry h.begun) h.entry_position .entry⟩
  | falls _ mem opens ih =>
    obtain ⟨i, l, start, front, rest, hs⟩ := ih
    obtain ⟨row, hr, rfl⟩ := List.mem_map.1 mem
    obtain ⟨later, rfl⟩ := h.row_of_stands hs hr rfl
    by_cases hlast : later = [] → b.graph.chain[i + 1]? = none
    · exact ⟨i, l, start, front ++ [row], later, h.stands_after hs hlast⟩
    · obtain ⟨rfl, hnext⟩ := Classical.not_imp.1 hlast
      obtain ⟨next, hnext⟩ := Option.ne_none_iff_exists'.1 hnext
      have hrows : inBlock rows l = front ++ [row] := hs.rows_eq
      have he : ⟨.normal, next⟩ ∈ b.graph.edges l := by
        rw [h.charted.edges i l hs.chained, hnext]
        refine List.mem_append_right _ ?_
        unfold falls
        rw [hrows, Row.closed_concat, if_neg (by simpa [Row.line] using opens)]
        exact List.mem_singleton_self _
      obtain ⟨q, hq, hlaid, -⟩ := h.charted.laid_next hs.chained hs.position hnext
      rw [hrows] at hlaid
      obtain ⟨-, rfl, -⟩ := hlaid.concat
      exact h.stands_target hq (h.climbs_of_stands hs he)
  | jumps _ mem target ih =>
    obtain ⟨i, l, start, front, rest, hs⟩ := ih
    obtain ⟨row, hr, rfl⟩ := List.mem_map.1 mem
    obtain ⟨later, rfl⟩ := h.row_of_stands hs hr rfl
    obtain ⟨label, hlabel, hp⟩ := List.mem_map.1 target
    have hlater : later = [] := by
      by_contra hne
      rw [(h.charted.inner l front row later hs.rows_eq hne).1] at hlabel
      exact List.not_mem_nil hlabel
    subst hlater
    have he : ⟨.normal, label⟩ ∈ b.graph.edges l := by
      rw [h.charted.edges i l hs.chained, hs.rows_eq]
      refine List.mem_append_left _ (List.mem_flatMap.2 ⟨row, ?_, ?_⟩)
      · exact List.mem_append_right _ (List.mem_singleton_self row)
      · exact List.mem_map.2 ⟨label, hlabel, rfl⟩
    exact h.stands_target hp (h.climbs_of_stands hs he)
  | caught _ mem guard_mem covers handler ih =>
    obtain ⟨i, l, start, front, rest, hs⟩ := ih
    obtain ⟨row, hr, rfl⟩ := List.mem_map.1 mem
    obtain ⟨later, rfl⟩ := h.row_of_stands hs hr rfl
    obtain ⟨k, hk, rfl⟩ := List.mem_map.1 guard_mem
    obtain ⟨first, last, hfirst, hlast, hle, hlt⟩ := Guard.covers_iff.1 covers
    -- A range that holds an instruction starts at the start of its block or before it.
    have hrow : row ∈ inBlock rows l :=
      hs.rows_eq ▸ List.mem_append_right _ List.mem_cons_self
    have hstart : first ≤ start := by
      refine h.charted.position_le hs.chained hs.position hfirst hle fun next q hnext hq => ?_
      obtain ⟨q', hq', hlaid, -⟩ := h.charted.laid_next hs.chained hs.position hnext
      cases hq.symm.trans hq'
      have := hlaid.bounds row hrow
      show row.offset < q
      omega
    have hcovers : (k.guard b.graph.position?).covers start = true :=
      Guard.covers_iff.2 ⟨first, last, hfirst, hlast, hstart, Nat.lt_of_le_of_lt hs.laid.le hlt⟩
    obtain ⟨edge, he, hkind, hsuccessor⟩ :=
      h.linked.caught i l start hs.chained hs.position k hk hcovers
    have hstep : g.Climbs b.blocks entry (g.blockOf edge.successor) _ := .step hs.climbs he
    rw [LabelGraph.heightAlong_of_ne hkind, hsuccessor] at hstep
    exact h.stands_target handler hstep

/-- Where paths agree on the heights of blocks, control arrives with one height at each place. -/
theorem arrives_unique (h : Mapped b rows g entry)
    (hu : ∀ l height height', g.Climbs b.blocks entry l height →
      g.Climbs b.blocks entry l height' → height = height') {height' : Int}
    (ha : (b.outline (rows.map Prod.snd)).Arrives place height)
    (ha' : (b.outline (rows.map Prod.snd)).Arrives place height') : height = height' := by
  obtain ⟨i, l, start, front, rest, hs⟩ := h.stands_of_arrives ha
  obtain ⟨j, m, start', front', rest', hs'⟩ := h.stands_of_arrives ha'
  -- Neither block comes before the other, since the place would belong to the next one then.
  have hle : ∀ {i j : Nat} {l m : Label} {start start' : Nat} {front front' rest rest' : List Row}
      {height height' : Int}, Stands b rows g entry place height i l start front rest →
      Stands b rows g entry place height' j m start' front' rest' → j ≤ i := by
    intro i j l m start start' front front' rest rest' height height' hs hs'
    by_contra hlt
    have hlength := (Array.getElem?_eq_some_iff.1 hs'.chained).1
    obtain ⟨next, hnext⟩ : ∃ next, b.graph.chain[i + 1]? = some next :=
      ⟨_, Array.getElem?_eq_getElem (by omega)⟩
    obtain ⟨q, hq, hlaid, -⟩ := h.charted.laid_next hs.chained hs.position hnext
    rw [hs.rows_eq] at hlaid
    obtain ⟨r, hfront, hrest⟩ := hlaid.split
    obtain rfl := hs.laid.unique hfront
    have hplace : place < q := by
      refine Nat.lt_of_le_of_ne hrest.le fun he => ?_
      rw [hs.last (Row.Laid.eq_nil (he ▸ hrest))] at hnext
      cases hnext
    have hback : start' ≤ place := hs'.laid.le
    have : q ≤ start' := by
      by_contra hlt'
      have := h.charted.tiled.index_le hs'.chained hnext hs'.position hq (by omega)
      obtain rfl : j = i + 1 := by omega
      cases hnext.symm.trans hs'.chained
      cases hq.symm.trans hs'.position
      exact hlt' (Nat.le_refl _)
    omega
  obtain rfl := Nat.le_antisymm (hle hs' hs) (hle hs hs')
  cases hs.chained.symm.trans hs'.chained
  cases hs.position.symm.trans hs'.position
  have hfront := hs.laid.eq_of_append hs'.laid (hs.rows_eq.symm.trans hs'.rows_eq)
  subst hfront
  have := hu l _ _ hs.climbs hs'.climbs
  omega

/-- The greatest peak of a block is the greatest of all heights. -/
theorem isGreatest_heights (h : Mapped b rows g entry) {most : Int}
    (hm : IsGreatest (g.peaks b.blocks entry) most) :
    IsGreatest (b.outline (rows.map Prod.snd)).heights most := by
  have hpeak : ∀ l, (b.blocks.getD l {}).peak =
      (summary b.setting.compute.frames (inBlock rows l)).peak := fun l => by rw [h.charted.summary]
  refine ⟨?_, ?_⟩
  · obtain ⟨l, height, hc, rfl⟩ := hm.1
    obtain ⟨i, p, hi, hp, ha⟩ := h.arrives_of_climbs hc
    obtain ⟨front, rest, hrows, htop⟩ := Row.exists_peak b.setting.compute.frames (inBlock rows l)
    rw [hpeak, htop]
    have hlaid := h.charted.laid i l p hi hp
    rw [hrows] at hlaid
    obtain ⟨r, hfront, -⟩ := hlaid.split
    rcases List.eq_nil_or_concat front with rfl | ⟨init, row, rfl⟩
    · exact ⟨p, height, ha, Or.inl (Int.add_zero height)⟩
    · rw [List.concat_eq_append] at hrows hfront ⊢
      have hr : row ∈ inBlock rows l := hrows ▸ List.mem_append_left _
        (List.mem_append_right _ (List.mem_singleton_self row))
      rw [List.append_assoc] at hrows
      refine ⟨row.offset, _, arrives_along b.setting.compute.frames (fun row' hr' => ?_) ha
        hfront.concat.1, Or.inr ⟨_, line_mem (mem_rows hr), rfl, ?_⟩⟩
      · exact ⟨mem_rows (hrows ▸ List.mem_append_left _ hr'),
          (h.charted.inner_of_append hrows (List.cons_ne_nil _ _) row' hr').2⟩
      · rw [Row.delta_concat, ← Int.add_assoc]
        rfl
  · rintro top ⟨place, height, ha, htop⟩
    obtain ⟨i, l, start, front, rest, hs⟩ := h.stands_of_arrives ha
    have hmost := hm.2 ⟨l, _, hs.climbs, rfl⟩
    rw [hpeak, hs.rows_eq] at hmost
    rcases htop with rfl | ⟨line, hline, hplace, rfl⟩
    · have := Row.delta_le_peak b.setting.compute.frames front rest
      omega
    · obtain ⟨row, hr, rfl⟩ := List.mem_map.1 hline
      obtain ⟨later, rfl⟩ := h.row_of_stands hs hr hplace
      have := Row.delta_le_peak b.setting.compute.frames (front ++ [row]) later
      rw [Row.delta_concat, List.append_assoc, List.singleton_append] at this
      show height + row.effect.stackDelta ≤ most
      omega

end Mapped

end MethodBuilder

end JvmClass
