import JvmClass.Proofs.Flow.Exploration
import JvmClass.Proofs.Flow.Limits
import Mathlib.Order.Bounds.Basic

/-!
# Two ways to the greatest stack height

A path of edges from the entry carries a height to every block on it (`LabelGraph.Climbs`), and the
greatest height is met at the peak of one of these blocks. Where paths agree on heights, walking
over the blocks finds it (`LabelGraph.isGreatest_maxStack`). Where instructions find their operands and
load no wide elements, paths do agree on heights, and computing frames finds the greatest one too
(`FlowSetting.climbs_of_inputs`, `FlowSetting.isGreatest_of_inputs`).
-/

namespace JvmClass

namespace LabelGraph

variable {g : LabelGraph} {blocks : Std.HashMap Label BlockSummary} {entry : Label}

/-- The height with which an edge leaves a block that is entered with some height. -/
def heightAlong (blocks : Std.HashMap Label BlockSummary) (block : Label) (height : Int)
    (edge : Edge) : Int :=
  match edge.kind with
  | .normal => height + (blocks.getD block {}).delta
  | .exception | .caught _ => 1

theorem heightAlong_of_ne {block : Label} {height : Int} {edge : Edge} (h : edge.kind ≠ .normal) :
    heightAlong blocks block height edge = 1 := by
  unfold heightAlong
  cases hk : edge.kind with
  | normal => exact absurd hk h
  | exception => rfl
  | caught type => rfl

/-- Some path from the entry carries a height to a block. -/
def Climbs (g : LabelGraph) (blocks : Std.HashMap Label BlockSummary) (entry : Label) :
    Label → Int → Prop :=
  g.Carries (heightAlong blocks) entry 0

/-- The greatest heights in the blocks to which paths lead, one for each path. -/
def peaks (g : LabelGraph) (blocks : Std.HashMap Label BlockSummary) (entry : Label) : Set Int :=
  {top | ∃ block height, g.Climbs blocks entry block height ∧
    top = height + (blocks.getD block {}).peak}

/-- A running maximum is one of the numbers that it runs over, and none of them is greater. -/
theorem foldl_max {β : Type} (size : β → Int) (items : List β) (start : Int) :
    (start ≤ items.foldl (fun most b => max most (size b)) start ∧
      ∀ b ∈ items, size b ≤ items.foldl (fun most b => max most (size b)) start) ∧
    (items.foldl (fun most b => max most (size b)) start = start ∨
      ∃ b ∈ items, items.foldl (fun most b => max most (size b)) start = size b) := by
  induction items generalizing start with
  | nil => exact ⟨⟨Int.le_refl _, List.forall_mem_nil _⟩, Or.inl rfl⟩
  | cons b rest ih =>
    obtain ⟨⟨hstart, hrest⟩, hmet⟩ := ih (max start (size b))
    rw [List.foldl_cons]
    refine ⟨⟨Int.le_trans (Int.le_max_left _ _) hstart, List.forall_mem_cons.2
      ⟨Int.le_trans (Int.le_max_right _ _) hstart, hrest⟩⟩, ?_⟩
    rcases hmet with hmet | ⟨c, hc, hmet⟩
    · rw [hmet]
      rcases Int.le_total start (size b) with hle | hle
      · exact Or.inr ⟨b, List.mem_cons_self, Int.max_eq_right hle⟩
      · exact Or.inl (Int.max_eq_left hle)
    · exact Or.inr ⟨c, List.mem_cons_of_mem _ hc, hmet⟩

/-- Where paths agree on heights, the walk that does not track types finds the greatest height. -/
theorem isGreatest_maxStack
    (hu : ∀ block height height', g.Climbs blocks entry block height →
      g.Climbs blocks entry block height' → height = height')
    (hpeak : 0 ≤ (blocks.getD entry {}).peak) :
    IsGreatest (g.peaks blocks entry) (g.maxStack blocks entry) := by
  have hfound : ∀ block height, (g.stackHeights blocks entry)[block]? = some height ↔
      g.Climbs blocks entry block height := fun block height =>
    ⟨carries_of_explore, fun h => explore_of_carries (fun _ h' => hu _ _ _ h' h) h⟩
  have hmax : g.maxStack blocks entry = (g.stackHeights blocks entry).toList.foldl
      (fun most x => max most (x.2 + (blocks.getD x.1 {}).peak)) 0 :=
    Std.HashMap.fold_eq_foldl_toList
  obtain ⟨⟨hzero, hle⟩, hmet⟩ := foldl_max
    (fun x : Label × Int => x.2 + (blocks.getD x.1 {}).peak) (g.stackHeights blocks entry).toList 0
  rw [← hmax] at hzero hle hmet
  have hupper : ∀ block height, g.Climbs blocks entry block height →
      height + (blocks.getD block {}).peak ≤ g.maxStack blocks entry := fun block height h =>
    hle (block, height) (Std.HashMap.mem_toList_iff_getElem?_eq_some.2 ((hfound _ _).2 h))
  refine ⟨?_, ?_⟩
  · rcases hmet with hmet | ⟨⟨block, height⟩, hx, hmet⟩
    · refine ⟨entry, 0, .entry, ?_⟩
      have := hupper entry 0 .entry
      omega
    · exact ⟨block, height,
        (hfound _ _).1 (Std.HashMap.mem_toList_iff_getElem?_eq_some.1 hx), hmet⟩
  · rintro _ ⟨block, height, h, rfl⟩
    exact hupper block height h

end LabelGraph

namespace Frame

variable {g h : Hierarchy} {f k m : Frame}

/-- A merge keeps the height of the stack. -/
theorem Merged.stackSize_eq (hm : Merged g h f k m) (hf : f.Regular) :
    m.stackSize = f.stackSize := by
  rw [hm.regular.stackSize_eq, hf.stackSize_eq]
  exact hm.joins.total_eq.1.symm

/-- Frames that merge have stacks of one height. -/
theorem Merged.stackSize_eq_other (hm : Merged g h f k m) (hk : k.Regular) :
    m.stackSize = k.stackSize := by
  rw [hm.regular.stackSize_eq, hk.stackSize_eq]
  exact hm.joins.total_eq.2.symm

end Frame

namespace FlowSetting

variable {setting : FlowSetting} {thisClass : ClassName} {f g : Frame}
  {instructions : List (Nat × Effect)} {peak height : Nat}

/-- No instruction loads a wide element as a reference when instructions are simulated from a
frame. -/
def LoadsNoneWide (thisClass : ClassName) (f : Frame) : List (Nat × Effect) → Prop
  | [] => True
  | (_, effect) :: rest =>
    ¬ effect.LoadsWide f ∧ LoadsNoneWide thisClass (f.execute thisClass effect).2 rest

/-- In every round, no instruction of the block that is simulated loads a wide element as a
reference. -/
def LoadsNarrow (setting : FlowSetting) (entry : Label) (f : Frame) : Prop :=
  ∀ (s : Inputs) (block : Label) (rest : List Label) (input : Frame),
    Relation.ReflTransGen (Inputs.Round setting) (Inputs.start entry f) s →
    s.waiting = block :: rest → s.frames[block]? = some input →
    LoadsNoneWide setting.thisClass input (setting.instructions block)

/-- What is known of a block with some instructions. -/
def summarize (instructions : List (Nat × Effect)) : BlockSummary :=
  instructions.foldl (fun s x => s.add true x.1 x.2) {}

/-- Simulated heights are those that the summary of the instructions tells, relative to a base. -/
theorem heights_simulate_from {base bound : Int} (hf : f.Regular)
    (hfinds : FindsAll thisClass f instructions) (hloads : LoadsNoneWide thisClass f instructions)
    (s : BlockSummary) (hsize : (f.stackSize : Int) = base + s.delta)
    (hpeak : (peak : Int) = max bound (base + s.peak))
    (h : simulate thisClass peak f instructions = .ok (g, height)) :
    (g.stackSize : Int) = base + (instructions.foldl (fun s x => s.add true x.1 x.2) s).delta ∧
      (height : Int) =
        max bound (base + (instructions.foldl (fun s x => s.add true x.1 x.2) s).peak) := by
  induction instructions generalizing peak f s with
  | nil =>
    cases h
    exact ⟨hsize, hpeak⟩
  | cons instruction rest ih =>
    obtain ⟨offset, effect⟩ := instruction
    unfold simulate at h
    split at h
    · cases h
    · rename_i mid he
      obtain ⟨hfirst, hfinds⟩ := hfinds
      obtain ⟨hnarrow, hloads⟩ := hloads
      rw [he] at hfinds hloads
      have hnext := hf.stackSize_execute hfirst hnarrow he
      have hdelta : (s.add true offset effect).delta = s.delta + effect.stackDelta := rfl
      have htop : (s.add true offset effect).peak = max s.peak (s.delta + effect.stackDelta) := rfl
      refine ih (hf.execute he) hfinds hloads (s.add true offset effect) ?_ ?_ h <;> omega

/-- The height after a block and the greatest one so far, by the summary of its instructions. -/
theorem heights_simulate (hf : f.Regular) (hfinds : FindsAll thisClass f instructions)
    (hloads : LoadsNoneWide thisClass f instructions)
    (h : simulate thisClass (max peak f.stackSize) f instructions = .ok (g, height)) :
    (g.stackSize : Int) = f.stackSize + (summarize instructions).delta ∧
      (height : Int) = max (peak : Int) (f.stackSize + (summarize instructions).peak) := by
  refine heights_simulate_from hf hfinds hloads {} ?_ ?_ h
  · exact (Int.add_zero _).symm
  · show ((max peak f.stackSize : Nat) : Int) = max (peak : Int) (f.stackSize + 0)
    omega

theorem zero_le_peak_summarize (instructions : List (Nat × Effect)) :
    0 ≤ (summarize instructions).peak := by
  have hkeep : ∀ s : BlockSummary, 0 ≤ s.peak →
      0 ≤ (instructions.foldl (fun s x => s.add true x.1 x.2) s).peak := by
    induction instructions with
    | nil => exact fun s hs => hs
    | cons x rest ih => exact fun s hs => ih _ (Int.le_trans hs (Int.le_max_left _ _))
  exact hkeep {} (Int.le_refl 0)

/-- Every type that is caught takes up one slot. -/
def CatchesNarrow (setting : FlowSetting) : Prop :=
  ∀ block, ∀ edge ∈ setting.graph.edges block, ∀ type, edge.kind = .caught type → type.width = 1

/-- The blocks are known by their instructions. -/
def Summarized (setting : FlowSetting) : Prop :=
  ∀ block, setting.blocks.getD block {} = summarize (setting.instructions block)

/-- The height of the frame that an edge carries. -/
theorem stackSize_carried (hcaught : setting.CatchesNarrow) (hs : setting.Summarized)
    {block : Label} {edge : Edge} (he : edge ∈ setting.graph.edges block) {input output : Frame}
    (hdelta : (output.stackSize : Int) =
      input.stackSize + (summarize (setting.instructions block)).delta) :
    ((carried input output edge.kind).stackSize : Int) =
      LabelGraph.heightAlong setting.blocks block input.stackSize edge := by
  unfold LabelGraph.heightAlong
  cases hk : edge.kind with
  | normal =>
    rw [hs block]
    exact hdelta
  | exception => rfl
  | caught type =>
    have hw := hcaught block edge he type hk
    show ((0 + type.width : Nat) : Int) = 1
    omega

end FlowSetting

namespace Inputs

variable {setting : FlowSetting} {s s' : Inputs} {block entry : Label} {input output f : Frame}

/-- What a received frame leaves at its block has the height of the frame, and what was there before
had that height too. -/
theorem Received.stackSize {kind : EdgeKind} (hr : Received setting s kind block f s')
    (ht : s.Tidy) (hf : f.Regular) :
    (∃ g, s'.frames[block]? = some g ∧ g.stackSize = f.stackSize) ∧
      ∀ old, s.frames[block]? = some old → old.stackSize = f.stackSize := by
  cases ho : s.frames[block]? with
  | none =>
    refine ⟨?_, fun old h => absurd h.symm (Option.some_ne_none old)⟩
    cases hr with
    | found _ => exact ⟨f, by simp, rfl⟩
    | changed ho' _ _ => cases ho.symm.trans ho'
    | kept ho' _ _ => cases ho.symm.trans ho'
  | some old =>
    obtain ⟨new, hnew, hm⟩ := hr.merged ht ho
    have hsize := hm.stackSize_eq_other hf
    refine ⟨⟨new, hnew, hsize⟩, fun old' h => ?_⟩
    cases h
    exact (hm.stackSize_eq (ht.regular ho)).symm.trans hsize

/-- Inputs keep their heights, and the frames that edges carry fit them. -/
theorem Sent.stackSize {edges : List Edge} (hs : Sent setting input output s edges s')
    (ht : s.Tidy) (hi : input.Regular) (ho : output.Regular) :
    (∀ (b : Label) (old : Frame), s.frames[b]? = some old →
      ∃ g : Frame, s'.frames[b]? = some g ∧ g.stackSize = old.stackSize) ∧
    ∀ edge ∈ edges, ∃ g, s'.frames[setting.graph.blockOf edge.successor]? = some g ∧
      g.stackSize = (FlowSetting.carried input output edge.kind).stackSize := by
  induction hs with
  | nil s => exact ⟨fun b old h => ⟨old, h, rfl⟩, List.forall_mem_nil _⟩
  | @cons s mid s' edge rest head tail ih =>
    have hcarried := FlowSetting.regular_carried hi ho edge.kind
    obtain ⟨hkeeps, hends⟩ := ih (head.tidy hcarried ht)
    obtain ⟨⟨new, hnew, hsize⟩, hold⟩ := head.stackSize ht hcarried
    refine ⟨fun b old h => ?_, List.forall_mem_cons.2 ⟨?_, hends⟩⟩
    · by_cases hb : b = setting.graph.blockOf edge.successor
      · subst hb
        obtain ⟨g, hg, hgs⟩ := hkeeps _ new hnew
        exact ⟨g, hg, hgs.trans (hsize.trans (hold old h).symm)⟩
      · exact hkeeps b old ((head.other hb).trans h)
    · obtain ⟨g, hg, hgs⟩ := hkeeps _ new hnew
      exact ⟨g, hg, hgs.trans hsize⟩

/-- Heights while frames are computed: inputs have heights that paths carry to them, the greatest
height so far was met, and where a block does not wait its heights count and its edges carry heights
that fit the inputs of their ends. -/
structure Measures (setting : FlowSetting) (entry : Label) (s : Inputs) : Prop where
  begun : ∃ f, s.frames[entry]? = some f ∧ f.stackSize = 0
  climbs : s.All fun block f => setting.graph.Climbs setting.blocks entry block f.stackSize
  met : s.maxStack = 0 ∨ (s.maxStack : Int) ∈ setting.graph.peaks setting.blocks entry
  below : ∀ block f, s.frames[block]? = some f → block ∉ s.waiting →
    (f.stackSize : Int) + (setting.blocks.getD block {}).peak ≤ s.maxStack
  fits : ∀ block f, s.frames[block]? = some f → block ∉ s.waiting →
    ∀ edge ∈ setting.graph.edges block,
      ∃ g, s.frames[setting.graph.blockOf edge.successor]? = some g ∧
        (g.stackSize : Int) = LabelGraph.heightAlong setting.blocks block f.stackSize edge

theorem measures_start (hf : f.stackSize = 0) : Measures setting entry (start entry f) := by
  have honly : (start entry f).All fun block _ => block = entry := all_start rfl
  refine ⟨⟨f, by simp [start], hf⟩, all_start ?_, Or.inl rfl, fun block g hg hw => ?_,
    fun block g hg hw => ?_⟩
  · rw [hf]
    exact .entry
  · exact absurd (List.mem_singleton.2 (honly block g hg)) hw
  · exact absurd (List.mem_singleton.2 (honly block g hg)) hw

theorem Round.measures (hcaught : setting.CatchesNarrow) (hs : setting.Summarized)
    (hr : Round setting s s') (ht : s.Tidy)
    (hfinds : ∀ block rest input, s.waiting = block :: rest → s.frames[block]? = some input →
      FlowSetting.FindsAll setting.thisClass input (setting.instructions block) ∧
        FlowSetting.LoadsNoneWide setting.thisClass input (setting.instructions block))
    (h : Measures setting entry s) : Measures setting entry s' := by
  have hsettled : ∀ (b : Label) (g : Frame), s'.frames[b]? = some g → b ∉ s'.waiting →
      s.frames[b]? = some g ∧ (b ∉ s.waiting ∨ s.waiting.head? = some b) :=
    fun b g => hr.settled ht
  obtain @⟨block, rest, output, maxStack, head, simulated, sent⟩ := hr
  have hinput := ht.head head
  generalize s.frames.getD block Frame.empty = input at hinput simulated sent
  have hi := ht.regular hinput
  have ho := FlowSetting.regular_simulate hi simulated
  obtain ⟨hfound, hnarrow⟩ := hfinds block rest input head hinput
  obtain ⟨hdelta, hpeak⟩ := FlowSetting.heights_simulate hi hfound hnarrow simulated
  rw [← hs block] at hpeak
  have hcarried : ∀ edge ∈ setting.graph.edges block,
      ((FlowSetting.carried input output edge.kind).stackSize : Int) =
        LabelGraph.heightAlong setting.blocks block input.stackSize edge := fun edge he =>
    FlowSetting.stackSize_carried hcaught hs he hdelta
  have hdequeued := ht.dequeue head maxStack
  have hclimbs := h.climbs block input hinput
  obtain ⟨hkeeps, hends⟩ := sent.stackSize hdequeued hi ho
  have hmax : s'.maxStack = maxStack := sent.maxStack
  refine ⟨?_, ?_, ?_, fun b g hg hw => ?_, fun b g hg hw edge he => ?_⟩
  · obtain ⟨first, hfirst, hzero⟩ := h.begun
    obtain ⟨g, hg, hsize⟩ := hkeeps entry first hfirst
    exact ⟨g, hg, hsize.trans hzero⟩
  · refine sent.all
      (P := fun block f => setting.graph.Climbs setting.blocks entry block f.stackSize)
      (fun hf hm hp _ => ?_) hi ho hdequeued (fun edge he => ?_) h.climbs
    · rw [hm.stackSize_eq hf]
      exact hp
    · rw [hcarried edge he]
      exact .step hclimbs he
  · rw [hmax]
    by_cases hle : (input.stackSize : Int) + (setting.blocks.getD block {}).peak ≤ s.maxStack
    · obtain rfl : maxStack = s.maxStack := by omega
      exact h.met
    · exact Or.inr ⟨block, _, hclimbs, by omega⟩
  · rw [hmax]
    obtain ⟨hold, hnot | hhead⟩ := hsettled b g hg hw
    · have := h.below b g hold hnot
      omega
    · rw [head, List.head?_cons] at hhead
      cases hhead
      cases hinput.symm.trans hold
      omega
  · obtain ⟨hold, hnot | hhead⟩ := hsettled b g hg hw
    · obtain ⟨k, hk, hsize⟩ := h.fits b g hold hnot edge he
      obtain ⟨k', hk', hsize'⟩ := hkeeps _ k hk
      exact ⟨k', hk', by omega⟩
    · rw [head, List.head?_cons] at hhead
      cases hhead
      cases hinput.symm.trans hold
      obtain ⟨k, hk, hsize⟩ := hends edge he
      exact ⟨k, hk, by rw [hsize, hcarried edge he]⟩

end Inputs

namespace FlowSetting

variable {setting : FlowSetting} {entry : Label} {f : Frame} {r : Inputs}

theorem measures_of_inputs (hcaught : setting.CatchesNarrow) (hs : setting.Summarized)
    (hfinds : setting.FindsOperands entry f) (hloads : setting.LoadsNarrow entry f) (hf : f.Regular)
    (hsize : f.stackSize = 0) (h : setting.inputs entry f = .ok r) :
    Inputs.Measures setting entry r ∧ r.waiting = [] := by
  have ht := Inputs.tidy_start entry hf
  have hrun : ∀ s, Relation.ReflTransGen (Inputs.Round setting) (Inputs.start entry f) s →
      Inputs.Measures setting entry s := by
    intro s hrounds
    induction hrounds with
    | refl => exact Inputs.measures_start hsize
    | tail hrounds hlast ih =>
      exact hlast.measures hcaught hs (Inputs.rounds_tidy hrounds ht)
        (fun block rest input hw hi => ⟨hfinds _ block rest input hrounds hw hi,
          hloads _ block rest input hrounds hw hi⟩) ih
  obtain ⟨hrounds, hw⟩ := Inputs.rounds_of_settle h
  exact ⟨hrun r hrounds, hw⟩

/-- Every path carries to a block the height of the stack of its input. -/
theorem climbs_of_inputs (hcaught : setting.CatchesNarrow) (hs : setting.Summarized)
    (hfinds : setting.FindsOperands entry f) (hloads : setting.LoadsNarrow entry f) (hf : f.Regular)
    (hsize : f.stackSize = 0) (h : setting.inputs entry f = .ok r) {block : Label} {height : Int}
    (hc : setting.graph.Climbs setting.blocks entry block height) :
    ∃ g, r.frames[block]? = some g ∧ height = g.stackSize := by
  obtain ⟨hm, hw⟩ := measures_of_inputs hcaught hs hfinds hloads hf hsize h
  induction hc with
  | entry =>
    obtain ⟨g, hg, hzero⟩ := hm.begun
    exact ⟨g, hg, by rw [hzero]; rfl⟩
  | step _ edge_mem ih =>
    obtain ⟨g, hg, rfl⟩ := ih
    obtain ⟨k, hk, hk'⟩ := hm.fits _ g hg (hw ▸ List.not_mem_nil) _ edge_mem
    exact ⟨k, hk, hk'.symm⟩

/-- The greatest height met while frames are computed. -/
theorem isGreatest_of_inputs (hcaught : setting.CatchesNarrow) (hs : setting.Summarized)
    (hfinds : setting.FindsOperands entry f) (hloads : setting.LoadsNarrow entry f) (hf : f.Regular)
    (hsize : f.stackSize = 0) (h : setting.inputs entry f = .ok r) :
    IsGreatest (setting.graph.peaks setting.blocks entry) r.maxStack := by
  obtain ⟨hm, hw⟩ := measures_of_inputs hcaught hs hfinds hloads hf hsize h
  have hbelow : ∀ block height, setting.graph.Climbs setting.blocks entry block height →
      height + (setting.blocks.getD block {}).peak ≤ r.maxStack := by
    intro block height hc
    obtain ⟨g, hg, rfl⟩ := climbs_of_inputs hcaught hs hfinds hloads hf hsize h hc
    exact hm.below block g hg (hw ▸ List.not_mem_nil)
  refine ⟨?_, ?_⟩
  · rcases hm.met with hzero | hmet
    · have hentry := hbelow entry 0 .entry
      have hpeak := zero_le_peak_summarize (setting.instructions entry)
      rw [← hs entry] at hpeak
      exact ⟨entry, 0, .entry, by omega⟩
    · exact hmet
  · rintro _ ⟨block, height, hc, rfl⟩
    exact hbelow block height hc

end FlowSetting

end JvmClass
