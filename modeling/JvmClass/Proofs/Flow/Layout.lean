import JvmClass.Flow.Handlers
import JvmClass.Proofs.Steps

/-!
# The layout of blocks

Blocks are placed at ascending positions, and every label that is placed belongs to the block at its
position (`LabelGraph.Tiled`). Placing a label at the end of the code keeps this, and edges and
flags do not matter for it (`LabelGraph.SameLayout`).
-/

namespace JvmClass

namespace LabelGraph

variable {g g' : LabelGraph} {label l m : Label} {size p q i : Nat}

/-- What `layout?` says of a label: its position, the leader of its block and its place in the
chain. -/
structure Place where
  position : Option Nat
  leader : Option Label
  chainIndex : Option Nat

/-- Where a label stands, if the graph has made it. -/
def place? (g : LabelGraph) (label : Label) : Option Place :=
  (g.data? label).map fun d => ⟨d.position, d.leader, d.chainIndex⟩

/-- Graphs that agree on where labels stand. -/
structure SameLayout (g g' : LabelGraph) : Prop where
  chain : g'.chain = g.chain
  place : ∀ label, g'.place? label = g.place? label

namespace SameLayout

theorem refl (g : LabelGraph) : g.SameLayout g := ⟨rfl, fun _ => rfl⟩

theorem trans {g'' : LabelGraph} (h : g.SameLayout g') (h' : g'.SameLayout g'') :
    g.SameLayout g'' :=
  ⟨h'.chain.trans h.chain, fun label => (h'.place label).trans (h.place label)⟩

end SameLayout

theorem position?_eq (g : LabelGraph) (label : Label) :
    g.position? label = (g.place? label).bind (·.position) := by
  unfold position? place?
  cases g.data? label <;> rfl

theorem blockOf_eq (g : LabelGraph) (label : Label) :
    g.blockOf label = ((g.place? label).bind (·.leader)).getD label := by
  unfold blockOf place?
  cases g.data? label <;> rfl

theorem nextBlock?_eq (g : LabelGraph) (label : Label) :
    g.nextBlock? label =
      ((g.place? (g.blockOf label)).bind (·.chainIndex)).bind fun index => g.chain[index + 1]? := by
  unfold nextBlock? place?
  cases g.data? (g.blockOf label) with
  | none => rfl
  | some d =>
    simp only [Option.bind_some, Option.map_some]
    cases d.chainIndex <;> rfl

namespace SameLayout

variable (h : g.SameLayout g')
include h

theorem position? (label : Label) : g'.position? label = g.position? label := by
  rw [position?_eq, position?_eq, h.place]

theorem blockOf (label : Label) : g'.blockOf label = g.blockOf label := by
  rw [blockOf_eq, blockOf_eq, h.place]

theorem nextBlock? (label : Label) : g'.nextBlock? label = g.nextBlock? label := by
  rw [nextBlock?_eq, nextBlock?_eq, h.blockOf, h.place, h.chain]

theorem blocks : g'.blocks = g.blocks := by
  rw [LabelGraph.blocks, LabelGraph.blocks, h.chain]

end SameLayout

theorem data?_update (g : LabelGraph) (label l : Label) (f : LabelData → LabelData) :
    (g.update label f).data? l = if l = label then (g.data? l).map f else g.data? l := by
  unfold update data?
  rw [Array.getElem?_modify]
  have hiff : label.number = l.number ↔ l = label := by
    cases label
    cases l
    simp [eq_comm]
  simp only [hiff]

theorem blocks_getElem (g : LabelGraph) (i : Nat) : g.blocks[i]? = g.chain[i]? :=
  Array.getElem?_toList

theorem mem_blocks (g : LabelGraph) (l : Label) :
    l ∈ g.blocks ↔ ∃ i : Nat, g.chain[i]? = some l := by
  simp only [List.mem_iff_getElem?, blocks_getElem]

/-- A change of what is known about a label that does not move it. -/
theorem sameLayout_update (g : LabelGraph) (label : Label) {f : LabelData → LabelData}
    (hf : ∀ d, (f d).position = d.position ∧ (f d).leader = d.leader ∧
      (f d).chainIndex = d.chainIndex) : g.SameLayout (g.update label f) := by
  refine ⟨rfl, fun l => ?_⟩
  unfold place?
  rw [data?_update]
  split
  · cases g.data? l with
    | none => rfl
    | some d =>
      obtain ⟨h1, h2, h3⟩ := hf d
      simp [h1, h2, h3]
  · rfl

theorem sameLayout_setFlags (g : LabelGraph) (label : Label) (flags : BlockFlags) :
    g.SameLayout (g.setFlags label flags) :=
  sameLayout_update g _ fun _ => ⟨rfl, rfl, rfl⟩

theorem sameLayout_addEdge {kind : EdgeKind} {successor : Label} {u : Unit}
    (h : addEdge label kind successor g = .ok u g') : g.SameLayout g' := by
  unfold addEdge at h
  simp only at h
  split at h
  · cases h
    exact sameLayout_update g _ fun _ => ⟨rfl, rfl, rfl⟩
  · cases h

theorem sameLayout_resolve (g : LabelGraph) : g.SameLayout g.resolve := by
  refine ⟨rfl, fun l => ?_⟩
  unfold place? resolve data?
  simp only [Array.getElem?_map]
  cases g.labels[l.number]? <;> rfl

/-- Once labels are settled, every label is where it was placed. -/
theorem offset_resolve (g : LabelGraph) (label : Label) :
    g.resolve.offset label =
      match g.position? label with
      | some p => .ok p
      | none => .error (.unresolvedLabel label) := by
  unfold offset position? resolve data?
  simp only [Array.getElem?_map]
  cases g.labels[label.number]? <;> rfl

/-- A label that is made is not placed, and nothing else changes. -/
theorem place?_addLabel (g : LabelGraph) (label : Label) :
    g.addLabel.place? label = g.place? label ∨
      g.place? label = none ∧ g.addLabel.place? label = some ⟨none, none, none⟩ := by
  unfold place? data? addLabel
  simp only [Array.getElem?_push]
  split
  · rename_i he
    right
    rw [he]
    simp
  · exact Or.inl rfl

theorem position?_addLabel (g : LabelGraph) (label : Label) :
    g.addLabel.position? label = g.position? label := by
  rw [position?_eq, position?_eq]
  rcases place?_addLabel g label with h | ⟨h, h'⟩
  · rw [h]
  · rw [h, h']
    rfl

theorem blockOf_addLabel (g : LabelGraph) (label : Label) :
    g.addLabel.blockOf label = g.blockOf label := by
  rw [blockOf_eq, blockOf_eq]
  rcases place?_addLabel g label with h | ⟨h, h'⟩
  · rw [h]
  · rw [h, h']
    rfl

theorem position?_addLabels (g : LabelGraph) (count : Nat) (label : Label) :
    (g.addLabels count).position? label = g.position? label := by
  induction count generalizing g with
  | zero => rfl
  | succ n ih => exact (ih g.addLabel).trans (position?_addLabel g label)

theorem chain_addLabels (g : LabelGraph) (count : Nat) : (g.addLabels count).chain = g.chain := by
  induction count generalizing g with
  | zero => rfl
  | succ n ih => exact ih g.addLabel

/-- A label that starts a block is placed and knows where it stands in the chain, and a label that
is placed belongs to the block at its position. -/
structure Grouped (g : LabelGraph) : Prop where
  leaders : ∀ (i : Nat) (l : Label), g.chain[i]? = some l →
    ∃ p, g.place? l = some ⟨some p, none, some i⟩
  placed : ∀ (l : Label) (p : Nat), g.position? l = some p →
    (∃ i : Nat, g.chain[i]? = some (g.blockOf l)) ∧ g.position? (g.blockOf l) = some p
  unplaced : ∀ (l : Label) (place : Place), g.place? l = some place → place.position = none →
    place.leader = none

namespace Grouped

theorem sameLayout (hg : g.Grouped) (h : g.SameLayout g') : g'.Grouped where
  leaders i l hl := by
    rw [h.chain] at hl
    rw [h.place]
    exact hg.leaders i l hl
  placed l p hp := by
    rw [h.position?] at hp
    rw [h.chain, h.blockOf, h.position?]
    exact hg.placed l p hp
  unplaced l place hl hp := by
    rw [h.place] at hl
    exact hg.unplaced l place hl hp

theorem empty : LabelGraph.empty.Grouped where
  leaders i l hl := by simp [LabelGraph.empty] at hl
  placed l p hp := by simp [LabelGraph.empty, position?, data?] at hp
  unplaced l place hl := by simp [LabelGraph.empty, place?, data?] at hl

theorem addLabel (hg : g.Grouped) : g.addLabel.Grouped where
  leaders i l hl := by
    obtain ⟨p, hd⟩ := hg.leaders i l hl
    rcases place?_addLabel g l with h | ⟨h, -⟩
    · exact ⟨p, h.trans hd⟩
    · rw [h] at hd
      cases hd
  placed l p hp := by
    rw [position?_addLabel] at hp
    rw [blockOf_addLabel, position?_addLabel]
    exact hg.placed l p hp
  unplaced l place hl hp := by
    rcases place?_addLabel g l with h | ⟨-, h⟩
    · exact hg.unplaced l place (h ▸ hl) hp
    · rw [h] at hl
      cases hl
      rfl

theorem addLabels (hg : g.Grouped) (count : Nat) : (g.addLabels count).Grouped := by
  induction count generalizing g with
  | zero => exact hg
  | succ n ih => exact ih hg.addLabel

/-- The position of a block. -/
theorem position (hg : g.Grouped) (hl : g.chain[i]? = some l) : ∃ p, g.position? l = some p := by
  obtain ⟨p, hd⟩ := hg.leaders i l hl
  refine ⟨p, ?_⟩
  rw [position?_eq, hd]
  rfl

theorem blockOf_leader (hg : g.Grouped) (hl : g.chain[i]? = some l) : g.blockOf l = l := by
  obtain ⟨p, hd⟩ := hg.leaders i l hl
  rw [blockOf_eq, hd]
  rfl

/-- A block has one place in the chain. -/
theorem index_unique (hg : g.Grouped) {j : Nat} (hi : g.chain[i]? = some l)
    (hj : g.chain[j]? = some l) : i = j := by
  obtain ⟨p, hd⟩ := hg.leaders i l hi
  obtain ⟨q, he⟩ := hg.leaders j l hj
  rw [hd] at he
  cases he
  rfl

theorem nodup_blocks (hg : g.Grouped) : g.blocks.Nodup := by
  refine List.pairwise_iff_getElem.2 fun i j hi hj hij he => Nat.ne_of_lt hij ?_
  apply hg.index_unique (l := g.blocks[i])
  · rw [← blocks_getElem, List.getElem?_eq_getElem hi]
  · rw [← blocks_getElem, List.getElem?_eq_getElem hj, he]

end Grouped

/-- Blocks start at ascending positions up to the size of the code, and a label that is placed
belongs to the block at its position. -/
structure Tiled (g : LabelGraph) (size : Nat) : Prop where
  leaders : ∀ (i : Nat) (l : Label), g.chain[i]? = some l →
    ∃ p, p ≤ size ∧ g.place? l = some ⟨some p, none, some i⟩
  ascending : ∀ (i j : Nat) (l m : Label) (p q : Nat), i < j → g.chain[i]? = some l →
    g.chain[j]? = some m → g.position? l = some p → g.position? m = some q → p < q
  placed : ∀ (l : Label) (p : Nat), g.position? l = some p →
    (∃ i : Nat, g.chain[i]? = some (g.blockOf l)) ∧ g.position? (g.blockOf l) = some p
  unplaced : ∀ (l : Label) (place : Place), g.place? l = some place → place.position = none →
    place.leader = none

/-- Blocks that start at ascending positions within the code tile it. -/
theorem Grouped.tiled (hg : g.Grouped)
    (hsize : ∀ (i : Nat) l p, g.chain[i]? = some l → g.position? l = some p → p ≤ size)
    (hascending : ∀ (i j : Nat) l m p q, i < j → g.chain[i]? = some l → g.chain[j]? = some m →
      g.position? l = some p → g.position? m = some q → p < q) : g.Tiled size where
  leaders i l hl := by
    obtain ⟨p, hd⟩ := hg.leaders i l hl
    exact ⟨p, hsize i l p hl (by rw [position?_eq, hd]; rfl), hd⟩
  ascending := hascending
  placed := hg.placed
  unplaced := hg.unplaced

namespace Tiled

theorem grouped (ht : g.Tiled size) : g.Grouped where
  leaders i l hl := (ht.leaders i l hl).imp fun _ h => h.2
  placed := ht.placed
  unplaced := ht.unplaced

/-- The position of a block. -/
theorem position (ht : g.Tiled size) (hl : g.chain[i]? = some l) :
    ∃ p, p ≤ size ∧ g.position? l = some p := by
  obtain ⟨p, hp, hd⟩ := ht.leaders i l hl
  refine ⟨p, hp, ?_⟩
  rw [position?_eq, hd]
  rfl

theorem position_le (ht : g.Tiled size) (hl : g.chain[i]? = some l) (hp : g.position? l = some p) :
    p ≤ size := by
  obtain ⟨q, hq, hd⟩ := ht.position hl
  rw [hp] at hd
  cases hd
  exact hq

theorem sameLayout (ht : g.Tiled size) (h : g.SameLayout g') : g'.Tiled size := by
  refine (ht.grouped.sameLayout h).tiled (fun i l p hl hp => ?_)
    fun i j l m p q hij hl hm hp hq => ?_
  · rw [h.chain] at hl
    rw [h.position?] at hp
    exact ht.position_le hl hp
  · rw [h.chain] at hl hm
    rw [h.position?] at hp hq
    exact ht.ascending i j l m p q hij hl hm hp hq

theorem mono (ht : g.Tiled size) {size' : Nat} (h : size ≤ size') : g.Tiled size' :=
  ht.grouped.tiled (fun _ _ _ hl hp => Nat.le_trans (ht.position_le hl hp) h) ht.ascending

theorem empty : LabelGraph.empty.Tiled size :=
  Grouped.empty.tiled (fun i l p hl => by simp [LabelGraph.empty] at hl)
    fun i j l m p q hij hl => by simp [LabelGraph.empty] at hl

theorem blockOf_leader (ht : g.Tiled size) (hl : g.chain[i]? = some l) : g.blockOf l = l :=
  ht.grouped.blockOf_leader hl

/-- A block has one place in the chain. -/
theorem index_unique (ht : g.Tiled size) {j : Nat} (hi : g.chain[i]? = some l)
    (hj : g.chain[j]? = some l) : i = j :=
  ht.grouped.index_unique hi hj

/-- Blocks that start later stand later in the chain. -/
theorem index_le (ht : g.Tiled size) {j : Nat} (hi : g.chain[i]? = some l)
    (hj : g.chain[j]? = some m) (hp : g.position? l = some p) (hq : g.position? m = some q)
    (hle : p ≤ q) : i ≤ j := by
  apply Nat.not_lt.1
  intro hlt
  have := ht.ascending j i m l q p hlt hj hi hq hp
  omega

theorem addLabel (ht : g.Tiled size) : g.addLabel.Tiled size := by
  refine ht.grouped.addLabel.tiled (fun i l p hl hp => ?_) fun i j l m p q hij hl hm hp hq => ?_
  · rw [position?_addLabel] at hp
    exact ht.position_le hl hp
  · rw [position?_addLabel] at hp hq
    exact ht.ascending i j l m p q hij hl hm hp hq

theorem addLabels (ht : g.Tiled size) (count : Nat) : (g.addLabels count).Tiled size := by
  induction count generalizing g with
  | zero => exact ht
  | succ n ih => exact ih ht.addLabel

end Tiled

/-- The ways in which a label gets its place: at an empty block, or as the start of a new one. -/
inductive Placing (g : LabelGraph) (label : Label) (position : Nat) : Bool → LabelGraph → Prop where
  | joins (leader : Label) (index : Option Nat) {g' : LabelGraph}
    (unplaced : g.position? label = none) (last : g.chain.back? = some leader)
    (here : g.position? leader = some position) (chain : g'.chain = g.chain)
    (place : g'.place? label = some ⟨some position, some leader, index⟩)
    (others : ∀ l, l ≠ label → g'.place? l = g.place? l) : Placing g label position false g'
  | starts (leader : Option Label) (index : Option Nat) {g' : LabelGraph}
    (last : ∀ leader, g.chain.back? = some leader → g.position? leader ≠ some position)
    (unplaced : g.place? label = some ⟨none, leader, index⟩)
    (chain : g'.chain = g.chain.push label)
    (place : g'.place? label = some ⟨some position, leader, some g.chain.size⟩)
    (others : ∀ l, l ≠ label → g'.place? l = g.place? l) : Placing g label position true g'

theorem placing {starts : Bool} (h : place label p g = .ok starts g') :
    Placing g label p starts g' := by
  unfold place at h
  split at h
  · cases h
  · rename_i d hd
    split at h
    · cases h
    · rename_i hpos
      have hnone : d.position = none := by simpa using hpos
      split at h
      · rename_i leader hlast
        cases h
        unfold lastBlockAt? at hlast
        split at hlast
        · cases hlast
        · rename_i back hback
          split at hlast
          · rename_i hhere
            cases hlast
            have hne : leader ≠ label := by
              rintro rfl
              rw [position?, hd, Option.bind_some, hnone] at hhere
              cases hhere
            refine .joins leader d.chainIndex ?_ hback hhere rfl ?_ fun l hl => ?_
            · rw [position?, hd, Option.bind_some, hnone]
            · simp [place?, data?_update, Ne.symm hne, hd]
            · by_cases hll : l = leader
              · subst hll
                simp only [place?, data?_update, hne, if_true, if_false]
                cases g.data? l <;> rfl
              · simp [place?, data?_update, hl, hll]
          · cases hlast
      · rename_i hlast
        cases h
        refine .starts d.leader d.chainIndex ?_ ?_ rfl ?_ fun l hl => ?_
        · intro leader hback hhere
          simp [lastBlockAt?, hback, hhere] at hlast
        · simp [place?, hd, hnone]
        · have : (g.update label fun d =>
              { d with position := some p, chainIndex := some g.chain.size }).place? label =
              some ⟨some p, d.leader, some g.chain.size⟩ := by
            simp [place?, data?_update, hd]
          exact this
        · have : (g.update label fun d =>
              { d with position := some p, chainIndex := some g.chain.size }).place? l =
              g.place? l := by
            simp [place?, data?_update, hl]
          exact this

/-- What is known of another label does not change. -/
theorem others_eq (h : ∀ l, l ≠ label → g'.place? l = g.place? l) (hl : l ≠ label) :
    g'.position? l = g.position? l ∧ g'.blockOf l = g.blockOf l := by
  rw [position?_eq, position?_eq, blockOf_eq, blockOf_eq, h l hl]
  exact ⟨rfl, rfl⟩

theorem ne_of_unplaced (hl : g.position? l = some p) (hu : g.position? label = none) :
    l ≠ label := by
  rintro rfl
  rw [hu] at hl
  cases hl

/-- The block that a label starts comes last in the chain. -/
theorem chain_push (h : g'.chain = g.chain.push label) (i : Nat) (l : Label) :
    g'.chain[i]? = some l ↔ g.chain[i]? = some l ∨ i = g.chain.size ∧ l = label := by
  rw [h, Array.getElem?_push]
  split
  · rename_i he
    subst he
    simp [eq_comm]
  · rename_i hne
    simp [hne]

namespace Grouped

/-- A label that joins an empty block leaves the blocks as they are. -/
theorem joins (hg : g.Grouped) (h : Placing g label p false g') :
    g'.Grouped ∧ ∃ leader, g.chain.back? = some leader ∧ g'.chain = g.chain ∧
      g'.blockOf label = leader ∧ g.position? leader = some p ∧
      ∀ (i : Nat) l, g.chain[i]? = some l → g'.place? l = g.place? l := by
  obtain ⟨leader, index, unplaced, last, here, chain, place, others⟩ := h
  have hlabel : g'.position? label = some p := by
    rw [position?_eq, place]
    rfl
  have hblock : g'.blockOf label = leader := by
    rw [blockOf_eq, place]
    rfl
  have hback : g.chain[g.chain.size - 1]? = some leader := by
    rw [← last, Array.back?_eq_getElem?]
  have hchain : ∀ (i : Nat) l, g.chain[i]? = some l → g'.place? l = g.place? l := by
    intro i l hl
    obtain ⟨q, hq⟩ := hg.position hl
    exact others l (ne_of_unplaced hq unplaced)
  refine ⟨⟨fun i l hl => ?_, fun l q hq => ?_, fun l place' hl hp => ?_⟩,
    leader, last, chain, hblock, here, hchain⟩
  · rw [chain] at hl
    rw [hchain i l hl]
    exact hg.leaders i l hl
  · by_cases he : l = label
    · subst he
      rw [hlabel] at hq
      cases hq
      rw [hblock, chain, position?_eq, hchain _ _ hback, ← position?_eq]
      exact ⟨⟨_, hback⟩, here⟩
    · rw [(others_eq others he).1] at hq
      obtain ⟨⟨i, hi⟩, hb⟩ := hg.placed l q hq
      rw [(others_eq others he).2, chain, position?_eq, hchain i _ hi, ← position?_eq]
      exact ⟨⟨i, hi⟩, hb⟩
  · by_cases he : l = label
    · subst he
      rw [place] at hl
      cases hl
      cases hp
    · rw [others l he] at hl
      exact hg.unplaced l place' hl hp

/-- A label that starts a block is the last of the chain, and the other blocks stay. -/
theorem starts (hg : g.Grouped) (h : Placing g label p true g') :
    g'.Grouped ∧ g'.chain = g.chain.push label ∧ g'.blockOf label = label ∧
      g'.position? label = some p ∧
      (∀ (i : Nat) l, g.chain[i]? = some l → l ≠ label ∧ g'.place? l = g.place? l) ∧
      ∀ leader, g.chain.back? = some leader → g.position? leader ≠ some p := by
  obtain _ | ⟨leader, index, last, unplaced, chain, place, others⟩ := h
  have hnone : leader = none := hg.unplaced label _ unplaced rfl
  subst hnone
  have hu : g.position? label = none := by
    rw [position?_eq, unplaced]
    rfl
  have hlabel : g'.position? label = some p := by
    rw [position?_eq, place]
    rfl
  have hblock : g'.blockOf label = label := by
    rw [blockOf_eq, place]
    rfl
  have hchain : ∀ (i : Nat) l, g.chain[i]? = some l → l ≠ label ∧ g'.place? l = g.place? l := by
    intro i l hl
    obtain ⟨q, hq⟩ := hg.position hl
    exact ⟨ne_of_unplaced hq hu, others l (ne_of_unplaced hq hu)⟩
  refine ⟨⟨fun i l hl => ?_, fun l q hq => ?_, fun l place' hl hp => ?_⟩, chain, hblock, hlabel,
    hchain, last⟩
  · rcases (chain_push chain i l).1 hl with hl | ⟨rfl, rfl⟩
    · rw [(hchain i l hl).2]
      exact hg.leaders i l hl
    · exact ⟨p, place⟩
  · by_cases he : l = label
    · subst he
      rw [hlabel] at hq
      cases hq
      rw [hblock]
      exact ⟨⟨g.chain.size, (chain_push chain _ _).2 (Or.inr ⟨rfl, rfl⟩)⟩, hlabel⟩
    · rw [(others_eq others he).1] at hq
      obtain ⟨⟨i, hi⟩, hb⟩ := hg.placed l q hq
      rw [(others_eq others he).2, position?_eq, (hchain i _ hi).2, ← position?_eq]
      exact ⟨⟨i, (chain_push chain _ _).2 (Or.inl hi)⟩, hb⟩
  · by_cases he : l = label
    · subst he
      rw [place] at hl
      cases hl
      cases hp
    · rw [others l he] at hl
      exact hg.unplaced l place' hl hp

end Grouped

namespace Tiled

/-- A label that joins an empty block leaves the blocks as they are. -/
theorem joins (ht : g.Tiled size) (h : Placing g label size false g') :
    g'.Tiled size ∧ ∃ leader, g.chain.back? = some leader ∧ g'.chain = g.chain ∧
      g'.blockOf label = leader ∧ g.position? leader = some size ∧
      ∀ (i : Nat) l, g.chain[i]? = some l → g'.position? l = g.position? l := by
  obtain ⟨hgrouped, leader, last, chain, hblock, here, hplace⟩ := ht.grouped.joins h
  have hkeep : ∀ (i : Nat) l, g.chain[i]? = some l → g'.position? l = g.position? l := by
    intro i l hl
    rw [position?_eq, position?_eq, hplace i l hl]
  refine ⟨hgrouped.tiled (fun i l p hl hp => ?_) fun i j l m p q hij hl hm hp hq => ?_,
    leader, last, chain, hblock, here, hkeep⟩
  · rw [chain] at hl
    rw [hkeep i l hl] at hp
    exact ht.position_le hl hp
  · rw [chain] at hl hm
    rw [hkeep i l hl] at hp
    rw [hkeep j m hm] at hq
    exact ht.ascending i j l m p q hij hl hm hp hq

/-- A label that starts a block comes after all the others. -/
theorem starts (ht : g.Tiled size) (h : Placing g label size true g') :
    g'.Tiled size ∧ g'.chain = g.chain.push label ∧ g'.blockOf label = label ∧
      g'.position? label = some size ∧ (∀ i : Nat, g.chain[i]? ≠ some label) ∧
      (∀ (i : Nat) l, g.chain[i]? = some l → g'.position? l = g.position? l) ∧
      ∀ (i : Nat) l p, g.chain[i]? = some l → g.position? l = some p → p < size := by
  obtain ⟨hgrouped, chain, hblock, hlabel, hplace, last⟩ := ht.grouped.starts h
  have hkeep : ∀ (i : Nat) l, g.chain[i]? = some l → g'.position? l = g.position? l := by
    intro i l hl
    rw [position?_eq, position?_eq, (hplace i l hl).2]
  -- Blocks before the last one start before it, and it starts before the end of the code.
  have hbefore : ∀ (i : Nat) l p, g.chain[i]? = some l → g.position? l = some p → p < size := by
    intro i l p hl hp
    have hi := (Array.getElem?_eq_some_iff.1 hl).1
    have hback : g.chain[g.chain.size - 1]? = some (g.chain[g.chain.size - 1]) :=
      Array.getElem?_eq_getElem (by omega)
    obtain ⟨q, hq, hpos⟩ := ht.position hback
    have hne : q ≠ size := by
      rintro rfl
      exact last _ (by rw [Array.back?_eq_getElem?, hback]) hpos
    by_cases hil : i = g.chain.size - 1
    · subst hil
      rw [hl] at hback
      cases hback
      rw [hp] at hpos
      cases hpos
      omega
    · have := ht.ascending i _ l _ p q (by omega) hl hback hp hpos
      omega
  refine ⟨hgrouped.tiled (fun i l p hl hp => ?_) fun i j l m p q hij hl hm hp hq => ?_, chain,
    hblock, hlabel, fun i hi => (hplace i label hi).1 rfl, hkeep, hbefore⟩
  · rcases (chain_push chain i l).1 hl with hl | ⟨rfl, rfl⟩
    · rw [hkeep i l hl] at hp
      exact ht.position_le hl hp
    · rw [hlabel] at hp
      cases hp
      exact Nat.le_refl _
  · rcases (chain_push chain i l).1 hl with hl | ⟨rfl, rfl⟩
    · rw [hkeep i l hl] at hp
      rcases (chain_push chain j m).1 hm with hm | ⟨rfl, rfl⟩
      · rw [hkeep j m hm] at hq
        exact ht.ascending i j l m p q hij hl hm hp hq
      · rw [hlabel] at hq
        cases hq
        exact hbefore i l p hl hp
    · rcases (chain_push chain j m).1 hm with hm | ⟨rfl, -⟩
      · have := (Array.getElem?_eq_some_iff.1 hm).1
        omega
      · omega

end Tiled

end LabelGraph

end JvmClass
