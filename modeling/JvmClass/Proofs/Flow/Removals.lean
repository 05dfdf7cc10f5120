import JvmClass.Proofs.Flow.Calls
import JvmClass.Proofs.Flow.DeadBlocks
import JvmClass.Proofs.Flow.HandlerTable

/-!
# Removing code from protected ranges, again and again

Pieces of code that are removed one after another take from every place in one of them all of its
handlers, and change nothing for the other places, whichever ranges there are and however they
overlap (`Handlers.covering_removeRanges`).
-/

namespace JvmClass

namespace Handlers

open LabelGraph (ofCalls)

variable {g : LabelGraph} {handlers left : Handlers}

/-- Removes the code between each two labels, one after another. -/
def removeRanges (g : LabelGraph) : List (Label × Label) → Step Handlers Unit
  | [] => pure ()
  | cut :: rest => do
    removeRange g cut.1 cut.2
    removeRanges g rest

/-- The code between two labels, of which the second is not before the first. -/
def Forward (g : LabelGraph) (cut : Label × Label) : Prop :=
  ∃ first last, g.offset cut.1 = .ok first ∧ g.offset cut.2 = .ok last ∧ first ≤ last

/-- Whether a place lies between two labels. -/
def between (g : LabelGraph) (place : Nat) (cut : Label × Label) : Bool :=
  match g.offset cut.1, g.offset cut.2 with
  | .ok first, .ok last => first ≤ place && place < last
  | _, _ => false

/-- A handler whose range has its ends in the code can be cut. -/
theorem without_succeeds {cut resume : Label} {first last start stop : Nat} {h : ExceptionHandler}
    (hcut : g.offset cut = .ok first) (hresume : g.offset resume = .ok last)
    (hstart : g.offset h.start = .ok start) (hstop : g.offset h.stop = .ok stop) :
    ∃ parts, h.without g cut resume = .ok parts := by
  rw [ExceptionHandler.without, hcut, hresume, hstart, hstop]
  simp only [bind, Except.bind]
  split
  · exact ⟨_, rfl⟩
  · exact ⟨_, rfl⟩

theorem withoutAll_succeeds {cut resume : Label} {first last : Nat}
    (hcut : g.offset cut = .ok first) (hresume : g.offset resume = .ok last)
    (hranged : Ranged g handlers) : ∃ left, without g cut resume handlers = .ok left := by
  induction handlers with
  | nil => exact ⟨[], rfl⟩
  | cons h rest ih =>
    obtain ⟨⟨start, hstart⟩, stop, hstop⟩ := hranged h List.mem_cons_self
    obtain ⟨parts, hparts⟩ := without_succeeds hcut hresume hstart hstop
    obtain ⟨left, hleft⟩ := ih fun k hk => hranged k (List.mem_cons_of_mem _ hk)
    unfold without at hleft ⊢
    obtain ⟨others, hothers, -⟩ := Step.except_bind_ok.1 hleft
    refine ⟨(parts :: others).flatten, ?_⟩
    rw [List.mapM_cons, hparts, hothers]
    rfl

theorem removeRange_succeeds {cut : Label × Label} (hcut : Forward g cut)
    (hranged : Ranged g handlers) : ∃ left, removeRange g cut.1 cut.2 handlers = .ok () left := by
  obtain ⟨first, last, hfirst, hlast, -⟩ := hcut
  obtain ⟨left, hleft⟩ := withoutAll_succeeds hfirst hlast hranged
  refine ⟨left, ?_⟩
  unfold removeRange
  rw [hfirst, hlast]
  simp only [hleft]

/-- The step: a place in the code that is removed has no handlers left, and another one has those
that it had. -/
theorem covering_removeRange {cut : Label × Label} (hcut : Forward g cut)
    (h : removeRange g cut.1 cut.2 handlers = .ok () left) (place : Nat) :
    covering g place left = if between g place cut then [] else covering g place handlers := by
  obtain ⟨first, last, hfirst, hlast, hle⟩ := hcut
  rw [(removed_removeRange hfirst hlast hle h).covering, between, hfirst, hlast]
  simp only [Bool.and_eq_true, decide_eq_true_eq]

/-- Code that is removed piece by piece is covered by no handler, and every other place is covered
by the handlers that covered it, in the same order. The removals succeed if the ranges have their
ends in the code. -/
theorem covering_removeRanges (g : LabelGraph) (handlers : Handlers) (cuts : List (Label × Label))
    (hcuts : ∀ cut ∈ cuts, Forward g cut) :
    (Ranged g handlers → ∃ left, removeRanges g cuts handlers = .ok () left) ∧
      ∀ left, removeRanges g cuts handlers = .ok () left → ∀ place,
        covering g place left =
          if cuts.any (between g place) then [] else covering g place handlers := by
  induction cuts generalizing handlers with
  | nil =>
    refine ⟨fun _ => ⟨handlers, rfl⟩, fun left h place => ?_⟩
    obtain ⟨-, rfl⟩ := Step.pure_ok.1 h
    rfl
  | cons cut rest ih =>
    have hcut := hcuts cut List.mem_cons_self
    have hrest := fun k hk => hcuts k (List.mem_cons_of_mem _ hk)
    refine ⟨fun hranged => ?_, fun left h place => ?_⟩
    · obtain ⟨mid, hmid⟩ := removeRange_succeeds hcut hranged
      obtain ⟨first, last, hfirst, hlast, hle⟩ := hcut
      obtain ⟨left, hleft⟩ := (ih mid hrest).1 (removed_removeRange hfirst hlast hle hmid).ranged
      exact ⟨left, Step.bind_ok.2 ⟨_, mid, hmid, hleft⟩⟩
    · obtain ⟨_, mid, hmid, hleft⟩ := Step.bind_ok.1 h
      rw [(ih mid hrest).2 left hleft, covering_removeRange hcut hmid, List.any_cons]
      cases between g place cut with
      | true => simp
      | false => simp only [Bool.false_or, Bool.false_eq_true, if_false]

/-- Five labels, each of them four bytes after the one before it. -/
def fiveLabels : LabelGraph :=
  ofCalls [.addLabel, .addLabel, .addLabel, .addLabel, .addLabel, .place ⟨0⟩ 0, .place ⟨1⟩ 4,
    .place ⟨2⟩ 8, .place ⟨3⟩ 12, .place ⟨4⟩ 16, .resolve]

/-- Two cuts through a range, a second range whose start the first cut takes, and one that ends
before it starts: the places between the cuts keep their handlers. -/
theorem covering_removeRanges_overlapping :
    ∃ left, removeRanges fiveLabels [(⟨1⟩, ⟨2⟩), (⟨3⟩, ⟨4⟩)]
        [⟨⟨0⟩, ⟨4⟩, ⟨0⟩, none⟩, ⟨⟨1⟩, ⟨3⟩, ⟨4⟩, some "a/B"⟩, ⟨⟨3⟩, ⟨1⟩, ⟨2⟩, none⟩] = .ok () left ∧
      [0, 6, 9, 13].map (fun place => covering fiveLabels place left) =
        [[(⟨0⟩, none)], [], [(⟨0⟩, none), (⟨4⟩, some "a/B")], []] := by
  have hr : fiveLabels.Resolved := LabelGraph.resolved_resolve _
  have hoffset : ∀ i, i < 5 → fiveLabels.offset ⟨i⟩ = .ok (4 * i) :=
    fun i hi => (hr _ _).2 (by decide +kernel +revert)
  obtain ⟨hsucceeds, hcovering⟩ := covering_removeRanges fiveLabels
    [⟨⟨0⟩, ⟨4⟩, ⟨0⟩, none⟩, ⟨⟨1⟩, ⟨3⟩, ⟨4⟩, some "a/B"⟩, ⟨⟨3⟩, ⟨1⟩, ⟨2⟩, none⟩]
    [(⟨1⟩, ⟨2⟩), (⟨3⟩, ⟨4⟩)]
    (by
      intro cut hcut
      simp only [List.mem_cons, List.not_mem_nil, or_false] at hcut
      rcases hcut with rfl | rfl
      · exact ⟨4, 8, hoffset 1 (by decide), hoffset 2 (by decide), by decide⟩
      · exact ⟨12, 16, hoffset 3 (by decide), hoffset 4 (by decide), by decide⟩)
  obtain ⟨left, hleft⟩ := hsucceeds (by
    intro h hh
    simp only [List.mem_cons, List.not_mem_nil, or_false] at hh
    rcases hh with rfl | rfl | rfl
    · exact ⟨⟨0, hoffset 0 (by decide)⟩, 16, hoffset 4 (by decide)⟩
    · exact ⟨⟨4, hoffset 1 (by decide)⟩, 12, hoffset 3 (by decide)⟩
    · exact ⟨⟨12, hoffset 3 (by decide)⟩, 4, hoffset 1 (by decide)⟩)
  refine ⟨left, hleft, ?_⟩
  simp only [hcovering left hleft]
  decide +kernel

end Handlers

end JvmClass
