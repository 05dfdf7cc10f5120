import JvmClass.Image.Body
import JvmClass.Proofs.Annotation
import JvmClass.Proofs.Flow.Coverage

/-!
# The stored exception table

The table holds an entry for each handler whose range holds code, in order, and reads back as these
entries (`Handlers.put_ok`). Removing code from the ranges of handlers changes nothing for the places
outside: the handlers that cover such a place are the same, in the same order, and none covers a
place inside (`Handlers.removed_removeRange`).
-/

namespace JvmClass

open ConstantPool (Extended Grows)
open Scan (Reads)

theorem ClassImage.cls?_back (name : String) :
    ClassImage.Denotes (ConstantPool.cls name) ClassImage.cls? (some name) := by
  intro p i p' h image hi
  have hname := cls_back name h hi
  obtain ⟨j, mid, -, h2⟩ := Step.bind_ok.1 h
  unfold cls?
  rw [if_neg (ne_zero_intern h2 hi), hname]
  rfl

/-- An entry of the table that holds the places of a handler, and its class in every image of the
pool. -/
structure ExceptionHandler.StoredAs (g : LabelGraph) (pool : ConstantPool) (h : ExceptionHandler)
    (entry : TableEntry) : Prop where
  start : g.offset h.start = .ok entry.start.toNat
  stop : g.offset h.stop = .ok entry.stop.toNat
  handler : g.offset h.handler = .ok entry.handler.toNat
  catchType : ∀ image : ClassImage, image.Holds pool → image.cls? entry.catchType = .ok h.catchType

theorem ExceptionHandler.StoredAs.grows {g : LabelGraph} {pool pool' : ConstantPool}
    {h : ExceptionHandler} {entry : TableEntry} (hs : h.StoredAs g pool entry)
    (hp : pool.Grows pool') : h.StoredAs g pool' entry :=
  ⟨hs.start, hs.stop, hs.handler, fun image hi => hs.catchType image (hi.of_grows hp)⟩

namespace Handlers

variable {g : LabelGraph} {handlers : Handlers} {u : Unit} {s s' : PoolOutput}

theorem putPlace_ok {label : Label} (h : putPlace g label s = .ok u s') :
    ∃ place : UInt16, g.offset label = .ok place.toNat ∧
      s' = { s with out := s.out.putAll (bytes16 place) } := by
  simp only [putPlace, Step.bind_ok, Step.of_ok, Step.modify_ok] at h
  obtain ⟨place, _, ⟨hplace, rfl⟩, rfl⟩ := h
  refine ⟨place, ?_, rfl⟩
  unfold LabelGraph.codeOffset at hplace
  cases ho : g.offset label with
  | error e =>
    rw [ho] at hplace
    cases hplace
  | ok offset =>
    rw [ho] at hplace
    simp only [bind, Except.bind] at hplace
    split at hplace
    · cases hplace
      rw [UInt16.toNat_ofNat_of_lt' ‹_›]
    · cases hplace

/-- An entry is stored as the places and the class of its handler. -/
theorem putEntry_ok {h : ExceptionHandler} (hput : putEntry g h s = .ok u s') :
    s.pool.Grows s'.pool ∧ ∃ bytes entry, s'.out = s.out.putAll bytes ∧
      h.StoredAs g s'.pool entry ∧ Reads ClassImage.readTableEntry bytes entry := by
  simp only [putEntry, Step.bind_ok] at hput
  obtain ⟨_, _, h1, _, _, h2, _, mid, h3, hclass⟩ := hput
  obtain ⟨start, hstart, rfl⟩ := putPlace_ok h1
  obtain ⟨stop, hstop, rfl⟩ := putPlace_ok h2
  obtain ⟨handler, hhandler, rfl⟩ := putPlace_ok h3
  have hstored : ∃ i, s.pool.Grows s'.pool ∧ s'.out = s.out.putAll
      (bytes16 start ++ (bytes16 stop ++ (bytes16 handler ++ bytes16 i))) ∧
      ∀ image : ClassImage, image.Holds s'.pool → image.cls? i = .ok h.catchType := by
    cases hc : h.catchType with
    | none =>
      rw [hc] at hclass
      obtain rfl := Step.modify_ok.1 hclass
      exact ⟨0, .refl _, by simp [Bytes.putAll_append, Bytes.putU16], fun image _ => rfl⟩
    | some name =>
      rw [hc] at hclass
      obtain ⟨i, _, h4, h5⟩ := Step.bind_ok.1 hclass
      obtain ⟨pool, hask, rfl⟩ := Step.on_ok.1 h4
      obtain rfl := Step.modify_ok.1 h5
      exact ⟨i, (ConstantPool.stable_cls name _ _ _ hask).1.grows,
        by simp [Bytes.putAll_append, Bytes.putU16],
        fun image hi => ClassImage.cls?_back name hask hi⟩
  obtain ⟨i, hgrows, hout, hcatch⟩ := hstored
  refine ⟨hgrows, _, ⟨start, stop, handler, i⟩, hout, ⟨hstart, hstop, hhandler, hcatch⟩, ?_⟩
  exact (Scan.reads_u16 start).bind ((Scan.reads_u16 stop).bind
    ((Scan.reads_u16 handler).bind (Scan.reads_u16 i).map))

/-- Whether the range of a handler holds code. -/
def holdsCode (g : LabelGraph) (h : ExceptionHandler) : Bool :=
  match h.isEmpty g with
  | .ok empty => !empty
  | .error _ => false

/-- What is appended for handlers: an entry for each that holds code, in order. -/
theorem putEntries_ok {count : Nat} {n : UInt16} (hcount : count < 65536)
    (h : putEntries g count handlers s = .ok n s') :
    s.pool.Grows s'.pool ∧ ∃ chunks entries, count + entries.length < 65536 ∧
      n = UInt16.ofNat (count + entries.length) ∧ s'.out = s.out.putAll chunks.flatten ∧
      List.Forall₂ (ExceptionHandler.StoredAs g s'.pool) (handlers.filter (holdsCode g)) entries ∧
      List.Forall₂ (Reads ClassImage.readTableEntry) chunks entries := by
  induction handlers generalizing count s with
  | nil =>
    obtain ⟨rfl, rfl⟩ := Step.pure_ok.1 h
    exact ⟨.refl _, [], [], hcount, rfl, rfl, .nil, .nil⟩
  | cons handler rest ih =>
    simp only [putEntries, Step.bind_ok, Step.of_ok] at h
    obtain ⟨empty, _, ⟨hempty, rfl⟩, h⟩ := h
    cases empty with
    | true =>
      rw [List.filter_cons_of_neg (by simp [holdsCode, hempty])]
      exact ih hcount h
    | false =>
      rw [List.filter_cons_of_pos (by simp [holdsCode, hempty])]
      simp only [Bool.false_eq_true, if_false, Step.bind_ok] at h
      obtain ⟨_, mid, hentry, h⟩ := h
      obtain ⟨hfirst, bytes, entry, hout, hstored, hread⟩ := putEntry_ok hentry
      split at h
      · rename_i hlt
        obtain ⟨hgrows, chunks, entries, hbound, hn, hout', hall, hreads⟩ := ih hlt h
        refine ⟨hfirst.trans hgrows, bytes :: chunks, entry :: entries, ?_, ?_, ?_,
          .cons (hstored.grows hgrows) hall, .cons hread hreads⟩
        · rw [List.length_cons]
          omega
        · rw [hn, List.length_cons, Nat.add_assoc, Nat.add_comm 1]
        · rw [hout', hout, List.flatten_cons, Bytes.putAll_append]
      · exact absurd h (by simp [Step.throw_ok])

/-- The table reads back as an entry for each handler whose range holds code. -/
theorem put_ok {pool : ConstantPool} (h : put g handlers ⟨pool, #[]⟩ = .ok u s) :
    pool.Grows s.pool ∧ ∃ entries,
      List.Forall₂ (ExceptionHandler.StoredAs g s.pool) (handlers.filter (holdsCode g)) entries ∧
      Reads (Scan.counted ClassImage.readTableEntry) s.out.toList entries := by
  simp only [put, Step.bind_ok, Step.get_ok, Step.modify_ok] at h
  obtain ⟨_, _, ⟨rfl, rfl⟩, _, _, rfl, n, mid, hput, rfl⟩ := h
  obtain ⟨hgrows, chunks, entries, hbound, rfl, hout, hall, hreads⟩ :=
    putEntries_ok (by decide) hput
  rw [Nat.zero_add] at hbound ⊢
  have hout' : mid.out.toList = [] ++ bytes16 0 ++ chunks.flatten := by
    rw [hout, Bytes.toList_putAll]
    rfl
  have hlength : (bytes16 0).length = (bytes16 (UInt16.ofNat entries.length)).length := by simp
  have hover := Bytes.toList_overwrite hout' hlength
  exact ⟨hgrows, entries, hall, (Scan.reads_counted hreads hbound).cast hover.symm⟩

/-- Whether the range of a handler holds a place. -/
def covers (g : LabelGraph) (place : Nat) (h : ExceptionHandler) : Bool :=
  match g.offset h.start, g.offset h.stop with
  | .ok start, .ok stop => start ≤ place && place < stop
  | _, _ => false

/-- The handlers of a place and the classes that they catch, in the order in which they are tried. -/
def covering (g : LabelGraph) (place : Nat) (handlers : Handlers) : List (Label × Option String) :=
  (handlers.filter (covers g place)).map fun h => (h.handler, h.catchType)

theorem covering_append (g : LabelGraph) (place : Nat) (front rest : Handlers) :
    covering g place (front ++ rest) = covering g place front ++ covering g place rest := by
  rw [covering, List.filter_append, List.map_append]
  rfl

theorem covers_eq {h : ExceptionHandler} {start stop : Nat} (hstart : g.offset h.start = .ok start)
    (hstop : g.offset h.stop = .ok stop) (place : Nat) :
    covers g place h = (start ≤ place && place < stop) := by
  rw [covers, hstart, hstop]

theorem holdsCode_of_covers {h : ExceptionHandler} {place : Nat} (hc : covers g place h = true) :
    holdsCode g h = true := by
  unfold covers at hc
  split at hc
  · rename_i start stop hstart hstop
    simp only [Bool.and_eq_true, decide_eq_true_eq] at hc
    have hlt : ¬ stop ≤ start := by omega
    simp [holdsCode, ExceptionHandler.isEmpty, hstart, hstop, bind, Except.bind, pure, Except.pure,
      hlt]
  · cases hc

/-- Both ends of the ranges have their places. -/
def Ranged (g : LabelGraph) (handlers : Handlers) : Prop :=
  ∀ h ∈ handlers, (∃ start, g.offset h.start = .ok start) ∧ ∃ stop, g.offset h.stop = .ok stop

theorem Ranged.mono {g' : LabelGraph} (hr : Ranged g handlers)
    (hg : ∀ label place, g.offset label = .ok place → g'.offset label = .ok place) :
    Ranged g' handlers := fun h hh =>
  ⟨(hr h hh).1.imp fun _ => hg _ _, (hr h hh).2.imp fun _ => hg _ _⟩

/-- Places that labels get later do not matter. -/
theorem covering_congr {g' : LabelGraph} (hr : Ranged g handlers)
    (hg : ∀ label place, g.offset label = .ok place → g'.offset label = .ok place) (place : Nat) :
    covering g' place handlers = covering g place handlers := by
  unfold covering
  congr 1
  refine List.filter_congr fun h hh => ?_
  obtain ⟨⟨start, hstart⟩, stop, hstop⟩ := hr h hh
  rw [covers_eq hstart hstop, covers_eq (hg _ _ hstart) (hg _ _ hstop)]

theorem covering_single {h : ExceptionHandler} {start stop : Nat}
    (hstart : g.offset h.start = .ok start) (hstop : g.offset h.stop = .ok stop) (place : Nat) :
    covering g place [h] =
      if start ≤ place ∧ place < stop then [(h.handler, h.catchType)] else [] := by
  unfold covering
  rw [List.filter_singleton, covers_eq hstart hstop, Bool.cond_eq_ite]
  simp only [Bool.and_eq_true, decide_eq_true_eq]
  split
  · rfl
  · rfl

/-- What is left of handlers when code is removed: none covers the code, and every other place is
covered as it was. -/
structure Removed (g : LabelGraph) (first last : Nat) (handlers left : Handlers) : Prop where
  ranged : Ranged g left
  handler : ∀ h ∈ left, ∃ h' ∈ handlers, h.handler = h'.handler
  covering : ∀ place, covering g place left =
    if first ≤ place ∧ place < last then [] else covering g place handlers

theorem removed_nil (g : LabelGraph) (first last : Nat) : Removed g first last [] [] where
  ranged h hh := nomatch hh
  handler h hh := nomatch hh
  covering place := by split <;> rfl

theorem Removed.append {first last : Nat} {front rest left left' : Handlers}
    (h : Removed g first last front left) (h' : Removed g first last rest left') :
    Removed g first last (front ++ rest) (left ++ left') where
  ranged k hk := (List.mem_append.1 hk).elim (h.ranged k) (h'.ranged k)
  handler k hk := by
    rcases List.mem_append.1 hk with hk | hk
    · obtain ⟨k', hk', he⟩ := h.handler k hk
      exact ⟨k', List.mem_append_left _ hk', he⟩
    · obtain ⟨k', hk', he⟩ := h'.handler k hk
      exact ⟨k', List.mem_append_right _ hk', he⟩
  covering place := by
    rw [covering_append, covering_append, h.covering, h'.covering]
    split <;> rfl

/-- What is left of a handler covers what it covered, outside of what is removed. -/
theorem removed_without {cut resume : Label} {first last : Nat} {h : ExceptionHandler}
    {left : List ExceptionHandler} (hcut : g.offset cut = .ok first)
    (hresume : g.offset resume = .ok last) (hle : first ≤ last)
    (hw : h.without g cut resume = .ok left) : Removed g first last [h] left := by
  cases hstart : g.offset h.start with
  | error e =>
    rw [ExceptionHandler.without, hcut, hresume, hstart] at hw
    cases hw
  | ok start =>
    cases hstop : g.offset h.stop with
    | error e =>
      rw [ExceptionHandler.without, hcut, hresume, hstart, hstop] at hw
      cases hw
    | ok stop =>
      rw [ExceptionHandler.without, hcut, hresume, hstart, hstop] at hw
      simp only [bind, Except.bind, Bool.or_eq_true, decide_eq_true_eq] at hw
      have hbefore := covering_single (h := { h with stop := cut }) hstart hcut
      have hafter := covering_single (h := { h with start := resume }) hresume hstop
      have hall := covering_single hstart hstop
      have hparts : ∀ k ∈ left, k.handler = h.handler ∧
          (∃ start, g.offset k.start = .ok start) ∧ ∃ stop, g.offset k.stop = .ok stop := by
        intro k hk
        split at hw
        · cases hw
          rw [List.mem_singleton.1 hk]
          exact ⟨rfl, ⟨start, hstart⟩, stop, hstop⟩
        · cases hw
          rcases List.mem_append.1 hk with hk | hk
          · split at hk
            · cases hk
            · rw [List.mem_singleton.1 hk]
              exact ⟨rfl, ⟨start, hstart⟩, first, hcut⟩
          · split at hk
            · cases hk
            · rw [List.mem_singleton.1 hk]
              exact ⟨rfl, ⟨last, hresume⟩, stop, hstop⟩
      refine ⟨fun k hk => (hparts k hk).2, fun k hk => ⟨h, List.mem_singleton_self h,
        (hparts k hk).1⟩, fun place => ?_⟩
      rw [hall]
      split at hw
      · cases hw
        rw [hall]
        split <;> split <;> first | rfl | omega
      · cases hw
        have hnil : covering g place [] = [] := rfl
        simp only [covering_append, apply_ite (covering g place), hbefore, hafter, hnil]
        split_ifs <;> first | rfl | omega

theorem removed_withoutAll {cut resume : Label} {first last : Nat} {left : Handlers}
    (hcut : g.offset cut = .ok first) (hresume : g.offset resume = .ok last) (hle : first ≤ last)
    (hw : without g cut resume handlers = .ok left) : Removed g first last handlers left := by
  induction handlers generalizing left with
  | nil =>
    cases hw
    exact removed_nil g first last
  | cons h rest ih =>
    unfold without at hw ih
    rw [List.mapM_cons] at hw
    cases hfirst : h.without g cut resume with
    | error e =>
      rw [hfirst] at hw
      cases hw
    | ok parts =>
      cases hrest : rest.mapM (ExceptionHandler.without g cut resume) with
      | error e =>
        rw [hfirst, hrest] at hw
        cases hw
      | ok others =>
        rw [hfirst, hrest] at hw
        cases hw
        rw [hrest] at ih
        exact (removed_without hcut hresume hle hfirst).append (ih rfl)

/-- Code that is removed from all ranges is covered by none, and every other place is covered as it
was. -/
theorem removed_removeRange {cut resume : Label} {first last : Nat} {left : Handlers} {u : Unit}
    (hcut : g.offset cut = .ok first) (hresume : g.offset resume = .ok last) (hle : first ≤ last)
    (h : removeRange g cut resume handlers = .ok u left) : Removed g first last handlers left := by
  unfold removeRange at h
  rw [hcut, hresume] at h
  simp only at h
  split at h
  · rename_i hw
    cases h
    exact removed_withoutAll hcut hresume hle hw
  · cases h

end Handlers

/-- Whether the range of an entry holds a place. -/
def TableEntry.covers (place : Nat) (entry : TableEntry) : Bool :=
  entry.start.toNat ≤ place && place < entry.stop.toNat

/-- The entries of the stored table that cover a place are those of the handlers that do. -/
theorem Handlers.covering_stored {g : LabelGraph} {pool : ConstantPool} {handlers : Handlers}
    {entries : List TableEntry}
    (h : List.Forall₂ (ExceptionHandler.StoredAs g pool) (handlers.filter (holdsCode g)) entries)
    (place : Nat) :
    List.Forall₂ (fun caught entry => g.offset caught.1 = .ok entry.handler.toNat ∧
        ∀ image : ClassImage, image.Holds pool → image.cls? entry.catchType = .ok caught.2)
      (covering g place handlers) (entries.filter (·.covers place)) := by
  have hall : handlers.filter (covers g place) =
      (handlers.filter (holdsCode g)).filter (covers g place) := by
    rw [List.filter_filter]
    refine List.filter_congr fun k _ => ?_
    by_cases hc : covers g place k = true
    · rw [hc, holdsCode_of_covers hc]
      rfl
    · simp [hc]
  rw [covering, hall]
  generalize handlers.filter (holdsCode g) = kept at h
  induction h with
  | nil => exact .nil
  | @cons k entry kept entries hk _ ih =>
    rw [List.filter_cons, List.filter_cons, covers_eq hk.start hk.stop, TableEntry.covers]
    split
    · exact .cons ⟨hk.handler, hk.catchType⟩ ih
    · exact ih

end JvmClass
