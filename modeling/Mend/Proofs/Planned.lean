import Mathlib.Data.List.Basic
import Mend.Edit.Plan

/-!
# The shape of a planned delta

What a change set promises about its changes carries over to the delta that is planned from it: the
edits ascend, lie in the text, and an edit that takes characters away starts where all edits before
it have stopped.  A delta of this kind *fits* its text.  Edits that only insert may start anywhere
between, even among characters that an earlier edit takes away.

## Main definitions

* `Delta.Fits` — a delta that can be made on a text, edit by edit.
* `DeltaEdit.unlink` — an edit without the note of where its characters were moved.

## Main results

* `Change.Coherent.pairwise_ofChanges` — exchanges of coherent changes take no character twice.
* `ChangeSet.fits_of_plan_eq_ok` — a planned delta fits the text it was planned for.
-/

namespace Mend

/-! ### Spans of changes -/

namespace Change

/-- The changes of a coherent list have no span that is inside out. -/
theorem Coherent.start_le_stop {cs : List Change} (h : Coherent cs) {c : Change} (hc : c ∈ cs)
    {u : Span} (hu : u ∈ c.extents) : u.start ≤ u.stop := by
  have hfind : c.extents.find? (fun s => s.stop < s.start) = none := by
    simpa [misshapen?] using (h.sound c hc).1
  simpa using List.find?_eq_none.1 hfind u hu

/-- Changes that do not contradict each other take no character twice. -/
theorem not_overlaps_of_conflict?_eq_none {c d : Change} (h : c.conflict? d = none) {u v : Span}
    (hu : u ∈ c.destroyed) (hv : v ∈ d.destroyed) : ¬u.Overlaps v := by
  simp only [conflict?, Option.orElse_eq_orElse, Option.orElse_eq_or, Option.or_eq_none_iff,
    List.findSome?_eq_none_iff, Option.map_eq_none_iff, List.find?_eq_none,
    decide_eq_true_eq] at h
  exact h.1 v hv u hu

/-- An exchange lies where its change speaks of. -/
theorem span_mem_extents {t : Text} {i : Nat} {c : Change} {x : Exchange}
    (hx : x ∈ c.exchanges t i) : x.span ∈ c.extents := by
  cases c <;> simp only [exchanges, List.mem_cons, List.not_mem_nil, or_false] at hx
  case move => rcases hx with rfl | rfl <;> simp [extents]
  case flip => rcases hx with rfl | rfl <;> simp [extents]
  all_goals subst hx; simp [extents]

/-- The characters that an exchange takes away are among those that its change destroys. -/
theorem span_mem_destroyed {t : Text} {i : Nat} {c : Change} {x : Exchange}
    (hx : x ∈ c.exchanges t i) (hne : ¬x.span.IsEmpty) : x.span ∈ c.destroyed := by
  cases c <;> simp only [exchanges, List.mem_cons, List.not_mem_nil, or_false] at hx
  case insert => subst hx; simp at hne
  case copy => subst hx; simp at hne
  case move =>
    rcases hx with rfl | rfl
    · simp [destroyed, hne]
    · simp at hne
  case flip => rcases hx with rfl | rfl <;> simp [destroyed, hne]
  all_goals subst hx; simp [destroyed, hne]

/-- A change that does not contradict itself takes no character twice. -/
theorem pairwise_exchanges {c : Change} (h : c.selfConflict? = none) (t : Text) (i : Nat) :
    (c.exchanges t i).Pairwise fun x y =>
      ¬x.span.IsEmpty → ¬y.span.IsEmpty → ¬x.span.Overlaps y.span := by
  cases c <;> simp_all [exchanges, selfConflict?]

end Change

/-! ### Exchanges of a set -/

namespace Exchange

/-- Every exchange belongs to a change. -/
theorem exists_of_mem_ofChanges {t : Text} {i : Nat} {cs : List Change} {x : Exchange}
    (hx : x ∈ ofChanges t i cs) : ∃ c ∈ cs, ∃ j, x ∈ c.exchanges t j := by
  induction cs generalizing i with
  | nil => simp [ofChanges] at hx
  | cons c cs ih =>
    rw [ofChanges] at hx
    rcases List.mem_append.1 hx with hx | hx
    · exact ⟨c, List.mem_cons_self, i, hx⟩
    · obtain ⟨d, hd, j, hj⟩ := ih hx
      exact ⟨d, List.mem_cons_of_mem _ hd, j, hj⟩

/-- Sorting puts exchanges in ascending order. -/
theorem pairwise_sort (xs : List Exchange) :
    (sort xs).Pairwise fun x y => x.span.start ≤ y.span.start := by
  refine (pairwise_stableSort ?_ ?_ xs).imp of_decide_eq_true
  · intro x y h
    simp only [decide_eq_false_iff_not, decide_eq_true_eq] at h ⊢
    omega
  · intro x y z hxy hyz
    simp only [decide_eq_true_eq] at hxy hyz ⊢
    omega

end Exchange

/-- Exchanges of coherent changes take no character twice. -/
theorem Change.Coherent.pairwise_ofChanges {cs : List Change} (h : Coherent cs) (t : Text)
    (i : Nat) : (Exchange.ofChanges t i cs).Pairwise fun x y =>
      ¬x.span.IsEmpty → ¬y.span.IsEmpty → ¬x.span.Overlaps y.span := by
  obtain ⟨hsound, hcompatible⟩ := h
  induction cs generalizing i with
  | nil => exact .nil
  | cons c cs ih =>
    obtain ⟨hc, hcs⟩ := List.pairwise_cons.1 hcompatible
    refine List.pairwise_append.2 ⟨pairwise_exchanges (hsound c List.mem_cons_self).2 t i,
      ih (i + 1) (fun d hd => hsound d (List.mem_cons_of_mem _ hd)) hcs, ?_⟩
    -- exchanges of two changes: what they take is what the changes destroy
    intro x hx y hy hxne hyne
    obtain ⟨d, hd, j, hj⟩ := Exchange.exists_of_mem_ofChanges hy
    exact not_overlaps_of_conflict?_eq_none (hc d hd) (span_mem_destroyed hx hxne)
      (span_mem_destroyed hj hyne)

/-! ### Planned edits -/

namespace DeltaEdit

/-- An edit without the note of where its characters were moved.  What an edit does to a text does
not depend on the note. -/
def unlink (e : DeltaEdit) : DeltaEdit := { e with movedTo := none }

@[simp] theorem start_unlink (e : DeltaEdit) : e.unlink.start = e.start := rfl

@[simp] theorem deleted_unlink (e : DeltaEdit) : e.unlink.deleted = e.deleted := rfl

@[simp] theorem inserted_unlink (e : DeltaEdit) : e.unlink.inserted = e.inserted := rfl

@[simp] theorem reach_unlink (e : DeltaEdit) : e.unlink.reach = e.reach := rfl

@[simp] theorem unlink_linkMove (e : DeltaEdit) (placed : List (Exchange × Span)) (x : Exchange) :
    (e.linkMove placed x).unlink = e.unlink := by
  rw [linkMove]
  split <;> rfl

end DeltaEdit

namespace Delta

/-- Up to the notes of moves, the edits planned from exchanges are the exchanges. -/
theorem map_unlink_ofExchanges (t : Text) (xs : List Exchange) :
    (ofExchanges t xs).edits.map DeltaEdit.unlink = xs.map (Exchange.toEdit t) := by
  have hzip : ∀ ys : List Exchange, ((ys.zip (ys.map (Exchange.toEdit t))).map
      fun p => p.2.unlink) = ys.map (Exchange.toEdit t) := by
    intro ys
    induction ys with
    | nil => rfl
    | cons y ys ih => rw [List.map_cons, List.zip_cons_cons, List.map_cons, ih]; rfl
  rw [ofExchanges, List.map_map]
  exact (List.map_congr_left fun p _ => DeltaEdit.unlink_linkMove _ _ _).trans (hzip xs)

/-- A delta that fits a text: its edits ascend and lie in the text, and an edit that takes
characters away starts where all edits before it have stopped. -/
structure Fits (δ : Delta) (t : Text) : Prop where
  /-- The delta is meant for a text of this length. -/
  before_eq : δ.before = t.length
  /-- The edits ascend. -/
  ascending : δ.edits.Pairwise fun e f => e.start ≤ f.start
  /-- Every edit stops in the text. -/
  within : ∀ e ∈ δ.edits, e.reach ≤ t.length
  /-- No character is taken away twice, nor one that an earlier edit has passed. -/
  clear : δ.edits.Pairwise fun e f => f.deleted ≠ [] → e.reach ≤ f.start

end Delta

/-- An exchange that lies in a text takes away just the characters of its span. -/
theorem Exchange.reach_toEdit {t : Text} {x : Exchange} (hx : x.span.start ≤ x.span.stop)
    (ht : x.span.stop ≤ t.length) : (x.toEdit t).reach = x.span.stop := by
  simp only [DeltaEdit.reach, toEdit, Text.length_slice]
  omega

namespace ChangeSet

/-- A set that can be planned speaks only of places in the text. -/
theorem stop_le_length {s : ChangeSet} {t : Text} {δ : Delta} (h : s.plan t = .ok δ)
    {c : Change} (hc : c ∈ s.changes) {u : Span} (hu : u ∈ c.extents) : u.stop ≤ t.length := by
  unfold plan at h
  split at h
  next => cases h
  next hnone =>
    simp only [Option.orElse_eq_orElse, Option.orElse_eq_or, Option.or_eq_none_iff] at hnone
    obtain ⟨-, hbounds⟩ := hnone
    have hall := List.find?_eq_none.1 (Option.map_eq_none_iff.1 hbounds) u
      (List.mem_flatMap.2 ⟨c, hc, hu⟩)
    simpa using hall

theorem eq_ofExchanges_of_plan_eq_ok {s : ChangeSet} {t : Text} {δ : Delta}
    (h : s.plan t = .ok δ) : δ = .ofExchanges t (s.exchanges t) := by
  unfold plan at h
  split at h
  next => cases h
  next => exact (Except.ok.inj h).symm

/-- The exchanges of a set lie where its changes speak of. -/
theorem exists_span_mem_extents {s : ChangeSet} {t : Text} {x : Exchange}
    (hx : x ∈ s.exchanges t) : ∃ c ∈ s.changes, x.span ∈ c.extents := by
  have hmem : x ∈ Exchange.ofChanges t 0 s.changes :=
    (Exchange.sort_perm _).mem_iff.1 (List.mem_filter.1 hx).1
  obtain ⟨c, hc, j, hj⟩ := Exchange.exists_of_mem_ofChanges hmem
  exact ⟨c, hc, Change.span_mem_extents hj⟩

/-- The exchanges of a set ascend. -/
theorem pairwise_start_exchanges (s : ChangeSet) (t : Text) :
    (s.exchanges t).Pairwise fun x y => x.span.start ≤ y.span.start :=
  (Exchange.pairwise_sort _).filter _

/-- The exchanges of a set take no character twice. -/
theorem pairwise_not_overlaps_exchanges (s : ChangeSet) (t : Text) :
    (s.exchanges t).Pairwise fun x y =>
      ¬x.span.IsEmpty → ¬y.span.IsEmpty → ¬x.span.Overlaps y.span := by
  refine List.Pairwise.filter _ ?_
  refine ((Exchange.sort_perm _).pairwise_iff fun h hy hx => ?_).2
    (s.coherent.pairwise_ofChanges t 0)
  rw [Span.overlaps_comm]
  exact h hx hy

/-- **A planned delta fits the text it was planned for.** -/
theorem fits_of_plan_eq_ok {s : ChangeSet} {t : Text} {δ : Delta} (h : s.plan t = .ok δ) :
    δ.Fits t := by
  have hedits : δ.edits.map DeltaEdit.unlink = (s.exchanges t).map (Exchange.toEdit t) := by
    rw [eq_ofExchanges_of_plan_eq_ok h, Delta.map_unlink_ofExchanges]
  have hin : ∀ x ∈ s.exchanges t, x.span.start ≤ x.span.stop ∧ x.span.stop ≤ t.length := by
    intro x hx
    obtain ⟨c, hc, hu⟩ := exists_span_mem_extents hx
    exact ⟨s.coherent.start_le_stop hc hu, stop_le_length h hc hu⟩
  have hpairs : ∀ R : DeltaEdit → DeltaEdit → Prop,
      (δ.edits.Pairwise fun e f => R e.unlink f.unlink) ↔
        (s.exchanges t).Pairwise fun x y => R (x.toEdit t) (y.toEdit t) := by
    intro R
    rw [← List.pairwise_map, hedits, List.pairwise_map]
  -- no field of `Fits` reads the notes of moves, so it is enough to look at the exchanges
  refine ⟨by rw [eq_ofExchanges_of_plan_eq_ok h]; rfl, ?_, ?_, ?_⟩
  · exact (hpairs fun e f => e.start ≤ f.start).2 (pairwise_start_exchanges s t)
  · intro e he
    have hmem := hedits ▸ List.mem_map_of_mem he
    obtain ⟨x, hx, heq⟩ := List.mem_map.1 hmem
    rw [← e.reach_unlink, ← heq, Exchange.reach_toEdit (hin x hx).1 (hin x hx).2]
    exact (hin x hx).2
  · refine (hpairs fun e f => f.deleted ≠ [] → e.reach ≤ f.start).2 ?_
    refine ((pairwise_start_exchanges s t).and
      (pairwise_not_overlaps_exchanges s t)).imp_of_mem fun {x y} hx hy hxy hdeleted => ?_
    obtain ⟨hstart, hdisjoint⟩ := hxy
    obtain ⟨hxshape, hxin⟩ := hin x hx
    rw [Exchange.reach_toEdit hxshape hxin]
    have hy' : ¬y.span.IsEmpty := fun hempty => hdeleted (List.eq_nil_of_length_eq_zero (by
      have : y.span.stop ≤ y.span.start := hempty
      simp only [Exchange.toEdit, Text.length_slice]
      omega))
    -- two spans that both hold something are disjoint, and the earlier one starts first
    by_cases hxempty : x.span.IsEmpty
    · have : x.span.stop ≤ x.span.start := hxempty
      exact Nat.le_trans this hstart
    · have := hdisjoint hxempty hy'
      simp only [Span.Overlaps, Span.IsEmpty, Exchange.toEdit] at this hy' hstart ⊢
      omega

end ChangeSet

end Mend
