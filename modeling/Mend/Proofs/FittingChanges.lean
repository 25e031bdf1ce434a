import Mend.Fix.Patch
import Mend.Proofs.Weave

/-!
# Changes that fit a text

A change leaves marks on a text: the spans that it takes away or exchanges, and the places at which
it puts something.  When the marks of several changes keep apart, no change contradicts another one,
and when all that they speak of lies in the text, they can be planned on it.  A patch fits a
snapshot when that holds of its changes in every file.

## Main definitions

* `Span.Apart` — spans that share no offset; they may touch.
* `Change.marks` — the spans and places at which a change does something.
* `Change.Fit` — changes that keep apart and lie in a text of some length.
* `Patch.Fits`, `Proposal.Succeeds` — a patch that can be planned on the files of a snapshot.
* `Snapshot.IsKeyed` — every file is listed under its path.

## Main results

* `Change.coherent_of_pairwise_apart` — **changes whose marks keep apart can be made together.**
* `ChangeSet.exists_applyTo_eq_weave` — changes that fit a text make of it what they say.
* `Patch.exists_ofChanges_eq_ok` — changes that fit the text of a file make a patch that fits.
-/

namespace Mend

/-- One of two spans stops before the other one starts.  They may touch. -/
def Span.Apart (s u : Span) : Prop := s.stop ≤ u.start ∨ u.stop ≤ s.start

/-! ### Marks of changes -/

namespace Change

/-- The spans and places at which a change does something.  A span that it only reads is none. -/
def marks : Change → List Span
  | .insert o _ | .copy _ o => [.point o]
  | .remove s | .replace s _ => [s]
  | .move s o => [s, .point o]
  | .flip s u => [s, u]

variable {c d : Change} {cs : List Change}

/-- What a change destroys is marked. -/
theorem mem_marks_of_mem_destroyed {u : Span} (hu : u ∈ c.destroyed) : u ∈ c.marks := by
  cases c <;> simp only [destroyed, List.not_mem_nil] at hu
  case flip => exact List.mem_of_mem_filter hu
  all_goals
    split at hu
    next => simp at hu
    next =>
      rw [List.mem_singleton] at hu
      simp [hu, marks]

/-- The places at which a change puts text are marked. -/
theorem point_mem_marks_of_mem_anchors (hc : ∀ u ∈ c.extents, u.start ≤ u.stop) {o : Nat}
    (ho : o ∈ c.anchors) : .point o ∈ c.marks := by
  cases c <;> simp only [anchors, List.not_mem_nil] at ho
  case replace s text =>
    split at ho
    next hempty =>
      -- the span ends where it starts, so it is the place itself
      have hstop : s.stop ≤ s.start := hempty
      have hstart := hc s (by simp [extents])
      obtain rfl := List.mem_singleton.1 ho
      have hpoint : Span.point s.start = s :=
        congrArg (Span.mk s.start) (Nat.le_antisymm hstart hstop)
      simp [marks, hpoint]
    next => simp at ho
  all_goals
    rw [List.mem_singleton] at ho
    simp [ho, marks]

/-- No offset lies inside a span that keeps apart from it. -/
theorem not_strictlyHolds_of_apart {u : Span} {o : Nat} (h : u.Apart (.point o)) :
    ¬u.StrictlyHolds o := by
  rintro ⟨hstart, hstop⟩
  rcases h with h | h
  · exact absurd hstop (Nat.not_lt.2 h)
  · exact absurd hstart (Nat.not_lt.2 h)

theorem not_overlaps_of_apart {s u : Span} (h : s.Apart u) : ¬s.Overlaps u := by
  rintro ⟨hstart, hstop⟩
  rcases h with h | h
  · exact absurd hstop (Nat.not_lt.2 h)
  · exact absurd hstart (Nat.not_lt.2 h)

/-- A change whose marks keep apart does not contradict itself. -/
theorem selfConflict?_eq_none (h : c.marks.Pairwise Span.Apart) : c.selfConflict? = none := by
  cases c with
  | move s o => exact if_neg (not_strictlyHolds_of_apart (by simpa [marks] using h))
  | flip s u => exact if_neg (not_overlaps_of_apart (by simpa [marks] using h))
  | _ => rfl

/-- Changes whose marks keep apart do not contradict each other. -/
theorem conflict?_eq_none (hc : ∀ u ∈ c.extents, u.start ≤ u.stop)
    (hd : ∀ u ∈ d.extents, u.start ≤ u.stop) (h : ∀ s ∈ c.marks, ∀ u ∈ d.marks, s.Apart u) :
    c.conflict? d = none := by
  simp only [conflict?, Option.orElse_eq_orElse, Option.orElse_eq_or, Option.or_eq_none_iff,
    List.findSome?_eq_none_iff, Option.map_eq_none_iff, List.find?_eq_none, decide_eq_true_eq]
  refine ⟨?_, ?_, ?_⟩
  · intro u hu s hs
    exact not_overlaps_of_apart
      (h s (mem_marks_of_mem_destroyed hs) u (mem_marks_of_mem_destroyed hu))
  · intro o ho s hs
    exact not_strictlyHolds_of_apart
      (h s (mem_marks_of_mem_destroyed hs) _ (point_mem_marks_of_mem_anchors hd ho))
  · intro o ho u hu
    exact not_strictlyHolds_of_apart
      (h _ (point_mem_marks_of_mem_anchors hc ho) u (mem_marks_of_mem_destroyed hu)).symm

theorem misshapen?_eq_none (h : ∀ u ∈ c.extents, u.start ≤ u.stop) : c.misshapen? = none := by
  rw [misshapen?, Option.map_eq_none_iff, List.find?_eq_none]
  exact fun u hu => by simpa using h u hu

/-- **Changes whose marks keep apart can be made together.** -/
theorem coherent_of_pairwise_apart (hextents : ∀ c ∈ cs, ∀ u ∈ c.extents, u.start ≤ u.stop)
    (hmarks : (cs.flatMap marks).Pairwise Span.Apart) : Coherent cs := by
  obtain ⟨heach, hpairs⟩ := List.pairwise_flatMap.1 hmarks
  refine ⟨fun c hc => ⟨misshapen?_eq_none (hextents c hc), selfConflict?_eq_none (heach c hc)⟩, ?_⟩
  refine hpairs.imp_of_mem fun hc hd h => ?_
  exact conflict?_eq_none (hextents _ hc) (hextents _ hd) h

/-- Changes that fit a text of some length: all that they speak of lies in it, and their marks keep
apart. -/
structure Fit (cs : List Change) (length : Nat) : Prop where
  /-- Spans are not inside out, and they lie in the text. -/
  extents : ∀ c ∈ cs, ∀ u ∈ c.extents, u.start ≤ u.stop ∧ u.stop ≤ length
  /-- Marks keep apart. -/
  apart : (cs.flatMap marks).Pairwise Span.Apart

theorem Fit.coherent {length : Nat} (h : Fit cs length) : Coherent cs :=
  coherent_of_pairwise_apart (fun c hc u hu => (h.extents c hc u hu).1) h.apart

/-- A single insertion fits a text that reaches to its place. -/
theorem fit_insert {o length : Nat} (h : o ≤ length) (text : Text) :
    Fit [.insert o text] length :=
  ⟨by simpa [extents] using h, by simp [marks]⟩

end Change

/-! ### Sets of changes -/

namespace ChangeSet

/-- Changes can join a set when they are coherent together with those of the set. -/
theorem exists_extend_eq_ok {s : ChangeSet} {cs : List Change}
    (h : Change.Coherent (s.changes ++ cs)) : ∃ s', s.extend cs = .ok s' := by
  induction cs generalizing s with
  | nil => exact ⟨s, rfl⟩
  | cons c cs ih =>
    have hcheck : s.check c = none := by
      refine check_eq_none_iff.2 ⟨h.sound c (by simp), fun earlier he => ?_⟩
      exact (List.pairwise_append.1 h.compatible).2.2 earlier he c List.mem_cons_self
    rw [extend, hcheck]
    refine ih ?_
    rwa [changes_record_of_check_eq_none hcheck, List.append_assoc]

/-- Changes that fit a text make a set that can be planned on it. -/
theorem exists_ofChanges_eq_ok {cs : List Change} {t : Text} (h : Change.Fit cs t.length) :
    ∃ s, ofChanges cs = .ok s ∧ s.refusal = none ∧ ∃ δ, s.plan t = .ok δ := by
  obtain ⟨s, hs⟩ := exists_extend_eq_ok (s := empty) h.coherent
  obtain ⟨hchanges, hrefusal⟩ := extend_eq_ok hs
  have hchanges : s.changes = cs := hchanges
  refine ⟨s, hs, hrefusal, exists_plan_eq_ok hrefusal fun c hc u hu => ?_⟩
  exact (h.extents c (hchanges ▸ hc) u hu).2

/-- Changes that fit a text make of it what they say. -/
theorem exists_applyTo_eq_weave {cs : List Change} {t : Text} (h : Change.Fit cs t.length) :
    ∃ s, ofChanges cs = .ok s ∧ s.applyTo t = .ok (Change.weave cs t) := by
  obtain ⟨s, hs, -, δ, hδ⟩ := exists_ofChanges_eq_ok h
  have hchanges : s.changes = cs := (extend_eq_ok hs).1
  have hweave := applyTo_eq_weave_of_plan_eq_ok hδ
  rw [hchanges] at hweave
  exact ⟨s, hs, by simp only [applyTo, hδ, hweave]⟩

end ChangeSet

/-! ### Patches -/

/-- Every file is listed under its path.  This holds of all snapshots that are made by adding files
to the empty one. -/
def Snapshot.IsKeyed (s : Snapshot) : Prop := ∀ path f, s.find? path = some f → f.path = path

/-- No file is listed at first. -/
theorem Snapshot.isKeyed_empty : IsKeyed .empty := by
  intro path f h
  cases h

/-- A file is added under its path. -/
theorem Snapshot.IsKeyed.add {s : Snapshot} (h : s.IsKeyed) (f : ParsedFile) :
    (s.add f).IsKeyed := by
  intro path g hg
  by_cases hpath : path = f.path
  · subst hpath
    rw [Snapshot.add, NameMap.find?_insert_self] at hg
    cases hg
    rfl
  · rw [Snapshot.add, NameMap.find?_insert_of_ne _ hpath] at hg
    exact h path g hg

/-- A listed file is found under its path. -/
theorem Snapshot.IsKeyed.find?_path {s : Snapshot} (h : s.IsKeyed) {f : ParsedFile}
    (hf : f ∈ s.values) : s.find? f.path = some f := by
  obtain ⟨⟨path, g⟩, hmem, rfl⟩ := List.mem_map.1 hf
  have hfind := NameMap.find?_eq_some_iff.2 hmem
  rw [h path g hfind, hfind]

/-- A patch whose changes can be planned on the files of a snapshot.  It is not made for a revision
of its own. -/
def Patch.Fits (p : Patch) (s : Snapshot) : Prop :=
  ∀ path c, p.find? path = some c → c.baseRevision = none ∧ c.changes.refusal = none ∧
    ∃ f, s.find? path = some f ∧ ∃ δ, c.changes.plan f.text = .ok δ

/-- **Changes that fit the text of a file make a patch that fits.** -/
theorem Patch.exists_ofChanges_eq_ok {s : Snapshot} {path : String} {f : ParsedFile}
    (hf : s.find? path = some f) {cs : List Change} (h : Change.Fit cs f.text.length)
    (reindent : List Span) : ∃ p, Patch.ofChanges path cs reindent = .ok p ∧ p.Fits s := by
  obtain ⟨changes, hchanges, hrefusal, hplan⟩ := ChangeSet.exists_ofChanges_eq_ok h
  refine ⟨_, by rw [Patch.ofChanges, hchanges], fun path' c hc => ?_⟩
  by_cases hpath : path' = path
  · subst hpath
    rw [NameMap.find?_insert_self] at hc
    cases hc
    exact ⟨rfl, hrefusal, f, hf, hplan⟩
  · rw [NameMap.find?_insert_of_ne _ hpath] at hc
    cases hc

/-- A fix that does not fail: it has a patch, and the patch fits. -/
def Proposal.Succeeds (x : Proposal) (s : Snapshot) : Prop := ∃ p, x.patch = .ok p ∧ p.Fits s

/-- A query about a file of its snapshot. -/
structure Query.IsProper (q : Query) : Prop where
  /-- Every file is listed under its path. -/
  keyed : q.snapshot.IsKeyed
  /-- The file is one of the snapshot. -/
  file : q.snapshot.find? q.file.path = some q.file

/-- A fix of changes that fit the text of the file does not fail. -/
theorem Query.succeeds_propose {q : Query} (hq : q.IsProper) {cs : List Change}
    (h : Change.Fit cs q.file.text.length) (description : String) (depth : Nat)
    (reindent : List Span) :
    (q.propose description depth cs reindent).Succeeds q.snapshot :=
  Patch.exists_ofChanges_eq_ok hq.file h reindent

end Mend
