import Mend.Proofs.StaleFixes

/-!
# Revisions of a run

A run of a document is looked at after each of its events.  From one such moment to a later one the
revision never goes back, and as long as it stays, so does the text: a block that fails takes back
what it did, and everything else that touches the text counts the revision up.  Hence a file change
that is held for a revision finds the text it was made for, or it is refused as stale.

## Main definitions

* `FileChange.atRevision` — a file change that holds for one revision only.
* `Document.moment` — a document after the first events of a run.

## Main results

* `Document.later_after`, `Document.later_moment` — no run takes a document back.
* `Document.text_moment_eq` — moments of the same revision have the same text.
* `Document.plan_atRevision` — when a change that holds for a revision is planned, and as what.
* `Document.revision_identifies_text` — **a revision identifies a text.**
-/

namespace Mend

/-- A file change that holds for one revision only. -/
def FileChange.atRevision (c : FileChange) (revision : Nat) : FileChange :=
  { c with baseRevision := some revision }

namespace Document

/-! ### Moments of a run -/

/-- No run takes a document back. -/
theorem later_after (d : Document) (es : List DocumentEvent) : d.Later (d.after es) := by
  induction es generalizing d with
  | nil => exact .refl d
  | cons e es ih => exact (later_handle d e).trans (ih (d.handle e))

/-- The document after the first events of a run. -/
def moment (d : Document) (es : List DocumentEvent) (i : Nat) : Document := d.after (es.take i)

theorem moment_add (d : Document) (es : List DocumentEvent) (i j : Nat) :
    d.moment es (i + j) = (d.moment es i).moment (es.drop i) j := by
  rw [moment, List.take_add, after_append, moment, moment]

/-- An event leads from one moment to the next. -/
theorem moment_succ {d : Document} {es : List DocumentEvent} {i : Nat} {e : DocumentEvent}
    (h : es[i]? = some e) : d.moment es (i + 1) = (d.moment es i).handle e := by
  rw [moment, List.take_add_one, h, Option.toList_some, after_concat, moment]

/-- After the last event nothing happens. -/
theorem moment_succ_of_none {d : Document} {es : List DocumentEvent} {i : Nat}
    (h : es[i]? = none) : d.moment es (i + 1) = d.moment es i := by
  rw [moment, List.take_add_one, h, Option.toList_none, List.append_nil, moment]

/-- At a later moment the document is later. -/
theorem later_moment (d : Document) (es : List DocumentEvent) {i j : Nat} (h : i ≤ j) :
    (d.moment es i).Later (d.moment es j) := by
  obtain ⟨k, rfl⟩ := Nat.exists_eq_add_of_le h
  rw [moment_add]
  exact later_after _ _

/-- Moments of the same revision have the same text, whichever comes first. -/
theorem text_moment_eq (d : Document) (es : List DocumentEvent) {i j : Nat}
    (h : (d.moment es i).revision = (d.moment es j).revision) :
    (d.moment es i).text = (d.moment es j).text := by
  rcases Nat.le_total i j with hij | hji
  · exact ((later_moment d es hij).2 h.symm).symm
  · exact (later_moment d es hji).2 h

/-! ### Changes that hold for a revision -/

/-- A change that holds for a revision is refused at any other one, and at this one it is up to the
text whether it can be planned. -/
theorem plan_atRevision (d : Document) (c : FileChange) (r : Nat) :
    d.plan (c.atRevision r) =
      if r = d.revision then (c.changes.plan d.text).mapError .conflict
      else .error (.stale d.path r d.revision) := by
  simp only [plan, FileChange.atRevision, Option.all_some, beq_iff_eq, Option.getD_some]
  split
  · cases c.changes.plan d.text <;> rfl
  · rfl

/-- **A revision identifies a text.**  In a run of a document, be its blocks committed or rolled
back, the revision at a moment is at most the one at any later moment, and two moments of the same
revision have the same text.  So a file change that holds for the revision of a moment can be planned
at another one only where the text is the one of that moment, and as it is planned there. -/
theorem revision_identifies_text (d : Document) (es : List DocumentEvent) (i j : Nat) :
    (i ≤ j → (d.moment es i).revision ≤ (d.moment es j).revision) ∧
    ((d.moment es i).revision = (d.moment es j).revision →
      (d.moment es i).text = (d.moment es j).text) ∧
    ∀ (c : FileChange) (δ : Delta),
      (d.moment es j).plan (c.atRevision (d.moment es i).revision) = .ok δ →
      (d.moment es j).text = (d.moment es i).text ∧
        (d.moment es i).plan (c.atRevision (d.moment es i).revision) = .ok δ := by
  refine ⟨fun hij => (later_moment d es hij).1, text_moment_eq d es, fun c δ hplan => ?_⟩
  rw [plan_atRevision] at hplan
  split at hplan
  next hrevision =>
    have htext := text_moment_eq d es hrevision
    refine ⟨htext.symm, ?_⟩
    rw [plan_atRevision, if_pos rfl, htext, hplan]
  next => cases hplan

/-- A block that fails and a move of the cursor leave the revision and the text; after a block and its
undoing the text is the same at another revision, for which a change of the first one is stale. -/
theorem revision_identifies_text_failedBlock :
    let d := Document.open "a.cpp" ['a', 'b']
    let es : List DocumentEvent :=
      [.block (.ofCommands [.replace ⟨0, 1⟩ ['x'], .replace ⟨1, 9⟩ []]), .setCursor 1,
        .block (.ofCommands [.replace ⟨0, 2⟩ []]), .undo]
    let c : FileChange := { changes := ChangeSet.empty.recordAll [.replace ⟨0, 1⟩ ['x']] }
    (d.moment es 0).revision ≤ (d.moment es 4).revision ∧
      (d.moment es 0).text = (d.moment es 2).text ∧
      (∃ δ, (d.moment es 2).plan (c.atRevision 0) = .ok δ ∧
        (d.moment es 0).plan (c.atRevision 0) = .ok δ) ∧
      (d.moment es 4).text = ['a', 'b'] ∧
      (d.moment es 4).plan (c.atRevision 0) = .error (.stale "a.cpp" 0 2) := by
  intro d es c
  obtain ⟨hle, -, -⟩ := revision_identifies_text d es 0 4
  obtain ⟨-, heq, hplan⟩ := revision_identifies_text d es 0 2
  refine ⟨hle (Nat.zero_le 4), heq (by decide), ?_, by decide, by decide⟩
  have hok : ((d.moment es 2).plan (c.atRevision 0)).isOk = true := by decide
  cases h : (d.moment es 2).plan (c.atRevision 0) with
  | error e =>
    rw [h] at hok
    cases hok
  | ok δ => exact ⟨δ, rfl, (hplan c δ h).2⟩

end Document

end Mend
