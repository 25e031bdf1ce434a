import Mend.Proofs.CaretThroughChange
import Mend.Proofs.Revisions

/-!
# Carets that lie in their text

Moving the caret clamps it to the text, and so does putting an old one back: after an undo or a redo,
after a block that failed, and at the end of a file change.  One way of shortening the text is left:
a block that ends well leaves the caret where its own edits left it, which may be past the end of the
text by then.  So a caret lies in its text all along a run just when no block strands it.

A block that fails takes back its exchanges and its moves of the caret.  A caret that lies in the
text is not clamped, so all is as it was before the block.

## Main definitions

* `Caret.LiesWithin`, `Document.CaretInText` — a caret that lies in a text.
* `Document.Strands` — a block that ends well and leaves its caret outside the text.

## Main results

* `Document.caretInText_rollBack`, `Document.caretInText_undo?`, `Document.caretInText_redo?`,
  `Document.caretInText_commit` — what puts a caret back into the text, wherever it was.
* `Document.caretInText_handle_iff` — an event keeps the caret in the text unless it strands it.
* `Document.caret_in_text_iff` — **the caret lies in the text all along a run just when no block
  strands it**, and `Document.exists_caret_outside` — one that does.
* `Document.failed_block_leaves_no_trace` — **a block that fails changes nothing.**
-/

namespace Mend

namespace Caret

/-- A caret in a text of the given length: its cursor is not past the end, and what it selects is
some characters of the text. -/
structure LiesWithin (length : Nat) (c : Caret) : Prop where
  /-- The cursor lies in the text. -/
  cursor_le : c.cursor ≤ length
  /-- The selection, if there is one, is a span of the text that is not empty. -/
  selection : ∀ s, c.selection = some s → s.start < s.stop ∧ s.stop ≤ length

variable {length : Nat} {c : Caret}

theorem liesWithin_iff : c.LiesWithin length ↔
    c.IsProper ∧ c.cursor ≤ length ∧ ∀ s, c.selection = some s → s.stop ≤ length := by
  constructor
  · rintro ⟨hcursor, hselection⟩
    exact ⟨fun s hs => Nat.not_le.2 (hselection s hs).1, hcursor, fun s hs => (hselection s hs).2⟩
  · rintro ⟨hproper, hcursor, hselection⟩
    exact ⟨hcursor, fun s hs => ⟨Nat.not_le.1 (hproper s hs), hselection s hs⟩⟩

theorem LiesWithin.isProper (h : c.LiesWithin length) : c.IsProper := (liesWithin_iff.1 h).1

theorem LiesWithin.clamp_eq_self (h : c.LiesWithin length) : c.clamp length = c :=
  Caret.clamp_eq_self h.isProper h.cursor_le fun s hs => (h.selection s hs).2

theorem liesWithin_clamp (length : Nat) (c : Caret) : (c.clamp length).LiesWithin length := by
  refine liesWithin_iff.2 ⟨isProper_clamp length c, Nat.min_le_right _ _, fun s hs => ?_⟩
  obtain ⟨s', -, rfl⟩ := Option.map_eq_some_iff.1 (Option.filter_eq_some_iff.1 hs).1
  exact Nat.min_le_right _ _

end Caret

namespace Document

variable {d d' : Document}

/-- The caret of a document lies in its text. -/
def CaretInText (d : Document) : Prop := d.caret.LiesWithin d.text.length

theorem caretInText_open (path : String) (t : Text) : (Document.open path t).CaretInText :=
  ⟨Nat.zero_le _, fun _ hs => nomatch hs⟩

/-! ### What puts a caret back into the text -/

theorem caretInText_setCursor (h : d.CaretInText) (o : Nat) : (d.setCursor o).CaretInText :=
  ⟨Nat.min_le_right _ _, h.selection⟩

theorem caretInText_setSelection (h : d.CaretInText) (s : Option Span) :
    (d.setSelection s).CaretInText :=
  ⟨h.cursor_le, (Caret.liesWithin_clamp d.text.length ⟨0, s⟩).selection⟩

/-- Placing the cursor and then the selection places the caret, wherever it was before. -/
theorem caretInText_place (d : Document) (o : Nat) (s : Option Span) :
    ((d.setCursor o).setSelection s).CaretInText :=
  ⟨Nat.min_le_right _ _, (Caret.liesWithin_clamp d.text.length ⟨0, s⟩).selection⟩

theorem caretInText_rollBack (b : Draft) : b.rollBack.CaretInText :=
  Caret.liesWithin_clamp _ _

theorem caretInText_undo? (h : d.undo? = some d') : d'.CaretInText := by
  unfold undo? at h
  split at h
  next => cases h
  next =>
    cases h
    exact Caret.liesWithin_clamp _ _

theorem caretInText_redo? (h : d.redo? = some d') : d'.CaretInText := by
  unfold redo? at h
  split at h
  next => cases h
  next =>
    cases h
    exact Caret.liesWithin_clamp _ _

/-- A block that ends well leaves the caret as it is. -/
theorem caretInText_commit_draft {b : Draft} :
    b.commit.CaretInText ↔ b.document.CaretInText := by
  rw [CaretInText, Draft.caret_commit]
  exact iff_of_eq (congrArg (Caret.LiesWithin · _) (congrArg List.length b.text_commit))

/-- A delta that is committed places the caret at last, and one that is refused is rolled back. -/
theorem caretInText_commit (d : Document) (δ : Delta) (c : FileChange) (indenter : IndentStyle)
    (s : Settings) : (d.commit δ c indenter s).1.CaretInText := by
  rw [commit]
  split
  · exact caretInText_rollBack _
  · split
    · exact caretInText_rollBack _
    · exact caretInText_commit_draft.2 (caretInText_place _ _ _)

/-! ### Blocks that strand the caret -/

/-- An event that strands the caret: a block that ends well and leaves a text that ends before the
cursor, or before the end of the selection. -/
def Strands (d : Document) : DocumentEvent → Prop
  | .block p =>
    let (draft, ok) := p.run (.ofDocument d)
    ok = true ∧ (draft.text.length < draft.document.cursor ∨
      ∃ s, draft.document.selection = some s ∧ draft.text.length < s.stop)
  | _ => False

theorem caretInText_block_iff (h : d.CaretInText) (p : EditProgram) :
    (d.block p).CaretInText ↔ ¬d.Strands (.block p) := by
  have hproper := Draft.isProper_runProgram (d := .ofDocument d) h.isProper p
  rw [block, Strands]
  rcases hrun : p.run (.ofDocument d) with ⟨draft, ok⟩
  rw [hrun] at hproper
  dsimp only at hproper ⊢
  cases ok with
  | false => simp [caretInText_rollBack draft]
  | true =>
    rw [if_pos rfl, caretInText_commit_draft, CaretInText, Caret.liesWithin_iff]
    simp only [hproper, true_and, not_or, not_exists, not_and, Nat.not_lt]
    rfl

/-- **An event keeps the caret in the text unless it strands it.** -/
theorem caretInText_handle_iff (h : d.CaretInText) (e : DocumentEvent) :
    (d.handle e).CaretInText ↔ ¬d.Strands e := by
  cases e with
  | block p => exact caretInText_block_iff h p
  | change c indenter s =>
    refine iff_of_true ?_ not_false
    rw [handle, apply]
    split
    · exact caretInText_commit d _ c indenter s
    · exact h
  | undo =>
    refine iff_of_true ?_ not_false
    rw [handle]
    cases hundo : d.undo? with
    | none => exact h
    | some d' => exact caretInText_undo? hundo
  | redo =>
    refine iff_of_true ?_ not_false
    rw [handle]
    cases hredo : d.redo? with
    | none => exact h
    | some d' => exact caretInText_redo? hredo
  | setCursor o => exact iff_of_true (caretInText_setCursor h o) not_false
  | setSelection s => exact iff_of_true (caretInText_setSelection h s) not_false

/-- **The caret lies in the text all along a run just when no block strands it.**  Whatever the run
does, no selection is empty. -/
theorem caret_in_text_iff (path : String) (t : Text) (es : List DocumentEvent) :
    let start := Document.open path t
    (∀ i s, (start.moment es i).selection = some s → s.start < s.stop) ∧
    ((∀ i, (start.moment es i).cursor ≤ (start.moment es i).text.length ∧
        ∀ s, (start.moment es i).selection = some s → s.stop ≤ (start.moment es i).text.length) ↔
      ∀ i e, es[i]? = some e → ¬(start.moment es i).Strands e) := by
  intro start
  have hproper (i : Nat) : (start.moment es i).caret.IsProper :=
    isProper_after (isProper_open path t) _
  have hlies (i : Nat) : (start.moment es i).CaretInText ↔
      (start.moment es i).cursor ≤ (start.moment es i).text.length ∧
        ∀ s, (start.moment es i).selection = some s → s.stop ≤ (start.moment es i).text.length :=
    Caret.liesWithin_iff.trans (and_iff_right (hproper i))
  refine ⟨fun i s hs => Nat.not_le.1 (hproper i s hs), ?_⟩
  simp only [← hlies]
  constructor
  · intro hall i e he
    rw [← caretInText_handle_iff (hall i), ← moment_succ he]
    exact hall (i + 1)
  · intro hnone i
    induction i with
    | zero => exact caretInText_open path t
    | succ i ih =>
      cases he : es[i]? with
      | none => rwa [moment_succ_of_none he]
      | some e =>
        rw [moment_succ he, caretInText_handle_iff ih]
        exact hnone i e he

/-- A block that removes the text and then moves the cursor does not strand it. -/
theorem caret_in_text_iff_cursorMoved :
    let start := Document.open "a.cpp" ['a', 'b', 'c']
    let es : List DocumentEvent :=
      [.setCursor 3, .block (.ofCommands [.replace ⟨0, 3⟩ [], .setCursor 3]), .undo]
    (start.moment es 2).cursor = 0 ∧
      ∀ i, (start.moment es i).cursor ≤ (start.moment es i).text.length := by
  intro start es
  refine ⟨by decide, fun i => ((caret_in_text_iff "a.cpp" ['a', 'b', 'c'] es).2.2 ?_ i).1⟩
  rintro (_ | _ | _ | i) e he
  · cases he
    exact id
  · cases he
    rintro ⟨-, hcursor | ⟨s, hs, -⟩⟩
    · exact absurd hcursor (by decide)
    · cases hs
  · cases he
    exact id
  · cases he

/-- A block that removes the characters before the cursor leaves it behind. -/
theorem exists_caret_outside :
    let d := (Document.open "a.cpp" ['a', 'b', 'c']).after
      [.setCursor 3, .setSelection (some ⟨1, 3⟩), .block (.ofCommands [.replace ⟨0, 3⟩ []])]
    d.text = [] ∧ d.cursor = 3 ∧ d.selection = some ⟨1, 3⟩ := by
  decide

/-! ### Blocks that fail -/

/-- A block that fails clamps the caret and does nothing else. -/
theorem block_of_failed (d : Document) {p : EditProgram}
    (hfailed : (p.run (.ofDocument d)).2 = false) :
    d.block p = { d with caret := d.caret.clamp d.text.length } := by
  have hfollows := (Draft.follows_ofDocument d).runProgram p
  rw [block]
  rcases hrun : p.run (.ofDocument d) with ⟨draft, ok⟩
  rw [hrun] at hfollows hfailed
  obtain rfl : ok = false := hfailed
  have htext : Replacement.revert draft.text draft.made.reverse = d.text := hfollows.text_rollBack
  dsimp only
  rw [if_neg Bool.false_ne_true, Draft.rollBack, htext, hfollows.before_eq, Document.mk.injEq]
  exact ⟨hfollows.path_eq, rfl, hfollows.revision_eq, rfl, hfollows.history_eq⟩

/-- **A block that fails changes nothing.**  Whatever it did before, and whether it failed by itself or
by an edit that was refused, a document of a run whose caret lies in its text is as it was: text,
caret, revision, and the steps to undo and redo with the number of the next one. -/
theorem failed_block_leaves_no_trace {path : String} {t : Text} {es : List DocumentEvent}
    {d : Document} (hrun : d = (Document.open path t).after es) (hcursor : d.cursor ≤ d.text.length)
    (hselection : ∀ s, d.selection = some s → s.stop ≤ d.text.length) {p : EditProgram}
    (hfailed : (p.run (.ofDocument d)).2 = false) : d.block p = d := by
  have hproper : d.caret.IsProper := hrun ▸ isProper_after (isProper_open path t) es
  rw [block_of_failed d hfailed, Caret.clamp_eq_self hproper hcursor hselection]

/-- A delta whose second edit is refused after the first one was made, in a block that moves the
caret. -/
theorem failed_block_leaves_no_trace_partialDelta :
    let d := (Document.open "a.cpp" ['a', 'b', 'c']).after
      [.block (.ofCommands [.replace ⟨3, 3⟩ ['d']]), .undo, .setSelection (some ⟨1, 3⟩),
        .setCursor 2]
    let δ : Delta := ⟨3, 3, [⟨0, ['a'], ['x', 'y'], none⟩, ⟨2, ['c', 'c'], [], none⟩], none⟩
    let p := EditProgram.ofCommands [.setCursor 0, .applyDelta δ, .setSelection none]
    (p.run (.ofDocument d)).1.text = ['x', 'y', 'b', 'c'] ∧ d.block p = d ∧
      (d.block p).selection = some ⟨1, 3⟩ ∧ (d.block p).history.undone ≠ [] := by
  intro d δ p
  have hsame : d.block p = d :=
    failed_block_leaves_no_trace rfl (by decide) (by decide) (by decide)
  rw [hsame]
  exact ⟨by decide, rfl, by decide, by decide⟩

end Document

end Mend
