import Mend.Document.History

/-!
# Documents

A document is an open file: its text, a caret, a revision that grows with every change of the text,
and the history for undo and redo.

## Main definitions

* `Document`, `Document.open` — an open file, and opening one.
* `Document.setCursor`, `Document.setSelection` — moving the caret within the text.
* `Document.undo?`, `Document.redo?` — taking back the last step, and making it again.
-/

namespace Mend

/-- An open file. -/
structure Document where
  /-- The path of the file. -/
  path : String
  /-- The text as it stands. -/
  text : Text
  /-- The number of changes so far. -/
  revision : Nat := 0
  /-- Where the user works. -/
  caret : Caret := ⟨0, none⟩
  /-- The steps for undo and redo. -/
  history : History := {}
  deriving DecidableEq, Repr

namespace Document

/-- A file that was just opened. -/
def «open» (path : String) (text : Text) : Document := { path, text }

/-- The cursor. -/
def cursor (d : Document) : Nat := d.caret.cursor

/-- The selection. -/
def selection (d : Document) : Option Span := d.caret.selection

/-- Moves the caret to the nearest one within the text. -/
def setCaret (d : Document) (c : Caret) : Document := { d with caret := c.clamp d.text.length }

/-- Moves the cursor; past the end stands for the end. -/
def setCursor (d : Document) (o : Nat) : Document :=
  { d with caret := { d.caret with cursor := min o d.text.length } }

/-- Selects characters, as far as they lie in the text, or nothing. -/
def setSelection (d : Document) (s : Option Span) : Document :=
  { d with caret := { d.caret with
      selection := (Caret.clamp d.text.length ⟨0, s⟩).selection } }

/-- The number of steps that can be undone. -/
def undoDepth (d : Document) : Nat := d.history.done.length

/-- Takes back the most recent step, if there is one. -/
def undo? (d : Document) : Option Document :=
  match d.history.done with
  | [] => none
  | s :: rest =>
    let text := Replacement.revert d.text s.replacements
    some
      { d with
        text
        caret := s.before.clamp text.length
        revision := d.revision + 1
        history := { d.history with done := rest, undone := s :: d.history.undone } }

/-- Makes the step again that was undone last, if there is one. -/
def redo? (d : Document) : Option Document :=
  match d.history.undone with
  | [] => none
  | s :: rest =>
    let text := Replacement.replay d.text s.replacements
    some
      { d with
        text
        caret := s.after.clamp text.length
        revision := d.revision + 1
        history := { d.history with done := s :: d.history.done, undone := rest } }

/-- Undoes the given number of steps, or all there are if there are fewer. -/
def undoTimes : Nat → Document → Document
  | 0, d => d
  | n + 1, d =>
    match d.undo? with
    | some d' => undoTimes n d'
    | none => d

/-- Undoes every step. -/
def undoAll (d : Document) : Document := undoTimes d.undoDepth d

@[simp] theorem text_setCursor (d : Document) (o : Nat) : (d.setCursor o).text = d.text := rfl

@[simp] theorem text_setSelection (d : Document) (s : Option Span) :
    (d.setSelection s).text = d.text := rfl

theorem undo?_eq_none_iff (d : Document) : d.undo? = none ↔ d.history.done = [] := by
  unfold undo?
  split <;> simp_all

end Document

end Mend
