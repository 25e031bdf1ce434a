import Mend.Edit.Plan
import Mend.Indent.Reindent
import Mend.Settings.Basic

/-!
# Applying a change set to a document

A file change is a change set for one document, with the places whose lines should get their
indentation afterwards.  It is first planned, which leaves the document alone, and then committed
as one step of the history.  The caret stays at the characters it was at.

## Main definitions

* `FileChange` — what is to be done to a file.
* `ApplyError` — why a change is refused.
* `Document.plan` — the delta of a file change.
* `Document.reindentAfter`, `Document.mapCaret` — what a change does to lines and caret afterwards.
* `Document.commit`, `Document.apply` — making a planned delta, and a whole file change.
* `Outcome` — what was done, and where the caret went.
-/

namespace Mend

/-- What is to be done to one file. -/
structure FileChange where
  /-- The changes of the text. -/
  changes : ChangeSet := .empty
  /-- The places, in the text before, whose lines get their indentation afterwards. -/
  reindent : List Span := []
  /-- The revision the changes were made for, if they were made for one. -/
  baseRevision : Option Nat := none
  deriving DecidableEq, Repr

namespace FileChange

instance : Inhabited FileChange := ⟨{}⟩

/-- Whether some lines should get their indentation. -/
def wantsReindent (c : FileChange) : Bool := !c.reindent.isEmpty

end FileChange

/-- Why a change is refused. -/
inductive ApplyError
  /-- Its change set contradicts itself or does not fit the text. -/
  | conflict (error : ChangeError)
  /-- A delta does not fit the text. -/
  | edit (error : EditError)
  /-- It was made for another revision of the document. -/
  | stale (path : String) (expected actual : Nat)
  /-- The document is not open. -/
  | notOpen (path : String)
  deriving DecidableEq, Repr

/-- The error as told to the user. -/
def ApplyError.message : ApplyError → String
  | .conflict e => e.message
  | .edit e => e.message
  | .stale path expected actual =>
    "document `" ++ path ++ "` is stale: expected revision " ++ toString expected ++ ", found " ++
      toString actual
  | .notOpen path => "no open document for `" ++ path ++ "`"

/-- What a committed change did. -/
structure Outcome where
  /-- Where the cursor went. -/
  cursor : Nat
  /-- Where the selection went. -/
  selection : Option Span
  /-- The delta that was made, with the undo group it was recorded under. -/
  delta : Delta
  /-- The lines whose indentation changed. -/
  reindentedLines : List Nat
  deriving DecidableEq, Repr

namespace Document

/-- Resolves a file change against a document. -/
def plan (d : Document) (c : FileChange) : Except ApplyError Delta :=
  if c.baseRevision.all (· == d.revision) then
    match c.changes.plan d.text with
    | .ok δ => .ok δ
    | .error e => .error (.conflict e)
  else .error (.stale d.path (c.baseRevision.getD 0) d.revision)

/-- The lines that get their indentation after a delta: those with characters that came, and those
that were asked for. -/
def linesToReindent (t : Text) (δ : Delta) (requested : List Span) : List Nat :=
  let spans := δ.afterSpans ++ requested.map δ.mapSpan
  let extents := spans.map fun s => (Text.lineOf t s.start, Text.lineOf t (max s.stop s.start))
  (List.range (Text.lineCount t)).filter fun line =>
    extents.any fun e => e.1 ≤ line && line ≤ e.2

/-- Where the caret goes when a delta and then new indentation have been made. -/
def mapCaret (δ : Delta) (indents : List IndentChange) (c : Caret) : Caret :=
  let mapped (o : Nat) : Nat := IndentChange.mapOffsetAll indents (δ.mapOffset o)
  { cursor := mapped c.cursor
    selection := c.selection.map fun s =>
      (⟨mapped s.start, max (mapped s.stop) (mapped s.start)⟩ : Span) }

/-- The lines of a draft that get their indentation after a delta do so, if this is wanted. -/
def reindentAfter (draft : Draft) (δ : Delta) (c : FileChange) (indenter : IndentStyle)
    (s : Settings) : Draft × Except EditError (List IndentChange) :=
  if s.reindent && c.wantsReindent then
    draft.reindent? indenter s.indent (linesToReindent draft.text δ c.reindent)
  else (draft, .ok [])

/-- Makes a planned delta as one step, gives lines their indentation if this is wanted, and moves
the caret along. -/
def commit (d : Document) (δ : Delta) (c : FileChange) (indenter : IndentStyle) (s : Settings) :
    Document × Except ApplyError Outcome :=
  match (Draft.ofDocument d).applyDelta δ with
  | (draft, some e) => (draft.rollBack, .error (.edit e))
  | (draft, none) =>
    match reindentAfter draft δ c indenter s with
    | (draft, .error e) => (draft.rollBack, .error (.edit e))
    | (draft, .ok indents) =>
      let caret := mapCaret δ indents d.caret
      let after :=
        ({ draft with document :=
            (draft.document.setCursor caret.cursor).setSelection caret.selection }).commit
      let δ := if δ.edits = [] then δ else { δ with group := after.history.lastGroup? }
      (after, .ok
        { cursor := caret.cursor
          selection := caret.selection
          delta := δ
          reindentedLines := indents.map (·.line) })

/-- Plans a file change and makes it. -/
def apply (d : Document) (c : FileChange) (indenter : IndentStyle) (s : Settings) :
    Document × Except ApplyError Outcome :=
  match d.plan c with
  | .ok δ => d.commit δ c indenter s
  | .error e => (d, .error e)

/-- A change that is refused when it is planned leaves the document alone. -/
theorem apply_of_plan_eq_error {d : Document} {c : FileChange} {e : ApplyError}
    (indenter : IndentStyle) (s : Settings) (h : d.plan c = .error e) :
    d.apply c indenter s = (d, .error e) := by
  simp [apply, h]

end Document

end Mend
