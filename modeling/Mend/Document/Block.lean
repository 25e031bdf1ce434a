import Mend.Document.Basic

/-!
# Edit blocks

An *edit block* changes a document by a run of edits that stands or falls as a whole.  While it
runs, the document is a *draft* that notes every exchange made.  When the block ends well, they
become one step of the history; when an edit fails, they are taken back.

## Main definitions

* `EditError`, `BlockFailure` — why an edit is refused, and why a block ends early.
* `Draft`, with `replace?` and `applyDelta` — a document in the middle of a block.
* `Draft.commit`, `Draft.rollBack` — the two ways a block ends.
* `EditCommand`, `Document.edit` — edits as data, and a whole block of them.
-/

namespace Mend

/-! ### Refusals -/

/-- Why an edit is refused. -/
inductive EditError
  /-- The span is inside out or ends after the text. -/
  | outOfBounds (span : Span) (length : Nat)
  /-- A delta was made for a text of another length. -/
  | lengthMismatch (expected actual : Nat)
  deriving DecidableEq, Repr

/-- The error as told to the user. -/
def EditError.message : EditError → String
  | .outOfBounds span length =>
    "edit range " ++ span.render ++ " is out of bounds for a document of " ++ toString length ++
      " characters"
  | .lengthMismatch expected actual =>
    "delta expects " ++ toString expected ++ " characters but the document has " ++
      toString actual

/-- Why a block ends before its time. -/
inductive BlockFailure
  /-- An edit was refused. -/
  | refused (error : EditError)
  /-- The user of the block gave up. -/
  | cancelled
  deriving DecidableEq, Repr

/-! ### Drafts -/

/-- A document in the middle of an edit block. -/
structure Draft where
  /-- The document as it stands. -/
  document : Document
  /-- The caret when the block began. -/
  before : Caret
  /-- The exchanges made so far, the last one first. -/
  made : List Replacement := []
  deriving DecidableEq, Repr

namespace Draft

/-- The draft with which a block begins. -/
def ofDocument (d : Document) : Draft := { document := d, before := d.caret }

/-- The text as it stands. -/
def text (d : Draft) : Text := d.document.text

/-- Exchanges the characters of a span and notes it. -/
def exchange (d : Draft) (s : Span) (new : Text) : Draft :=
  { d with
    document := { d.document with text := Text.splice d.text s new }
    made := ⟨s.start, Text.slice d.text s, new⟩ :: d.made }

/-- Exchanges the characters of a span that lies in the text.  An exchange of nothing for nothing
is not noted. -/
def replace? (d : Draft) (s : Span) (new : Text) : Except EditError Draft :=
  if s.stop < s.start ∨ d.text.length < s.stop then .error (.outOfBounds s d.text.length)
  else if s.IsEmpty ∧ new = [] then .ok d
  else .ok (d.exchange s new)

/-- Makes replacements until one is refused; what was made before it stays made. -/
def replaceEach (d : Draft) : List (Span × Text) → Draft × Option EditError
  | [] => (d, none)
  | (s, new) :: rest =>
    match d.replace? s new with
    | .ok d' => replaceEach d' rest
    | .error e => (d, some e)

/-- The replacements that make a delta on the text as it stands: by the time an edit is made, all
edits before it have been, so it is made where its new characters will lie. -/
def deltaReplacements (δ : Delta) : List (Span × Text) :=
  (δ.edits.zip δ.afterSpans).map fun p =>
    (⟨p.2.start, p.2.start + p.1.deleted.length⟩, p.1.inserted)

/-- Makes a delta that was planned for a text of this length. -/
def applyDelta (d : Draft) (δ : Delta) : Draft × Option EditError :=
  if δ.before = d.text.length then d.replaceEach (deltaReplacements δ)
  else (d, some (.lengthMismatch δ.before d.text.length))

/-- Ends a block well.  A block that exchanged nothing leaves no step. -/
def commit (d : Draft) : Document :=
  if d.made = [] then d.document
  else
    { d.document with
      revision := d.document.revision + 1
      history := d.document.history.push d.made.reverse d.before d.document.caret }

/-- Ends a block that failed. -/
def rollBack (d : Draft) : Document :=
  let text := Replacement.revert d.text d.made.reverse
  { d.document with text, caret := d.before.clamp text.length }

end Draft

/-! ### Blocks of commands -/

/-- An edit in a block. -/
inductive EditCommand
  /-- Exchanges the characters of a span; to insert is to exchange an empty span, and to remove is
  to exchange for nothing. -/
  | replace (span : Span) (text : Text)
  /-- Makes a delta. -/
  | applyDelta (delta : Delta)
  /-- Moves the cursor. -/
  | setCursor (offset : Nat)
  /-- Selects characters, or nothing. -/
  | setSelection (span : Option Span)
  /-- Gives up. -/
  | cancel
  deriving DecidableEq, Repr

/-- Runs one edit. -/
def Draft.run (d : Draft) : EditCommand → Draft × Option BlockFailure
  | .replace s new =>
    match d.replace? s new with
    | .ok d' => (d', none)
    | .error e => (d, some (.refused e))
  | .applyDelta δ => ((d.applyDelta δ).1, (d.applyDelta δ).2.map .refused)
  | .setCursor o => ({ d with document := d.document.setCursor o }, none)
  | .setSelection s => ({ d with document := d.document.setSelection s }, none)
  | .cancel => (d, some .cancelled)

/-- The drafts after each edit that goes well, and the failure that ends them if one does.  The
draft of a failure is the one to be rolled back. -/
def Draft.runAll (d : Draft) : List EditCommand → List Draft × Draft × Option BlockFailure
  | [] => ([], d, none)
  | c :: rest =>
    match d.run c with
    | (d', none) =>
      let (seen, last, failure) := runAll d' rest
      (d' :: seen, last, failure)
    | (d', some f) => ([], d', some f)

/-- What came of an edit block. -/
structure BlockResult where
  /-- The document after the block. -/
  document : Document
  /-- The document as seen inside the block after each edit that went well. -/
  seen : List Document
  /-- Why the block ended early, if it did. -/
  failure : Option BlockFailure
  deriving DecidableEq, Repr

/-- Runs a block of edits on a document. -/
def Document.edit (d : Document) (cs : List EditCommand) : BlockResult :=
  let (seen, last, failure) := (Draft.ofDocument d).runAll cs
  { document := if failure.isNone then last.commit else last.rollBack
    seen := seen.map (·.document)
    failure }

/-- Inserts a text in a block of its own, the given number of times. -/
def Document.insertTimes (o : Nat) (new : Text) : Nat → Document → Document
  | 0, d => d
  | n + 1, d => insertTimes o new n (d.edit [.replace (.point o) new]).document

end Mend
