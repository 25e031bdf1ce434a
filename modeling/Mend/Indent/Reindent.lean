import Mend.Document.Block
import Mend.Indent.Scan
import Mend.Text.Lines

/-!
# Indentation of lines

The indentation of a line follows from what is open above it.  Giving lines their indentation
touches the blanks that open them and nothing else.

The columns of a line are counted without a bound, the levels times the width of a level among them;
the program counts them in 64 bits.

## Main definitions

* `IndentStyle.lineIndent?` — the columns a line should be indented by, if it should be changed.
* `Draft.reindent?` — gives lines of a draft their indentation, by replacements that may be refused.
* `Draft.reindent` — the same by exchanges that are just made.
* `IndentChange` and `IndentChange.mapOffset` — what was done to a line, and where it moved
  offsets.
-/

namespace Mend

/-! ### The indentation a line should have -/

namespace IndentStyle

/-- The indentation of what stands between a brace and its partner. -/
def contentIndent (s : IndentStyle) (b : OpenBrace) : Nat :=
  let levels :=
    match b.kind with
    | .namespaceBody => 0
    | .block => 1
    | .switchBody => if s.indentCaseLabels then 2 else 1
    | .classBody => if s.indentAccessLabels then 2 else 1
  b.lineIndent + levels * s.width

/-- The indentation of a label between a brace and its partner. -/
def labelIndent (s : IndentStyle) (b : OpenBrace) : Nat :=
  let nested :=
    match b.kind with
    | .switchBody => s.indentCaseLabels
    | .classBody => s.indentAccessLabels
    | _ => false
  if nested then b.lineIndent + s.width else b.lineIndent

/-- The indentation of the body of a control statement whose header is the line above.  A brace
that opens the body stands below the header. -/
def bodyIndent (s : IndentStyle) (n : Nesting) (code : Text) : Nat :=
  if code.head? = some '\x7b' then n.lastIndent else n.lastIndent + s.width

/-- A label that belongs to a brace: a `case` label in a `switch`, an access label in a class. -/
def IsLabelOf (code : Text) (b : OpenBrace) : Prop :=
  (b.kind = .switchBody ∧ code.isCaseLabel) ∨ (b.kind = .classBody ∧ code.isAccessLabel)

instance (code : Text) (b : OpenBrace) : Decidable (IsLabelOf code b) :=
  inferInstanceAs (Decidable (_ ∨ _))

/-- The indentation, in columns, of a line whose code is given, below code that leaves `n` open.
Lines that begin in a comment are left alone. -/
def indentBelow? (s : IndentStyle) (n : Nesting) (code : Text) : Option Nat :=
  if n.inComment then none
  else if code.head? = some '#' then some 0
  else
    match n.parens, n.braces with
    | column :: _, _ => some column
    | [], [] =>
      if code.head? = some '\x7d' then some 0
      else if n.pendingHeader then some (s.bodyIndent n code)
      else some 0
    | [], b :: _ =>
      if code.head? = some '\x7d' then some b.lineIndent
      else if IsLabelOf code b then some (s.labelIndent b)
      else if n.pendingHeader then some (s.bodyIndent n code)
      else some (s.contentIndent b)

/-- The indentation, in columns, of a line of a text. -/
def lineIndent? (s : IndentStyle) (t : Text) (line : Nat) : Option Nat :=
  match Text.lineContent? t line with
  | none => none
  | some content =>
    s.indentBelow? (Nesting.scanLines s (((Text.lines t).take line).map Text.stripNewline))
      (Text.body content)

end IndentStyle

/-! ### Giving lines their indentation -/

/-- What was done to the indentation of a line. -/
structure IndentChange where
  /-- The number of the line. -/
  line : Nat
  /-- Where the line started at that moment. -/
  start : Nat
  /-- How many blanks opened it before. -/
  oldLength : Nat
  /-- How many blanks open it after. -/
  newLength : Nat
  deriving DecidableEq, Repr

/-- Where an offset comes to lie.  An offset among the old blanks comes to lie after the new
ones. -/
def IndentChange.mapOffset (c : IndentChange) (o : Nat) : Nat :=
  if o ≤ c.start then o
  else if o < c.start + c.oldLength then c.start + c.newLength
  else o + c.newLength - c.oldLength

/-- Where an offset comes to lie after several changes, made one after the other. -/
def IndentChange.mapOffsetAll (cs : List IndentChange) (o : Nat) : Nat :=
  cs.foldl (fun o c => c.mapOffset o) o

/-- The change that gives a line of a text its indentation, with the new blanks; nothing when the
line is blank or has it already, or when the indenter leaves the line alone. -/
def IndentStyle.changeFor? (indenter style : IndentStyle) (t : Text) (line : Nat) :
    Option (IndentChange × Text) :=
  match Text.lineContent? t line with
  | none => none
  | some content =>
    if (Text.body content).isEmpty then none
    else
      match indenter.lineIndent? t line with
      | none => none
      | some columns =>
        let old := Text.indentation content
        let new := style.render columns
        if old = new then none
        else some (⟨line, Text.lineStart t line, old.length, new.length⟩, new)

/-- Gives lines their indentation one after the other, with the changes that were made.  The
first line that does not exist ends the run, and so does a replacement that is refused. -/
def Draft.reindent? (indenter style : IndentStyle) (d : Draft) :
    List Nat → Draft × Except EditError (List IndentChange)
  | [] => (d, .ok [])
  | line :: rest =>
    if Text.lineCount d.text ≤ line then (d, .ok [])
    else
      match indenter.changeFor? style d.text line with
      | none => reindent? indenter style d rest
      | some (c, new) =>
        match d.replace? ⟨c.start, c.start + c.oldLength⟩ new with
        | .error e => (d, .error e)
        | .ok d' =>
          match reindent? indenter style d' rest with
          | (d'', .ok cs) => (d'', .ok (c :: cs))
          | (d'', .error e) => (d'', .error e)

/-- Gives lines their indentation one after the other, with the changes that were made.  The
first line that does not exist ends the run. -/
def Draft.reindent (indenter style : IndentStyle) (d : Draft) :
    List Nat → Draft × List IndentChange
  | [] => (d, [])
  | line :: rest =>
    if Text.lineCount d.text ≤ line then (d, [])
    else
      match indenter.changeFor? style d.text line with
      | none => reindent indenter style d rest
      | some (c, new) =>
        let blanks : Span := ⟨c.start, c.start + c.oldLength⟩
        let (d', cs) := reindent indenter style (d.exchange blanks new) rest
        (d', c :: cs)

end Mend
