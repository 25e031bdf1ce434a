import Mend.Indent.Style
import Mend.Text.Letter

/-!
# What a line is nested in

The indentation of a line of code depends on what is still open above it: braces, parentheses, a
block comment, the header of a control statement.  The scan reads the lines above from the top and
keeps a record of this.  It skips comments, the insides of string and character literals, and
preprocessor lines; a literal ends with its line at the latest.

## Main definitions

* `BraceKind`, `OpenBrace` — what a brace opens, and where it stands.
* `Nesting` — what is open at a point of the code.
* `Nesting.scanLine`, `Nesting.scanLines` — reading one line, and all lines above a line.
-/

namespace Mend

/-! ### Words at the head of a statement -/

/-- What a brace opens. -/
inductive BraceKind
  /-- A block of statements, or anything else without labels of its own. -/
  | block
  /-- The body of a `switch`. -/
  | switchBody
  /-- The body of a class. -/
  | classBody
  /-- The body of a namespace. -/
  | namespaceBody
  deriving DecidableEq, Repr

/-- What a brace opens, told from the code between the statement before it and the brace. -/
def BraceKind.ofHead (head : Text) : BraceKind :=
  let words := head.words.map String.ofList
  let hasParen := head.contains '('
  match words.head? with
  | some "switch" => .switchBody
  | some "namespace" => .namespaceBody
  | some "class" | some "struct" | some "union" => if hasParen then .block else .classBody
  | some "template" => if words.contains "class" && !hasParen then .classBody else .block
  | _ => .block

namespace Text

/-- Code that opens with a word of a list. -/
def startsWithWord (t : Text) (ws : List String) : Bool :=
  ws.contains (String.ofList t.firstWord)

/-- A `case` or `default` label. -/
def isCaseLabel (t : Text) : Bool := startsWithWord t ["case", "default"]

/-- An access label of a class: it opens with an access word and has a colon, but no name that is
qualified by two colons. -/
def isAccessLabel (t : Text) : Bool :=
  startsWithWord t
    ["public", "protected", "private", "signals", "slots", "Q_SIGNALS", "Q_SLOTS"] &&
    t.contains ':' && !holds t [':', ':']

/-- Code that a colon turns into a label. -/
def isLabelHead (t : Text) : Bool := isCaseLabel t || isAccessLabel (t ++ [':'])

/-- The header of a control statement whose body is still to come. -/
def isControlHeader (t : Text) : Bool :=
  let word := String.ofList t.firstWord
  let closed := t.getLast? == some ')'
  if word == "if" || word == "while" || word == "for" then closed
  else if word == "else" then
    t == "else".toList || ("else if".toList.isPrefixOf t && closed)
  else word == "do" && t == "do".toList

end Text

/-! ### The state of the scan -/

/-- A brace that is not closed yet. -/
structure OpenBrace where
  /-- What it opens. -/
  kind : BraceKind
  /-- The indentation of the line it stands on, in columns. -/
  lineIndent : Nat
  deriving DecidableEq, Repr

/-- What is open at a point of the code. -/
structure Nesting where
  /-- The open braces, the innermost first. -/
  braces : List OpenBrace := []
  /-- The column after each open parenthesis and bracket, the innermost first. -/
  parens : List Nat := []
  /-- Whether a block comment is open. -/
  inComment : Bool := false
  /-- The code of the statement being read, the last character first. -/
  headReversed : Text := []
  /-- The indentation of the last line with code on it, in columns. -/
  lastIndent : Nat := 0
  /-- Whether the last line with code on it is the header of a control statement. -/
  pendingHeader : Bool := false
  deriving DecidableEq, Repr

namespace Nesting

/-- The code of the statement being read. -/
def head (n : Nesting) : Text := n.headReversed.reverse

/-- Adds a character to the statement being read. -/
def extend (n : Nesting) (c : Char) : Nesting := { n with headReversed := c :: n.headReversed }

/-- Begins a new statement. -/
def endStatement (n : Nesting) : Nesting := { n with headReversed := [] }

/-- Reads a character of code, outside comments and literals. -/
def readCode (n : Nesting) (lineIndent column : Nat) (c : Char) : Nesting :=
  if c = '\x7b' then
    { n with braces := ⟨BraceKind.ofHead n.head, lineIndent⟩ :: n.braces }.endStatement
  else if c = '\x7d' then { n with braces := n.braces.tail }.endStatement
  else if c = ';' ∧ n.parens = [] then n.endStatement
  else if c = '(' ∨ c = '[' then { n with parens := (column + 1) :: n.parens }.extend c
  else if c = ')' ∨ c = ']' then { n with parens := n.parens.tail }.extend c
  else if c = ':' ∧ n.head.trim.isLabelHead then n.endStatement
  else n.extend c

/-- What the characters of a line are read as. -/
inductive ScanMode
  /-- Code. -/
  | code
  /-- The inside of a block comment. -/
  | comment
  /-- The inside of a literal with the given quotation mark. -/
  | literal (quote : Char)
  deriving DecidableEq, Repr

/-- Reads the characters of a line from a column on.  A backslash in a literal hides the character
after it. -/
def readChars (style : IndentStyle) (lineIndent : Nat) :
    ScanMode → Nat → Nesting → Text → Nesting
  | mode, _, n, [] => { n with inComment := mode == .comment }
  | .comment, column, n, '*' :: '/' :: rest =>
    readChars style lineIndent .code (column + 2) n rest
  | .comment, column, n, c :: rest =>
    readChars style lineIndent .comment (style.advance column c) n rest
  | .literal q, column, n, '\\' :: _ :: rest =>
    readChars style lineIndent (.literal q) (column + 2) n rest
  | .literal q, column, n, c :: rest =>
    readChars style lineIndent (if c = q then .code else .literal q) (style.advance column c) n rest
  | .code, _, n, '/' :: '/' :: _ => { n with inComment := false }
  | .code, column, n, '/' :: '*' :: rest =>
    readChars style lineIndent .comment (column + 2) n rest
  | .code, column, n, c :: rest =>
    if c = '\x22' ∨ c = '\x27' then
      readChars style lineIndent (.literal c) (style.advance column c) (n.extend c) rest
    else
      readChars style lineIndent .code (style.advance column c)
        (n.readCode lineIndent column c) rest

/-- Reads a line.  Blank lines and, outside comments, preprocessor lines change nothing; a line
that lies within a comment as a whole has no code on it. -/
def scanLine (style : IndentStyle) (n : Nesting) (line : Text) : Nesting :=
  let code := line.body
  if (!n.inComment && code.head? == some '#') || code.isEmpty then n
  else
    let lineIndent := style.columnsOf line.indentation
    let after := readChars style lineIndent (if n.inComment then .comment else .code) 0 n line
    if after.inComment && n.inComment then after
    else
      let after := after.extend ' '
      { after with
        lastIndent := lineIndent
        pendingHeader := after.parens.isEmpty && after.head.trim.isControlHeader }

/-- Reads lines from the top of a text. -/
def scanLines (style : IndentStyle) (ls : List Text) : Nesting := ls.foldl (scanLine style) {}

end Nesting

end Mend
