import Mend.Text.Slice

/-!
# Lines of a live text

A line of a document ends with a line feed, a carriage return, the two of them together (which
make one break), or one of the characters U+000B, U+000C, U+0085, U+2028 and U+2029.  A text that
ends with a break has one more, empty, line after it.

The *content* of a line leaves out a closing line feed, with the carriage return before it if
there is one.  All other breaks count as content.

## Main definitions

* `Text.lines` — the lines of a text, each with its break; `flatten_lines` says nothing is lost.
* `Text.lineStart`, `Text.lineSpan`, `Text.lineContent?` — where a line lies and what it holds.
* `Text.lineOf`, `Text.position`, `Text.offsetAt` — offsets against lines and columns.
-/

namespace Mend

/-- A character that ends a line by itself. -/
def isLineBreak (c : Char) : Bool :=
  c = '\n' || c = '\r' || c = '\x0b' || c = '\x0c' || c = '\u0085' || c = '\u2028' || c = '\u2029'

namespace Text

/-- Puts a character before the first line. -/
def pushChar (c : Char) : List Text → List Text
  | [] => [[c]]
  | l :: rest => (c :: l) :: rest

/-- The lines of a text, each with the break that ends it. -/
def lines : Text → List Text
  | [] => [[]]
  | '\r' :: '\n' :: rest => ['\r', '\n'] :: lines rest
  | c :: rest => if isLineBreak c then [c] :: lines rest else pushChar c (lines rest)

@[simp] theorem flatten_pushChar (c : Char) (ls : List Text) :
    (pushChar c ls).flatten = c :: ls.flatten := by
  cases ls <;> simp [pushChar]

/-- The lines of a text make up the text. -/
@[simp] theorem flatten_lines (t : Text) : (lines t).flatten = t := by
  fun_induction lines t <;> simp_all

@[simp] theorem pushChar_ne_nil (c : Char) (ls : List Text) : pushChar c ls ≠ [] := by
  cases ls <;> simp [pushChar]

/-- Even an empty text has a line. -/
theorem lines_ne_nil (t : Text) : lines t ≠ [] := by
  fun_cases lines t <;> simp

/-- A line without the line feed that ends it, and without the carriage return before that. -/
def stripNewline (l : Text) : Text :=
  match l.reverse with
  | '\n' :: '\r' :: front => front.reverse
  | '\n' :: front => front.reverse
  | _ => l

/-- The number of lines; it is never zero. -/
def lineCount (t : Text) : Nat := (lines t).length

/-- The offset at which a line starts; a line that does not exist starts at the end. -/
def lineStart (t : Text) (line : Nat) : Nat := ((lines t).take line).flatten.length

/-- The content of a line, or nothing when there is no such line. -/
def lineContent? (t : Text) (line : Nat) : Option Text := ((lines t)[line]?).map stripNewline

/-- The number of characters in the content of a line; zero when there is no such line. -/
def lineLength (t : Text) (line : Nat) : Nat := ((lineContent? t line).getD []).length

/-- Where the content of a line lies. -/
def lineSpan (t : Text) (line : Nat) : Span :=
  ⟨lineStart t line, lineStart t line + lineLength t line⟩

/-- The index, among lines, of the line that holds an offset; the last line holds all offsets
from its start on. -/
def lineAmong : List Text → Nat → Nat
  | l :: l' :: rest, o => if o < l.length then 0 else lineAmong (l' :: rest) (o - l.length) + 1
  | _, _ => 0

/-- The line that holds an offset. -/
def lineOf (t : Text) (o : Nat) : Nat := lineAmong (lines t) o

/-- The line and the column of an offset; an offset past the end stands for the end. -/
def position (t : Text) (o : Nat) : Nat × Nat :=
  let o := min o t.length
  (lineOf t o, o - lineStart t (lineOf t o))

/-- The offset of a line and a column.  A column past the content of the line stands for its end,
and a line past the last one for the end of the text. -/
def offsetAt (t : Text) (line column : Nat) : Nat :=
  if line < lineCount t then lineStart t line + min column (lineLength t line) else t.length

end Text

end Mend
