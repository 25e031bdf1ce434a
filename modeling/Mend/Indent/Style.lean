import Mend.Text.Slice

/-!
# Indentation style

How wide a level of indentation is, and which characters it is made of.

Columns, widths and distances of tab stops are counted without a bound.  The counts of the program
are 64-bit ones that it adds and multiplies as they are, so the two agree as long as no column
passes the largest count.

## Main definitions

* `IndentStyle` — the choices of a style.
* `IndentStyle.render` — the characters for a number of columns.
* `IndentStyle.columnsOf` — the number of columns that characters take up.
-/

namespace Mend

/-- The choices of an indentation style. -/
structure IndentStyle where
  /-- The columns of one level. -/
  width : Nat := 4
  /-- Whether indentation is made of tabs as far as they fit. -/
  useTabs : Bool := false
  /-- The distance between tab stops. -/
  tabWidth : Nat := 8
  /-- Whether `case` labels stand one level deeper than their `switch`. -/
  indentCaseLabels : Bool := false
  /-- Whether access labels stand one level deeper than their class. -/
  indentAccessLabels : Bool := false
  deriving DecidableEq, Repr

namespace IndentStyle

instance : Inhabited IndentStyle := ⟨{}⟩

/-- The column of the next tab stop.  A style without tab stops has one at every column. -/
def nextTabStop (s : IndentStyle) (column : Nat) : Nat :=
  (column / max s.tabWidth 1 + 1) * max s.tabWidth 1

/-- The column after a character. -/
def advance (s : IndentStyle) (column : Nat) (c : Char) : Nat :=
  if c = '\t' then s.nextTabStop column else column + 1

/-- The column after some characters that start at column zero. -/
def columnsOf (s : IndentStyle) (t : Text) : Nat := t.foldl s.advance 0

/-- The characters that take up a number of columns: as many tabs as fit, if the style has tabs,
and spaces for the rest. -/
def render (s : IndentStyle) (columns : Nat) : Text :=
  if s.useTabs ∧ 0 < s.tabWidth then
    List.replicate (columns / s.tabWidth) '\t' ++ List.replicate (columns % s.tabWidth) ' '
  else List.replicate columns ' '

@[simp] theorem columnsOf_nil (s : IndentStyle) : s.columnsOf [] = 0 := rfl

end IndentStyle

end Mend
