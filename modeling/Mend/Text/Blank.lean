import Mend.Text.Slice

/-!
# Blank characters

A character is *blank* when it has the Unicode property `White_Space`.  Indentation is the run of
blanks that opens a line.

## Main definitions

* `CharClass.mem` — membership in a class given by the code points at which it begins and ends.
* `isBlank` — the class of blanks.
* `Text.indentation`, `Text.body` — the blanks that open a text, and what follows them.
* `Text.trim` — a text without the blanks at its two ends.
-/

namespace Mend

/-- A class of characters, given by the ascending code points at which membership changes: the
first one opens a run of members, the second one closes it, and so on. -/
abbrev CharClass := List Nat

/-- Membership in a class: the number of changes at or before the code point is odd. -/
def CharClass.mem (n : Nat) : CharClass → Bool
  | [] => false
  | b :: rest => if n < b then false else !(mem n rest)

/-- The runs of the Unicode property `White_Space`. -/
def blanks : CharClass :=
  [
    0x9, 0xE, 0x20, 0x21, 0x85, 0x86, 0xA0, 0xA1, 0x1680, 0x1681, 0x2000, 0x200B, 0x2028,
    0x202A, 0x202F, 0x2030, 0x205F, 0x2060, 0x3000, 0x3001
  ]

/-- A blank character. -/
def isBlank (c : Char) : Bool := CharClass.mem c.toNat blanks

namespace Text

/-- The blanks that open a text. -/
def indentation (t : Text) : Text := t.takeWhile isBlank

/-- What follows the blanks that open a text. -/
def body (t : Text) : Text := t.dropWhile isBlank

/-- A text without the blanks that close it. -/
def trimEnd (t : Text) : Text := (t.reverse.dropWhile isBlank).reverse

/-- A text without the blanks at its two ends. -/
def trim (t : Text) : Text := trimEnd (body t)

@[simp] theorem indentation_append_body (t : Text) : indentation t ++ body t = t :=
  List.takeWhile_append_dropWhile

end Text

end Mend
