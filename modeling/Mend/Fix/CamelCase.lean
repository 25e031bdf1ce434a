import Mend.Text.Letter
import Mend.Text.LetterCase

/-!
# Camel case

A name of several words, joined by underscores, can be written with a capital letter at the start
of each word but the first.  An underscore goes only when a letter follows it, and the one of a
name that begins with `m_` stays.

## Main definitions

* `CamelCase.drops` — whether the underscore at a position goes.
* `CamelCase.applies` — whether a name changes in a way that matters.
* `CamelCase.ofName` — the name in camel case.
-/

namespace Mend

namespace CamelCase

/-- Whether the character at a position of a name is an underscore that goes. -/
def drops (name : Text) (i : Nat) : Bool :=
  name[i]? == some '_' && name[i + 1]?.any isLetter && !(i == 1 && name.head? == some 'm')

/-- Whether an underscore inside a name goes. -/
def applies (name : Text) : Bool :=
  3 ≤ name.length && (List.range (name.length - 1)).any fun i => 0 < i && drops name i

/-- What becomes of the character at a position of a name. -/
def piece (name : Text) (i : Nat) (c : Char) : Text :=
  if i = 0 then [c]
  else if 2 ≤ i ∧ drops name (i - 1) then upperText c
  else if isUpper c then lowerText c
  else if drops name i then []
  else [c]

/-- A name in camel case.  The first character stays as it is, and capital letters inside the words
become small. -/
def ofName (name : Text) : Text := name.zipIdx.flatMap fun p => piece name p.2 p.1

end CamelCase

end Mend
