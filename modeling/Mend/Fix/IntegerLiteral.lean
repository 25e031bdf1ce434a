import Mend.Text.Slice

/-!
# Integer literals

An integer is written in base sixteen after `0x`, in base eight after a zero, and otherwise in base
ten.  The letters that tell its type stand after its digits and are left alone when it is written
in another base.

## Main definitions

* `Radix` — the bases.
* `IntegerLiteral` and `IntegerLiteral.read?` — a literal that has been read.
* `IntegerLiteral.conversions` — the other ways to write it.
-/

namespace Mend

/-! ### Digits -/

/-- The value of a digit; letters stand for the digits from ten on. -/
def digitValue? (c : Char) : Option Nat :=
  if c.isDigit then some (c.toNat - '0'.toNat)
  else if c.isLower then some (c.toNat - 'a'.toNat + 10)
  else if c.isUpper then some (c.toNat - 'A'.toNat + 10)
  else none

/-- The value of digits in a base, after digits with the given value. -/
def valueAfter (base n : Nat) : Text → Option Nat
  | [] => some n
  | c :: rest =>
    match digitValue? c with
    | some d => if d < base then valueAfter base (n * base + d) rest else none
    | none => none

/-- The value of digits in a base, if there is at least one.  A plus sign may stand before them. -/
def valueOf? (base : Nat) : Text → Option Nat
  | [] => none
  | '+' :: rest => if rest.isEmpty then none else valueAfter base 0 rest
  | digits => valueAfter base 0 digits

/-- A digit of base sixteen. -/
def isHexDigit (c : Char) : Bool := (digitValue? c).any (· < 16)

/-! ### Literals -/

/-- The bases that an integer can be written in. -/
inductive Radix
  /-- Base sixteen. -/
  | hexadecimal
  /-- Base eight. -/
  | octal
  /-- Base ten. -/
  | decimal
  deriving DecidableEq, Repr

namespace Radix

/-- The number of digits of a base. -/
def base : Radix → Nat
  | hexadecimal => 16
  | octal => 8
  | decimal => 10

/-- A value written in a base. -/
def write (n : Nat) : Radix → Text
  | hexadecimal => '0' :: 'x' :: (Nat.toDigits 16 n).map Char.toUpper
  | octal => '0' :: Nat.toDigits 8 n
  | decimal => Nat.toDigits 10 n

end Radix

/-- An integer literal that has been read. -/
structure IntegerLiteral where
  /-- The characters before the letters that tell the type. -/
  digits : Text
  /-- The base that it is written in. -/
  radix : Radix
  /-- Its value. -/
  value : Nat
  deriving DecidableEq, Repr

namespace IntegerLiteral

/-- The largest value of an integer literal. -/
def largest : Nat := 0xFFFFFFFFFFFFFFFF

/-- A literal that has a fraction or an exponent, and is therefore no integer. -/
def isFraction (spelling : Text) : Bool :=
  let lower := spelling.map Char.toLower
  lower.contains '.' || lower.contains (if "0x".toList.isPrefixOf lower then 'p' else 'e')

/-- The base of digits, and the digits after the sign of the base. -/
def split : Text → Radix × Text
  | '0' :: 'x' :: rest | '0' :: 'X' :: rest => (.hexadecimal, rest)
  | '0' :: c :: rest => (.octal, c :: rest)
  | digits => (.decimal, digits)

/-- Reads a literal.  Whatever follows the last digit of base sixteen counts as the type. -/
def read? (spelling : Text) : Option IntegerLiteral :=
  let digits := (spelling.reverse.dropWhile fun c => !isHexDigit c).reverse
  let (radix, body) := split digits
  if isFraction spelling || digits.isEmpty then none
  else
    match valueOf? radix.base body with
    | some value => if value ≤ largest then some ⟨digits, radix, value⟩ else none
    | none => none

/-- Whether it makes sense to write a literal in a base.  Zero is written in base eight and base
ten alike, and a literal of several decimal digits is in base ten already. -/
def suits (l : IntegerLiteral) : Radix → Bool
  | .hexadecimal => l.radix != .hexadecimal
  | .octal => l.value != 0 && l.radix != .octal
  | .decimal =>
    (l.value != 0 || l.radix == .hexadecimal) &&
      !(l.radix == .decimal && 1 < l.digits.length)

/-- The other ways to write a literal, each with its base. -/
def conversions (l : IntegerLiteral) : List (Radix × Text) :=
  (([Radix.hexadecimal, .octal, .decimal].filter l.suits).map fun r => (r, r.write l.value)).filter
    fun c => c.2 != l.digits

end IntegerLiteral

end Mend
