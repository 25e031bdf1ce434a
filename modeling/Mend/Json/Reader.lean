import Mend.Json.Value

/-!
# Reading JSON

The reader is strict: only blanks, tabs and line ends may stand between the parts of a value, and
nothing else may stand before or after it.  There are no comments and no trailing commas, and
control characters must be escaped.

## Main definitions

* `Json.read?` — the value of a text.
* `Json.readString?`, `Json.readNumber?` — the two kinds of parts with a spelling of their own.
-/

namespace Mend

namespace Json

/-- A blank between the parts of a value. -/
def isGap (c : Char) : Bool := c = ' ' || c = '\t' || c = '\n' || c = '\r'

/-- A text without the blanks that open it. -/
def skipGap (t : Text) : Text := t.dropWhile isGap

/-! ### Strings -/

/-- A part of a string as it was written. -/
inductive StringPart
  /-- A character that stands for itself, or an escape by one character. -/
  | char (c : Char)
  /-- An escape by four hexadecimal digits. -/
  | unit (n : Nat)
  deriving DecidableEq, Repr

/-- The value of a hexadecimal digit. -/
def hexValue? (c : Char) : Option Nat :=
  if '0' ≤ c ∧ c ≤ '9' then some (c.toNat - '0'.toNat)
  else if 'a' ≤ c ∧ c ≤ 'f' then some (c.toNat - 'a'.toNat + 10)
  else if 'A' ≤ c ∧ c ≤ 'F' then some (c.toNat - 'A'.toNat + 10)
  else none

/-- The value of four hexadecimal digits. -/
def hexUnit? (a b c d : Char) : Option Nat :=
  match hexValue? a, hexValue? b, hexValue? c, hexValue? d with
  | some a, some b, some c, some d => some (((a * 16 + b) * 16 + c) * 16 + d)
  | _, _, _, _ => none

/-- The character that an escape by one character stands for. -/
def escaped? (c : Char) : Option Char :=
  if c = '\x22' ∨ c = '\\' ∨ c = '/' then some c
  else if c = 'b' then some '\x08'
  else if c = 'f' then some '\x0c'
  else if c = 'n' then some '\n'
  else if c = 'r' then some '\r'
  else if c = 't' then some '\t'
  else none

/-- The parts of a string after its opening quotation mark, and what follows the closing one. -/
def readParts? : Text → Option (List StringPart × Text)
  | [] => none
  | '\\' :: 'u' :: a :: b :: c :: d :: rest =>
    match hexUnit? a b c d, readParts? rest with
    | some n, some (parts, rest) => some (.unit n :: parts, rest)
    | _, _ => none
  | '\\' :: c :: rest =>
    match escaped? c, readParts? rest with
    | some c, some (parts, rest) => some (.char c :: parts, rest)
    | _, _ => none
  | c :: rest =>
    if c = '\x22' then some ([], rest)
    else if c.toNat < 0x20 ∨ c = '\\' then none
    else
      match readParts? rest with
      | some (parts, rest) => some (.char c :: parts, rest)
      | none => none

/-- The first half of a surrogate pair. -/
def isLeadUnit (n : Nat) : Bool := 0xD800 ≤ n && n < 0xDC00

/-- The second half of a surrogate pair. -/
def isTrailUnit (n : Nat) : Bool := 0xDC00 ≤ n && n < 0xE000

/-- The text that parts spell, unless half of a surrogate pair stands alone. -/
def textOfParts? : List StringPart → Option Text
  | [] => some []
  | .char c :: rest => (textOfParts? rest).map (c :: ·)
  | .unit n :: .unit m :: rest =>
    if isLeadUnit n then
      if isTrailUnit m then
        (textOfParts? rest).map
          (Char.ofNat (0x10000 + (n - 0xD800) * 0x400 + (m - 0xDC00)) :: ·)
      else none
    else if isTrailUnit n then none
    else (textOfParts? (.unit m :: rest)).map (Char.ofNat n :: ·)
  | .unit n :: rest =>
    if isLeadUnit n || isTrailUnit n then none
    else (textOfParts? rest).map (Char.ofNat n :: ·)

/-- A string after its opening quotation mark, and what follows the closing one. -/
def readString? (t : Text) : Option (Option String × Text) :=
  (readParts? t).map fun p => ((textOfParts? p.1).map String.ofList, p.2)

/-! ### Numbers -/

/-- A decimal digit. -/
def isDigit (c : Char) : Bool := '0' ≤ c && c ≤ '9'

/-- The digits that open a text, and what follows them; there must be a digit. -/
def readDigits? (t : Text) : Option (Text × Text) :=
  let digits := t.takeWhile isDigit
  if digits.isEmpty then none else some (digits, t.dropWhile isDigit)

/-- The digits before the point: no zero opens several digits. -/
def readWhole? (t : Text) : Option (Text × Text) :=
  match readDigits? t with
  | some (digits, rest) => if 1 < digits.length ∧ digits.head? = some '0' then none
    else some (digits, rest)
  | none => none

/-- The point and the digits after it, if there is a point. -/
def readFraction? : Text → Option (Text × Text)
  | '.' :: rest => (readDigits? rest).map fun p => ('.' :: p.1, p.2)
  | t => some ([], t)

/-- The exponent, if there is one. -/
def readExponent? : Text → Option (Text × Text)
  | [] => some ([], [])
  | c :: rest =>
    if c = 'e' ∨ c = 'E' then
      match rest with
      | '+' :: rest => (readDigits? rest).map fun p => (c :: '+' :: p.1, p.2)
      | '-' :: rest => (readDigits? rest).map fun p => (c :: '-' :: p.1, p.2)
      | rest => (readDigits? rest).map fun p => (c :: p.1, p.2)
    else some ([], c :: rest)

/-- The number that decimal digits spell. -/
def digitsValue (digits : Text) : Nat :=
  digits.foldl (fun n c => n * 10 + (c.toNat - '0'.toNat)) 0

/-- The sign, if there is one. -/
def readSign : Text → Text × Text
  | '-' :: rest => (['-'], rest)
  | t => ([], t)

/-- A number, and what follows it. -/
def readNumber? (t : Text) : Option (Json × Text) :=
  let (sign, t) := readSign t
  match readWhole? t with
  | none => none
  | some (whole, t) =>
    match readFraction? t with
    | none => none
    | some (fraction, t) =>
      match readExponent? t with
      | none => none
      | some (exponent, t) =>
        if sign.isEmpty && fraction.isEmpty && exponent.isEmpty then
          some (.count (digitsValue whole), t)
        else some (.number (sign ++ whole ++ fraction ++ exponent), t)

/-! ### Values -/

/-- What follows a piece that opens a text. -/
def after? (piece t : Text) : Option Text :=
  if piece.isPrefixOf t then some (t.drop piece.length) else none

/-- A value without parts of its own, and what follows it. -/
def readLeaf? (t : Text) : Option (Json × Text) :=
  match t with
  | '\x22' :: rest => (readString? rest).map fun p => (.string p.1, p.2)
  | _ =>
    match after? "null".toList t, after? "true".toList t, after? "false".toList t with
    | some rest, _, _ => some (.null, rest)
    | _, some rest, _ => some (.bool true, rest)
    | _, _, some rest => some (.bool false, rest)
    | none, none, none => readNumber? t

mutual

/-- A value of at most `n` characters, and what follows it. -/
def readValue? : Nat → Text → Option (Json × Text)
  | 0, _ => none
  | n + 1, t =>
    match skipGap t with
    | '[' :: rest =>
      match skipGap rest with
      | ']' :: rest => some (.array [], rest)
      | rest => (readItems? n rest).map fun p => (.array p.1, p.2)
    | '\x7b' :: rest =>
      match skipGap rest with
      | '\x7d' :: rest => some (.object [], rest)
      | rest => (readMembers? n rest).map fun p => (.object p.1, p.2)
    | t => readLeaf? t

/-- The items of an array up to its end, in at most `n` characters, and what follows them. -/
def readItems? : Nat → Text → Option (List Json × Text)
  | 0, _ => none
  | n + 1, t =>
    match readValue? n t with
    | none => none
    | some (v, rest) =>
      match skipGap rest with
      | ',' :: rest => (readItems? n rest).map fun p => (v :: p.1, p.2)
      | ']' :: rest => some ([v], rest)
      | _ => none

/-- The members of an object up to its end, in at most `n` characters, and what follows them. -/
def readMembers? : Nat → Text → Option (List (Option String × Json) × Text)
  | 0, _ => none
  | n + 1, t =>
    match skipGap t with
    | '\x22' :: rest =>
      match readString? rest with
      | none => none
      | some (k, rest) =>
        match skipGap rest with
        | ':' :: rest =>
          match readValue? n rest with
          | none => none
          | some (v, rest) =>
            match skipGap rest with
            | ',' :: rest => (readMembers? n rest).map fun p => ((k, v) :: p.1, p.2)
            | '\x7d' :: rest => some ([(k, v)], rest)
            | _ => none
        | _ => none
    | _ => none

end

/-- The value of a text that holds one value and nothing else. -/
def read? (t : Text) : Option Json :=
  match readValue? (t.length + 1) t with
  | some (v, rest) => if (skipGap rest).isEmpty then some v else none
  | none => none

end Json

end Mend
