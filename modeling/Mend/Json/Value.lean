import Mend.Text.Slice

/-!
# JSON values

A JSON value as settings files are read and written.  Two things about JSON text are kept apart
that other readers merge: a number written as a plain count, without sign, fraction and exponent,
is told from all other numbers; and a string that escapes half of a surrogate pair, which stands
for no character, is told from a text.

## Main definitions

* `Json` — a value.
* `Json.pretty` — a value as text, two blanks deeper for each level.
-/

namespace Mend

/-- A JSON value. -/
inductive Json
  /-- The value `null`. -/
  | null
  /-- A truth value. -/
  | bool (b : Bool)
  /-- A number written as a plain count. -/
  | count (n : Nat)
  /-- Any other number, as it was spelled. -/
  | number (spelling : Text)
  /-- A string; `none` for one that is no text. -/
  | string (s : Option String)
  /-- An array. -/
  | array (items : List Json)
  /-- An object, its members in the order they were written. -/
  | object (members : List (Option String × Json))

namespace Json

instance : Inhabited Json := ⟨.null⟩

/-! ### Writing -/

/-- A hexadecimal digit in lower case. -/
def hexDigit (n : Nat) : Char := (Nat.digitChar n)

/-- A character within a string.  Quotation marks, backslashes and control characters are
escaped, and nothing else is. -/
def escapeChar (c : Char) : Text :=
  if c = '\x22' then ['\\', '\x22']
  else if c = '\\' then ['\\', '\\']
  else if c = '\x08' then ['\\', 'b']
  else if c = '\x0c' then ['\\', 'f']
  else if c = '\n' then ['\\', 'n']
  else if c = '\r' then ['\\', 'r']
  else if c = '\t' then ['\\', 't']
  else if c.toNat < 0x20 then
    ['\\', 'u', '0', '0', hexDigit (c.toNat / 16), hexDigit (c.toNat % 16)]
  else [c]

/-- A string with its quotation marks.  One that is no text is written as such a one again. -/
def quote : Option String → Text
  | some s => '\x22' :: (s.toList.flatMap escapeChar ++ ['\x22'])
  | none => '\x22' :: ("\\ud800".toList ++ ['\x22'])

/-- The start of a line at a level. -/
def newLine (level : Nat) : Text := '\n' :: List.replicate (2 * level) ' '

mutual

/-- A value that starts on a line of the given level. -/
def prettyAt (level : Nat) : Json → Text
  | .null => "null".toList
  | .bool b => if b then "true".toList else "false".toList
  | .count n => (toString n).toList
  | .number spelling => spelling
  | .string s => quote s
  | .array [] => ['[', ']']
  | .array (v :: rest) =>
    '[' :: (newLine (level + 1) ++ (prettyAt (level + 1) v ++
      (prettyItems (level + 1) rest ++ (newLine level ++ [']']))))
  | .object [] => ['\x7b', '\x7d']
  | .object ((k, v) :: rest) =>
    '\x7b' :: (newLine (level + 1) ++ (quote k ++ (':' :: ' ' :: (prettyAt (level + 1) v ++
      (prettyMembers (level + 1) rest ++ (newLine level ++ ['\x7d']))))))

/-- The items of an array after the first one, each on a line of its own. -/
def prettyItems (level : Nat) : List Json → Text
  | [] => []
  | v :: rest => ',' :: (newLine level ++ (prettyAt level v ++ prettyItems level rest))

/-- The members of an object after the first one, each on a line of its own. -/
def prettyMembers (level : Nat) : List (Option String × Json) → Text
  | [] => []
  | (k, v) :: rest =>
    ',' :: (newLine level ++ (quote k ++ (':' :: ' ' :: (prettyAt level v ++
      prettyMembers level rest))))

end

/-- A value as text. -/
def pretty (v : Json) : Text := prettyAt 0 v

end Json

end Mend
