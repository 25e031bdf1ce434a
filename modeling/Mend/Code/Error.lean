import Mend.Code.Token

/-!
# Errors in code

Why a text is not code that can be worked on, and where.

## Main definitions

* `SyntaxError` — the causes, each with the offset at which it shows.
* `SyntaxError.message` — the error as told to the user.
-/

namespace Mend

/-- What can be left open at the end of a line or of the text. -/
inductive Delimited
  /-- A comment between `/*` and `*/`. -/
  | blockComment
  /-- A string. -/
  | string
  /-- A character. -/
  | character
  deriving DecidableEq, Repr

/-- What was left open, in words. -/
def Delimited.text : Delimited → String
  | .blockComment => "block comment"
  | .string => "string literal"
  | .character => "character literal"

/-- What code must go on with at some place. -/
inductive Expectation
  /-- A token that is spelled in one way. -/
  | token (kind : TokenKind)
  /-- A name. -/
  | name
  /-- The name of a class. -/
  | className
  /-- The name of an enumeration. -/
  | enumName
  /-- The name of an enumerator. -/
  | enumerator
  /-- A declarator. -/
  | declarator
  /-- The type of a parameter. -/
  | parameterType
  /-- A statement. -/
  | statement
  /-- An expression. -/
  | expression
  deriving DecidableEq, Repr

/-- What was expected, in words. -/
def Expectation.text : Expectation → String
  | .token k => "`" ++ k.spelling ++ "`"
  | .name => "name"
  | .className => "class name"
  | .enumName => "enum name"
  | .enumerator => "enumerator"
  | .declarator => "declarator"
  | .parameterType => "parameter type"
  | .statement => "statement"
  | .expression => "expression"

/-- Why a text is not code that can be worked on. -/
inductive SyntaxError
  /-- A character that begins no token. -/
  | unexpectedChar (c : Char) (offset : Nat)
  /-- A literal or comment that does not end. -/
  | unterminated (what : Delimited) (offset : Nat)
  /-- A token, or the end of the text, where something else should be. -/
  | expected (what : Expectation) (found : Option String) (offset : Nat)
  deriving DecidableEq, Repr

namespace SyntaxError

/-- Where the error shows. -/
def offset : SyntaxError → Nat
  | unexpectedChar _ o | unterminated _ o | expected _ _ o => o

/-- The error as told to the user. -/
def message : SyntaxError → String
  | unexpectedChar c o =>
    "unexpected character `" ++ String.ofList [c] ++ "` at offset " ++ toString o
  | unterminated what o =>
    "unterminated " ++ what.text ++ " starting at offset " ++ toString o
  | expected what found o =>
    "expected " ++ what.text ++ " at offset " ++ toString o ++ ", found `" ++
      found.getD "end of file" ++ "`"

end SyntaxError

end Mend
