import Mend.Code.Error
import Mend.Text.Letter

/-!
# Lexemes

A text falls into *lexemes*: blanks, newlines, comments, preprocessor directives and tokens.  Every
character belongs to exactly one lexeme.  The code proper is made of the tokens alone; of the
directives, only those that include another file are kept.

A `#` opens a directive only when no token stands before it on its line.  A directive ends with its
line, but a backslash before the newline carries it on.  A literal ends on the line it begins on,
unless a backslash hides the newline.

## Main definitions

* `Lexeme` — a piece of a text and its class.
* `Lexeme.scan` — the class and the length of the piece that opens a text.
* `Lexeme.split` — all pieces of a text; `texts_splitFrom` says that they make up the text.
* `Include`, `Lexed`, `Lexed.ofText` — the included files, and the tokens of a text.
-/

namespace Mend

/-- The classes of lexemes. -/
inductive LexemeClass
  /-- The end of a line. -/
  | newline
  /-- A blank character. -/
  | blank
  /-- A comment. -/
  | comment
  /-- A preprocessor directive. -/
  | directive
  /-- A token of the given kind. -/
  | token (kind : TokenKind)
  deriving DecidableEq, Repr

/-- A piece of a text. -/
structure Lexeme where
  /-- What it is. -/
  kind : LexemeClass
  /-- Where it starts. -/
  start : Nat
  /-- Its characters. -/
  text : Text
  deriving DecidableEq, Repr

namespace Lexeme

/-! ### How far pieces reach -/

/-- The number of characters up to the newline. -/
def restOfLine (t : Text) : Nat := (t.takeWhile (· != '\n')).length

/-- The number of characters up to the end of a block comment, its end included. -/
def restOfComment? : Text → Option Nat
  | [] => none
  | '*' :: '/' :: _ => some 2
  | _ :: rest => (restOfComment? rest).map (· + 1)

/-- The number of characters up to the end of a directive, after the given character of it. -/
def restOfDirective (last : Char) : Text → Nat
  | [] => 0
  | c :: rest => if c = '\n' ∧ last ≠ '\\' then 0 else restOfDirective c rest + 1

/-- The number of characters up to the end of a literal, its quotation mark included. -/
def restOfLiteral? (quote : Char) : Text → Option Nat
  | [] => none
  | '\n' :: _ => none
  | '\\' :: _ :: rest => (restOfLiteral? quote rest).map (· + 2)
  | c :: rest => if c = quote then some 1 else (restOfLiteral? quote rest).map (· + 1)

/-- The number of characters up to the end of a number, after the given character of it.  A sign
belongs to a number after an exponent letter, which a hexadecimal number does not have. -/
def restOfNumber (hex : Bool) (last : Char) : Text → Nat
  | [] => 0
  | c :: rest =>
    if c.isAlphanum ∨ c = '_' ∨ c = '.' ∨
        ((c = '+' ∨ c = '-') ∧ !hex ∧ (last = 'e' ∨ last = 'E')) then
      restOfNumber hex c rest + 1
    else 0

/-- The number of characters up to the end of a word. -/
def restOfWord (t : Text) : Nat := (t.takeWhile isWordChar).length

/-- A number in hexadecimal notation, told from its first two characters. -/
def isHex (first : Char) (rest : Text) : Bool :=
  first == '0' && (rest.head? == some 'x' || rest.head? == some 'X')

/-- The punctuation that opens a text, and how many characters follow its first one.  The longest
punctuation counts. -/
def scanPunctuator? (first : Char) (rest : Text) : Option (TokenKind × Nat) :=
  [2, 1, 0].findSome? fun n =>
    if n ≤ rest.length then
      (TokenKind.punctuator? (String.ofList (first :: rest.take n))).map (·, n)
    else none

/-! ### Splitting a text -/

/-- Why a text has no first piece. -/
inductive Fault
  /-- Its first character begins nothing. -/
  | unexpectedChar
  /-- What it begins does not end. -/
  | unterminated (what : Delimited)
  deriving DecidableEq, Repr

/-- The piece that opens a text with the given first character: its class, and how many characters
follow the first one. -/
def scan (atLineStart : Bool) (first : Char) (rest : Text) :
    Except Fault (LexemeClass × Nat) :=
  if first = '\n' then .ok (.newline, 0)
  else if isBlank first then .ok (.blank, 0)
  else if first = '/' ∧ rest.head? = some '/' then .ok (.comment, restOfLine rest)
  else if first = '/' ∧ rest.head? = some '*' then
    match restOfComment? rest.tail with
    | some n => .ok (.comment, n + 1)
    | none => .error (.unterminated .blockComment)
  else if first = '#' ∧ atLineStart then .ok (.directive, restOfDirective first rest)
  else if first = '\x22' then
    match restOfLiteral? first rest with
    | some n => .ok (.token .stringLiteral, n)
    | none => .error (.unterminated .string)
  else if first = '\x27' then
    match restOfLiteral? first rest with
    | some n => .ok (.token .charLiteral, n)
    | none => .error (.unterminated .character)
  else if first.isDigit ∨ (first = '.' ∧ rest.head?.any Char.isDigit) then
    .ok (.token .numericLiteral, restOfNumber (isHex first rest) first rest)
  else if first = '_' ∨ isLetter first then
    let n := restOfWord rest
    let kind := TokenKind.keyword? (String.ofList (first :: rest.take n))
    .ok (.token (kind.getD .identifier), n)
  else
    match scanPunctuator? first rest with
    | some (kind, n) => .ok (.token kind, n)
    | none => .error .unexpectedChar

/-- Whether no token stands on the line so far, after a piece of the given class. -/
def lineStartAfter (atLineStart : Bool) : LexemeClass → Bool
  | .newline => true
  | .token _ => false
  | _ => atLineStart

/-- The pieces of a text that lies at an offset. -/
def splitFrom (atLineStart : Bool) (offset : Nat) : Text → Except SyntaxError (List Lexeme)
  | [] => .ok []
  | c :: rest =>
    match scan atLineStart c rest with
    | .error .unexpectedChar => .error (.unexpectedChar c offset)
    | .error (.unterminated what) => .error (.unterminated what offset)
    | .ok (kind, n) =>
      let text := c :: rest.take n
      match splitFrom (lineStartAfter atLineStart kind) (offset + text.length) (rest.drop n) with
      | .error e => .error e
      | .ok pieces => .ok (⟨kind, offset, text⟩ :: pieces)
termination_by t => t.length
decreasing_by simp only [List.length_drop, List.length_cons]; omega

/-- The pieces of a text. -/
def split (t : Text) : Except SyntaxError (List Lexeme) := splitFrom true 0 t

theorem texts_splitFrom {b : Bool} {o : Nat} {t : Text} {ls : List Lexeme}
    (h : splitFrom b o t = .ok ls) : (ls.map (·.text)).flatten = t := by
  fun_induction splitFrom b o t generalizing ls with
  | case1 => cases h; rfl
  | case2 | case3 | case4 => cases h
  | case5 _ _ c rest _ n _ _ _ hrest =>
    rename_i ih
    cases h
    show (c :: rest.take n) ++ _ = _
    simp [ih hrest]

/-- The token that a piece is, if it is one. -/
def token? (l : Lexeme) : Option Token :=
  match l.kind with
  | .token k => some ⟨k, ⟨l.start, l.start + l.text.length⟩, String.ofList l.text⟩
  | _ => none

/-- The number of lines that end within a piece.  A newline that is hidden in a literal ends no
line. -/
def lineBreaks (l : Lexeme) : Nat :=
  match l.kind with
  | .token _ => 0
  | _ => l.text.count '\n'

end Lexeme

/-! ### Included files -/

/-- A directive that includes a file. -/
structure Include where
  /-- The file, as it is written. -/
  path : String
  /-- Whether the file stands between angle brackets. -/
  angled : Bool
  /-- The number of the line, counted from one. -/
  line : Nat
  /-- Where the directive lies. -/
  span : Span
  deriving DecidableEq, Repr

/-- What follows a word that opens a text. -/
def Text.afterWord? (word t : Text) : Option Text :=
  if word.isPrefixOf t then some (t.drop word.length) else none

/-- The file of a directive, and whether it stands between angle brackets.  The file ends at the
first angle bracket or quotation mark, whichever way it was opened. -/
def Include.target? (directive : Text) : Option (Text × Bool) :=
  match (Text.afterWord? "include".toList (Text.body directive.tail)).map Text.body with
  | some (c :: rest) =>
    if c = '<' ∨ c = '\x22' then
      let isEnd (c : Char) : Bool := c = '>' || c = '\x22'
      let path := rest.takeWhile (!isEnd ·)
      if path.isEmpty ∨ path.length = rest.length then none else some (path, c = '<')
    else none
  | _ => none

/-- The included files of pieces, the first of which starts on the given line. -/
def Include.ofLexemes (line : Nat) : List Lexeme → List Include
  | [] => []
  | l :: rest =>
    let others := ofLexemes (line + l.lineBreaks) rest
    match l.kind, target? l.text with
    | .directive, some (path, angled) =>
      ⟨String.ofList path, angled, line, ⟨l.start, l.start + l.text.length⟩⟩ :: others
    | _, _ => others

/-! ### Lexed texts -/

/-- The tokens of a text, and the files it includes. -/
structure Lexed where
  /-- The tokens, in order. -/
  tokens : List Token
  /-- The included files, in order. -/
  includes : List Include
  deriving DecidableEq, Repr

/-- The tokens and included files of a text. -/
def Lexed.ofText (t : Text) : Except SyntaxError Lexed :=
  match Lexeme.split t with
  | .ok pieces => .ok ⟨pieces.filterMap Lexeme.token?, Include.ofLexemes 1 pieces⟩
  | .error e => .error e

end Mend
