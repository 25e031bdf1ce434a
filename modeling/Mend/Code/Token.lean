import Mend.Text.Slice

/-!
# Tokens

The words of the code: names, literals, punctuation and keywords.  A token knows where it lies in
the text and how it is spelled there.

## Main definitions

* `TokenKind` — the kinds of tokens.
* `keywords`, `punctuators` — how keywords and punctuation are spelled.
* `TokenKind.keyword?`, `TokenKind.punctuator?`, `TokenKind.spelling` — from a spelling to a kind
  and back.
* `Token` — a token in a text.
-/

namespace Mend

/-- The kinds of tokens. -/
inductive TokenKind
  /-- A name. -/
  | identifier
  /-- A number. -/
  | numericLiteral
  /-- A character in single quotation marks. -/
  | charLiteral
  /-- A string in double quotation marks. -/
  | stringLiteral
  /-- The token written `@`. -/
  | atSign
  /-- The token written `(`. -/
  | lParen
  /-- The token written `)`. -/
  | rParen
  /-- The token written as an opening brace. -/
  | lBrace
  /-- The token written as a closing brace. -/
  | rBrace
  /-- The token written `[`. -/
  | lBracket
  /-- The token written `]`. -/
  | rBracket
  /-- The token written `;`. -/
  | semicolon
  /-- The token written `:`. -/
  | colon
  /-- The token written `::`. -/
  | colonColon
  /-- The token written `,`. -/
  | comma
  /-- The token written `.`. -/
  | dot
  /-- The token written `->`. -/
  | arrow
  /-- The token written `?`. -/
  | question
  /-- The token written `...`. -/
  | ellipsis
  /-- The token written `=`. -/
  | equal
  /-- The token written `+=`. -/
  | plusEqual
  /-- The token written `-=`. -/
  | minusEqual
  /-- The token written `*=`. -/
  | starEqual
  /-- The token written `/=`. -/
  | slashEqual
  /-- The token written `%=`. -/
  | percentEqual
  /-- The token written `&=`. -/
  | ampEqual
  /-- The token written `|=`. -/
  | pipeEqual
  /-- The token written `^=`. -/
  | caretEqual
  /-- The token written `<<=`. -/
  | lessLessEqual
  /-- The token written `>>=`. -/
  | greaterGreaterEqual
  /-- The token written `+`. -/
  | plus
  /-- The token written `-`. -/
  | minus
  /-- The token written `*`. -/
  | star
  /-- The token written `/`. -/
  | slash
  /-- The token written `%`. -/
  | percent
  /-- The token written `&`. -/
  | amp
  /-- The token written `&&`. -/
  | ampAmp
  /-- The token written `|`. -/
  | pipe
  /-- The token written `||`. -/
  | pipePipe
  /-- The token written `^`. -/
  | caret
  /-- The token written `~`. -/
  | tilde
  /-- The token written `!`. -/
  | exclaim
  /-- The token written `<`. -/
  | less
  /-- The token written `<=`. -/
  | lessEqual
  /-- The token written `>`. -/
  | greater
  /-- The token written `>=`. -/
  | greaterEqual
  /-- The token written `==`. -/
  | equalEqual
  /-- The token written `!=`. -/
  | exclaimEqual
  /-- The token written `<<`. -/
  | lessLess
  /-- The token written `>>`. -/
  | greaterGreater
  /-- The token written `++`. -/
  | plusPlus
  /-- The token written `--`. -/
  | minusMinus
  /-- The keyword `auto`. -/
  | kwAuto
  /-- The keyword `bool`. -/
  | kwBool
  /-- The keyword `break`. -/
  | kwBreak
  /-- The keyword `case`. -/
  | kwCase
  /-- The keyword `char`. -/
  | kwChar
  /-- The keyword `class`. -/
  | kwClass
  /-- The keyword `const`. -/
  | kwConst
  /-- The keyword `continue`. -/
  | kwContinue
  /-- The keyword `default`. -/
  | kwDefault
  /-- The keyword `delete`. -/
  | kwDelete
  /-- The keyword `do`. -/
  | kwDo
  /-- The keyword `double`. -/
  | kwDouble
  /-- The keyword `else`. -/
  | kwElse
  /-- The keyword `enum`. -/
  | kwEnum
  /-- The keyword `explicit`. -/
  | kwExplicit
  /-- The keyword `extern`. -/
  | kwExtern
  /-- The keyword `false`. -/
  | kwFalse
  /-- The keyword `float`. -/
  | kwFloat
  /-- The keyword `for`. -/
  | kwFor
  /-- The keyword `if`. -/
  | kwIf
  /-- The keyword `inline`. -/
  | kwInline
  /-- The keyword `int`. -/
  | kwInt
  /-- The keyword `long`. -/
  | kwLong
  /-- The keyword `mutable`. -/
  | kwMutable
  /-- The keyword `namespace`. -/
  | kwNamespace
  /-- The keyword `new`. -/
  | kwNew
  /-- The keyword `private`. -/
  | kwPrivate
  /-- The keyword `protected`. -/
  | kwProtected
  /-- The keyword `public`. -/
  | kwPublic
  /-- The keyword `return`. -/
  | kwReturn
  /-- The keyword `short`. -/
  | kwShort
  /-- The keyword `signals`. -/
  | kwSignals
  /-- The keyword `signed`. -/
  | kwSigned
  /-- The keyword `sizeof`. -/
  | kwSizeof
  /-- The keyword `slots`. -/
  | kwSlots
  /-- The keyword `static`. -/
  | kwStatic
  /-- The keyword `struct`. -/
  | kwStruct
  /-- The keyword `switch`. -/
  | kwSwitch
  /-- The keyword `this`. -/
  | kwThis
  /-- The keyword `true`. -/
  | kwTrue
  /-- The keyword `typedef`. -/
  | kwTypedef
  /-- The keyword `union`. -/
  | kwUnion
  /-- The keyword `unsigned`. -/
  | kwUnsigned
  /-- The keyword `virtual`. -/
  | kwVirtual
  /-- The keyword `void`. -/
  | kwVoid
  /-- The keyword `volatile`. -/
  | kwVolatile
  /-- The keyword `while`. -/
  | kwWhile
  deriving DecidableEq, Repr

/-- How punctuation is spelled. -/
def punctuators : List (String × TokenKind) :=
  [
    ("@", .atSign), ("(", .lParen), (")", .rParen), ("\x7b", .lBrace), ("\x7d", .rBrace),
    ("[", .lBracket), ("]", .rBracket), (";", .semicolon), (":", .colon), ("::", .colonColon),
    (",", .comma), (".", .dot), ("->", .arrow), ("?", .question), ("...", .ellipsis),
    ("=", .equal), ("+=", .plusEqual), ("-=", .minusEqual), ("*=", .starEqual),
    ("/=", .slashEqual), ("%=", .percentEqual), ("&=", .ampEqual), ("|=", .pipeEqual),
    ("^=", .caretEqual), ("<<=", .lessLessEqual), (">>=", .greaterGreaterEqual), ("+", .plus),
    ("-", .minus), ("*", .star), ("/", .slash), ("%", .percent), ("&", .amp), ("&&", .ampAmp),
    ("|", .pipe), ("||", .pipePipe), ("^", .caret), ("~", .tilde), ("!", .exclaim), ("<", .less),
    ("<=", .lessEqual), (">", .greater), (">=", .greaterEqual), ("==", .equalEqual),
    ("!=", .exclaimEqual), ("<<", .lessLess), (">>", .greaterGreater), ("++", .plusPlus),
    ("--", .minusMinus)
  ]

/-- How keywords are spelled.  Of the spellings of one keyword, the usual one comes first. -/
def keywords : List (String × TokenKind) :=
  [
    ("auto", .kwAuto), ("bool", .kwBool), ("break", .kwBreak), ("case", .kwCase),
    ("char", .kwChar), ("class", .kwClass), ("const", .kwConst), ("continue", .kwContinue),
    ("default", .kwDefault), ("delete", .kwDelete), ("do", .kwDo), ("double", .kwDouble),
    ("else", .kwElse), ("enum", .kwEnum), ("explicit", .kwExplicit), ("extern", .kwExtern),
    ("false", .kwFalse), ("float", .kwFloat), ("for", .kwFor), ("if", .kwIf),
    ("inline", .kwInline), ("int", .kwInt), ("long", .kwLong), ("mutable", .kwMutable),
    ("namespace", .kwNamespace), ("new", .kwNew), ("private", .kwPrivate),
    ("protected", .kwProtected), ("public", .kwPublic), ("return", .kwReturn),
    ("short", .kwShort), ("signals", .kwSignals), ("Q_SIGNALS", .kwSignals),
    ("signed", .kwSigned), ("sizeof", .kwSizeof), ("slots", .kwSlots), ("Q_SLOTS", .kwSlots),
    ("static", .kwStatic), ("struct", .kwStruct), ("switch", .kwSwitch), ("this", .kwThis),
    ("true", .kwTrue), ("typedef", .kwTypedef), ("union", .kwUnion), ("unsigned", .kwUnsigned),
    ("virtual", .kwVirtual), ("void", .kwVoid), ("volatile", .kwVolatile), ("while", .kwWhile)
  ]

namespace TokenKind

/-- The keyword with a spelling. -/
def keyword? (s : String) : Option TokenKind := keywords.lookup s

/-- The punctuation with a spelling. -/
def punctuator? (s : String) : Option TokenKind := punctuators.lookup s

/-- A keyword. -/
def isKeyword (k : TokenKind) : Bool := keywords.any fun p => p.2 == k

/-- A literal that is spelled out. -/
def isLiteral (k : TokenKind) : Bool :=
  [numericLiteral, charLiteral, stringLiteral].contains k

/-- An operator that compares two values. -/
def isComparison (k : TokenKind) : Bool :=
  [less, lessEqual, greater, greaterEqual, equalEqual, exclaimEqual].contains k

/-- An operator that changes its left operand. -/
def isAssignment (k : TokenKind) : Bool :=
  [equal, plusEqual, minusEqual, starEqual, slashEqual, percentEqual, ampEqual, pipeEqual,
    caretEqual, lessLessEqual, greaterGreaterEqual].contains k

/-- The usual spelling of a kind; empty for names and literals, which have many. -/
def spelling (k : TokenKind) : String :=
  match (punctuators ++ keywords).find? fun p => p.2 == k with
  | some p => p.1
  | none => ""

end TokenKind

/-- A token in a text. -/
structure Token where
  /-- What it is. -/
  kind : TokenKind
  /-- Where it lies. -/
  span : Span
  /-- How it is spelled. -/
  spelling : String
  deriving DecidableEq, Repr

namespace Token

/-- Where it starts. -/
def start (t : Token) : Nat := t.span.start

/-- Where it stops. -/
def stop (t : Token) : Nat := t.span.stop

end Token

end Mend
