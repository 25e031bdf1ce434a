import Mend.Code.Parser.Declaration

/-!
# Statements

The parser of statements.  A statement that opens with a specifier is a declaration, and so is one
that opens with two names, with pointer and reference signs between them at most.  A condition is a
declaration only when an equals sign follows, so that `a * b` stays a product there.

## Main definitions

* `Parse.isTypedName` — two names in a row, the first of which may be qualified.
* `Parse.condition` — conditions.
* `Parse.statement` — statements.
-/

namespace Mend

namespace Parse

/-! ### Telling declarations from expressions -/

/-- The tokens after the qualifiers of a name. -/
def dropQualifiers : List Token → List Token
  | t :: u :: rest =>
    if t.kind = .identifier ∧ u.kind = .colonColon then dropQualifiers rest else t :: u :: rest
  | ts => ts

/-- A pointer or reference sign, or a `const`. -/
def isPointerToken (t : Token) : Bool :=
  [TokenKind.star, .amp, .ampAmp, .kwConst].contains t.kind

/-- The tokens after a name that stands behind the name of a type, if such two names come first. -/
def afterTypedName? (ts : List Token) : Option (List Token) :=
  match dropQualifiers ts with
  | t :: rest =>
    if t.kind = .identifier then
      match rest.dropWhile isPointerToken with
      | u :: rest => if u.kind = .identifier then some rest else none
      | [] => none
    else none
  | [] => none

/-- Whether a specifier that is no name comes next. -/
def isKeywordSpecifierNext (s : TokenStream) : Bool :=
  s.next?.any fun k => k.isSpecifier || k.isClassKey || k == .kwEnum

/-- Whether a declaration comes next where a statement could. -/
def isDeclarationNext (s : TokenStream) : Bool :=
  isKeywordSpecifierNext s || (afterTypedName? s.rest).isSome

/-- Whether a declaration comes next where a condition could. -/
def isConditionDeclarationNext (s : TokenStream) : Bool :=
  isKeywordSpecifierNext s ||
    (afterTypedName? s.rest).any fun ts => ts.head?.any (·.kind == .equal)

/-! ### Parts of statements -/

/-- A condition. -/
def condition (g : Grammar) : Parse PieceTree := do
  if isConditionDeclarationNext (← get) then
    let first := (← get).position
    let specifiers ← specifiers g
    let (declared, _) ← declarator g
    close .conditionDeclaration first (specifiers ++ [declared])
  else assignment g

/-- A condition in parentheses, with the parentheses. -/
def controlCondition (g : Grammar) : Parse (Nat × PieceTree × Nat) := do
  let lparen ← expect .lParen
  let condition ← condition g
  let rparen ← expect .rParen
  return (lparen, condition, rparen)

/-- An expression, unless a token of the given kind comes next. -/
def expressionBefore? (g : Grammar) (k : TokenKind) : Parse (Option PieceTree) := do
  if (← get).isAt k then return none else return some (← assignment g)

/-- An expression with its semicolon, or a semicolon alone. -/
def expressionStatement (g : Grammar) : Parse PieceTree := do
  let first := (← get).position
  let expression ← expressionBefore? g .semicolon
  let semicolon ← expect .semicolon
  close (.expressionStatement semicolon) first expression.toList

/-- A declaration as a statement. -/
def declarationStatement (g : Grammar) : Parse PieceTree := do
  let first := (← get).position
  let declared ← simpleDeclaration g .blockScope
  close .declarationStatement first [declared]

/-! ### Statements by their keyword -/

/-- An `if` statement. -/
def ifStatement (g : Grammar) : Parse PieceTree := do
  let keyword ← advance
  let (lparen, condition, rparen) ← controlCondition g
  let thenBranch ← g.statement
  match ← eat? .kwElse with
  | some elseToken =>
    let elseBranch ← g.statement
    close (.ifStatement keyword lparen rparen (some elseToken)) keyword
      [condition, thenBranch, elseBranch]
  | none => close (.ifStatement keyword lparen rparen none) keyword [condition, thenBranch]

/-- A `while` statement. -/
def whileStatement (g : Grammar) : Parse PieceTree := do
  let keyword ← advance
  let (lparen, condition, rparen) ← controlCondition g
  let body ← g.statement
  close (.whileStatement keyword lparen rparen) keyword [condition, body]

/-- A `do` statement. -/
def doStatement (g : Grammar) : Parse PieceTree := do
  let keyword ← advance
  let body ← g.statement
  let whileToken ← expect .kwWhile
  let lparen ← expect .lParen
  let expression ← assignment g
  let rparen ← expect .rParen
  let semicolon ← expect .semicolon
  close (.doStatement keyword whileToken lparen rparen semicolon) keyword [body, expression]

/-- A `for` statement. -/
def forStatement (g : Grammar) : Parse PieceTree := do
  let keyword ← advance
  let lparen ← expect .lParen
  let initial ←
    if isDeclarationNext (← get) then declarationStatement g else expressionStatement g
  let condition ←
    if (← get).isAt .semicolon then pure none else do pure (some (← condition g))
  let semicolon ← expect .semicolon
  let expression ← expressionBefore? g .rParen
  let rparen ← expect .rParen
  let body ← g.statement
  close (.forStatement keyword lparen semicolon rparen condition.isSome) keyword
    (initial :: (condition.toList ++ expression.toList ++ [body]))

/-- A `switch` statement. -/
def switchStatement (g : Grammar) : Parse PieceTree := do
  let keyword ← advance
  let (lparen, condition, rparen) ← controlCondition g
  let body ← g.statement
  close (.switchStatement keyword lparen rparen) keyword [condition, body]

/-- A `case` label. -/
def caseLabel (g : Grammar) : Parse PieceTree := do
  let keyword ← advance
  let expression ← conditional g
  let colon ← expect .colon
  close (.caseLabel keyword colon) keyword [expression]

/-- A `default` label. -/
def defaultLabel : Parse PieceTree := do
  let keyword ← advance
  let colon ← expect .colon
  close (.defaultLabel keyword colon) keyword []

/-- A `break` statement. -/
def breakStatement : Parse PieceTree := do
  let keyword ← advance
  let semicolon ← expect .semicolon
  close (.breakStatement keyword semicolon) keyword []

/-- A `continue` statement. -/
def continueStatement : Parse PieceTree := do
  let keyword ← advance
  let semicolon ← expect .semicolon
  close (.continueStatement keyword semicolon) keyword []

/-- A `return` statement. -/
def returnStatement (g : Grammar) : Parse PieceTree := do
  let keyword ← advance
  let expression ← expressionBefore? g .semicolon
  let semicolon ← expect .semicolon
  close (.returnStatement keyword semicolon) keyword expression.toList

/-- A statement. -/
def statement (g : Grammar) : Parse PieceTree := do
  match ← peek with
  | none => fail .statement
  | some .lBrace => block g
  | some .kwIf => ifStatement g
  | some .kwWhile => whileStatement g
  | some .kwDo => doStatement g
  | some .kwFor => forStatement g
  | some .kwSwitch => switchStatement g
  | some .kwCase => caseLabel g
  | some .kwDefault => defaultLabel
  | some .kwBreak => breakStatement
  | some .kwContinue => continueStatement
  | some .kwReturn => returnStatement g
  | some _ =>
    if isDeclarationNext (← get) then declarationStatement g else expressionStatement g

end Parse

end Mend
