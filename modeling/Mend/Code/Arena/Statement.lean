import Mend.Code.Arena.Declaration
import Mend.Code.Parser.Statement

/-!
# Building statements

The parser of statements, with a node in the arena for each part.

## Main definitions

* `Build.condition` — conditions.
* `Build.statement` — statements.
-/

namespace Mend

namespace Build

open Parse (advance eat? expect peek)

/-! ### Parts of statements -/

/-- A condition. -/
def condition (g : BuildGrammar) : Build NodeId := do
  if Parse.isConditionDeclarationNext (← look) then
    let first := (← look).position
    let specifiers ← specifiers g
    let declared ← declarator g
    add (.conditionDeclaration specifiers declared) first
  else assignment g

/-- A condition in parentheses, with the parentheses. -/
def controlCondition (g : BuildGrammar) : Build (Nat × NodeId × Nat) := do
  let lparen ← expect .lParen
  let condition ← condition g
  let rparen ← expect .rParen
  return (lparen, condition, rparen)

/-- An expression, unless a token of the given kind comes next. -/
def expressionBefore? (g : BuildGrammar) (k : TokenKind) : Build (Option NodeId) := do
  if (← look).isAt k then return none else return some (← assignment g)

/-- An expression with its semicolon, or a semicolon alone. -/
def expressionStatement (g : BuildGrammar) : Build NodeId := do
  let first := (← look).position
  let expression ← expressionBefore? g .semicolon
  let semicolon ← expect .semicolon
  add (.expressionStatement expression semicolon) first

/-- A declaration as a statement. -/
def declarationStatement (g : BuildGrammar) : Build NodeId := do
  let first := (← look).position
  let declared ← simpleDeclaration g .blockScope
  add (.declarationStatement declared) first

/-! ### Statements by their keyword -/

/-- An `if` statement. -/
def ifStatement (g : BuildGrammar) : Build NodeId := do
  let keyword ← advance
  let (lparen, condition, rparen) ← controlCondition g
  let thenBranch ← g.statement
  match ← eat? .kwElse with
  | some elseToken =>
    let elseBranch ← g.statement
    add (.ifStatement keyword lparen condition rparen thenBranch (some elseToken)
      (some elseBranch)) keyword
  | none => add (.ifStatement keyword lparen condition rparen thenBranch none none) keyword

/-- A `while` statement. -/
def whileStatement (g : BuildGrammar) : Build NodeId := do
  let keyword ← advance
  let (lparen, condition, rparen) ← controlCondition g
  let body ← g.statement
  add (.whileStatement keyword lparen condition rparen body) keyword

/-- A `do` statement. -/
def doStatement (g : BuildGrammar) : Build NodeId := do
  let keyword ← advance
  let body ← g.statement
  let whileToken ← expect .kwWhile
  let lparen ← expect .lParen
  let expression ← assignment g
  let rparen ← expect .rParen
  let semicolon ← expect .semicolon
  add (.doStatement keyword body whileToken lparen expression rparen semicolon) keyword

/-- A `for` statement. -/
def forStatement (g : BuildGrammar) : Build NodeId := do
  let keyword ← advance
  let lparen ← expect .lParen
  let initial ←
    if Parse.isDeclarationNext (← look) then declarationStatement g else expressionStatement g
  let condition ←
    if (← look).isAt .semicolon then pure none else do pure (some (← condition g))
  let semicolon ← expect .semicolon
  let expression ← expressionBefore? g .rParen
  let rparen ← expect .rParen
  let body ← g.statement
  add (.forStatement keyword lparen initial condition semicolon expression rparen body) keyword

/-- A `switch` statement. -/
def switchStatement (g : BuildGrammar) : Build NodeId := do
  let keyword ← advance
  let (lparen, condition, rparen) ← controlCondition g
  let body ← g.statement
  add (.switchStatement keyword lparen condition rparen body) keyword

/-- A `case` label. -/
def caseLabel (g : BuildGrammar) : Build NodeId := do
  let keyword ← advance
  let expression ← conditional g
  let colon ← expect .colon
  add (.caseLabel keyword expression colon) keyword

/-- A `default` label. -/
def defaultLabel : Build NodeId := do
  let keyword ← advance
  let colon ← expect .colon
  add (.defaultLabel keyword colon) keyword

/-- A `break` statement. -/
def breakStatement : Build NodeId := do
  let keyword ← advance
  let semicolon ← expect .semicolon
  add (.breakStatement keyword semicolon) keyword

/-- A `continue` statement. -/
def continueStatement : Build NodeId := do
  let keyword ← advance
  let semicolon ← expect .semicolon
  add (.continueStatement keyword semicolon) keyword

/-- A `return` statement. -/
def returnStatement (g : BuildGrammar) : Build NodeId := do
  let keyword ← advance
  let expression ← expressionBefore? g .semicolon
  let semicolon ← expect .semicolon
  add (.returnStatement keyword expression semicolon) keyword

/-- A statement. -/
def statement (g : BuildGrammar) : Build NodeId := do
  match ← peek with
  | none => Parse.fail .statement
  | some .lBrace => block g
  | some .kwIf => ifStatement g
  | some .kwWhile => whileStatement g
  | some .kwDo => doStatement g
  | some .kwFor => forStatement g
  | some .kwSwitch => switchStatement g
  | some .kwCase => caseLabel g
  | some .kwDefault => defaultLabel
  | some .kwBreak => breakStatement
  | some .kwContinue => continueStatement
  | some .kwReturn => returnStatement g
  | some _ =>
    if Parse.isDeclarationNext (← look) then declarationStatement g else expressionStatement g

end Build

end Mend
