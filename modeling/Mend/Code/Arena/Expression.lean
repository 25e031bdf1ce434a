import Mend.Code.Arena.Build
import Mend.Code.Parser.Expression

/-!
# Building expressions and names

The parser of expressions, with a node in the arena for each part.  Which tokens make up an
expression, and how it is grouped, is told in the same way as for the parser that only reads.

## Main definitions

* `BuildGrammar` — the parsers for the parts that contain everything else.
* `Build.name` — names, with their qualifiers.
* `Build.conditional`, `Build.assignment` — expressions.
-/

namespace Mend

/-- The parsers for the parts of code that contain all other parts. -/
structure BuildGrammar where
  /-- An expression. -/
  assignment : Build NodeId
  /-- A statement. -/
  statement : Build NodeId
  /-- A declaration that is no namespace. -/
  simpleDeclaration : DeclarationPlace → Build NodeId
  /-- A declaration. -/
  declaration : Build NodeId

namespace Build

open Parse (advance eat? expect expectName peek)

/-! ### Names -/

/-- A name without qualifiers. -/
def unqualifiedName : Build NodeId := do
  let first := (← look).position
  match ← eat? .tilde with
  | some tilde =>
    let token ← expectName .className
    add (.destructorName tilde token) first
  | none =>
    let token ← expectName .name
    add (.simpleName token) first

/-- A name. -/
def name : Build NodeId := do
  let first := (← look).position
  let _ ← eat? .colonColon
  let qualifiers ← Parse.collectWhile Parse.isQualifier Parse.qualifier
  let unqualified ← unqualifiedName
  let start ← firstOf unqualified
  if qualifiers.isEmpty && start == first then return unqualified
  else add (.qualifiedName qualifiers unqualified) first

/-! ### Operands -/

/-- A node made of the next token alone. -/
def leaf (form : Nat → NodeForm) : Build NodeId := do
  let token ← advance
  add (form token) token

/-- An operand without operators before or after it. -/
def primary (g : BuildGrammar) : Build NodeId := do
  if Parse.isSignedString (← look) then
    let sign ← advance
    let token ← advance
    add (.stringLiteral (some sign) token) sign
  else
    match ← peek with
    | some .numericLiteral | some .charLiteral => leaf .numericLiteral
    | some .stringLiteral => leaf (.stringLiteral none)
    | some .kwTrue | some .kwFalse => leaf .boolLiteral
    | some .kwThis => leaf .this
    | some .lParen =>
      let lparen ← advance
      let inner ← g.assignment
      let rparen ← expect .rParen
      add (.nested lparen inner rparen) lparen
    | some .identifier | some .colonColon => name
    | _ => Parse.fail .expression

/-- An operand with the operator after it: a call, the access to a member or to an item of an
array, or a step up or down. -/
def suffix (g : BuildGrammar) (operand : NodeId) : Build NodeId := do
  let first ← firstOf operand
  match ← peek with
  | some .lParen =>
    let lparen ← advance
    let arguments ← if (← look).isAt .rParen then pure [] else commaSeparated g.assignment
    let rparen ← expect .rParen
    add (.call operand lparen arguments rparen) first
  | some .lBracket =>
    let lbracket ← advance
    let index ← g.assignment
    let rbracket ← expect .rBracket
    add (.arrayAccess operand lbracket index rbracket) first
  | some .dot | some .arrow =>
    let access ← advance
    let member ← name
    add (.memberAccess operand access member) first
  | _ =>
    let operator ← advance
    add (.postfixed operand operator) first

/-- An operand with all operators after it. -/
def suffixed (g : BuildGrammar) : Build NodeId := do
  let operand ← primary g
  repeatWhile (fun _ => Parse.isSuffix) (suffix g) operand

/-- An operand with all operators before and after it. -/
def unary (g : BuildGrammar) : Build NodeId := do
  let operators ← Parse.collectWhile Parse.isUnaryOperator advance
  let operand ← suffixed g
  operators.foldrM (fun operator operand => add (.unary operator operand) operator) operand

/-! ### Operators between operands -/

/-- Operands joined by the operators of a level, grouped from the left. -/
def joined (level : Nat) (operand : Build NodeId) : Build NodeId := do
  let left ← operand
  repeatWhile (fun _ s => s.next?.bind TokenKind.precedence? == some level)
    (fun left => do
      let first ← firstOf left
      let operator ← advance
      let right ← operand
      add (.binary left operator right) first)
    left

/-- An expression with the operators of the `n` tightest levels. -/
def binaryLevel (g : BuildGrammar) : Nat → Build NodeId
  | 0 => unary g
  | n + 1 => joined (10 - n) (binaryLevel g n)

/-- An expression with operators of all levels, or a choice between two values. -/
def conditional (g : BuildGrammar) : Build NodeId := do
  let condition ← binaryLevel g 10
  match ← eat? .question with
  | none => return condition
  | some question =>
    let first ← firstOf condition
    let left ← g.assignment
    let colon ← expect .colon
    let right ← g.assignment
    add (.conditional condition question left colon right) first

/-- An expression.  Assignments group from the right. -/
def assignment (g : BuildGrammar) : Build NodeId := do
  let left ← conditional g
  if (← peek).any TokenKind.isAssignment then
    let first ← firstOf left
    let operator ← advance
    let right ← g.assignment
    add (.binary left operator right) first
  else return left

end Build

end Mend
