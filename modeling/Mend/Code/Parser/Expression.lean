import Mend.Code.Parser.Basic

/-!
# Expressions and names

The parser of expressions.  What may stand inside brackets, and after an assignment operator, is an
expression again, so the parsers here take a *grammar*: a record of parsers for the parts that
contain everything else.

Binary operators come in ten levels.  The operands of one level are the expressions of the next
tighter one, and every level groups from the left.

## Main definitions

* `Grammar` — the parsers for the parts that contain everything else.
* `Parse.name` — names, with their qualifiers.
* `precedence?`, `Parse.binaryLevel` — the levels of binary operators.
* `Parse.conditional`, `Parse.assignment` — expressions.
-/

namespace Mend

/-- Where a declaration stands. -/
inductive DeclarationPlace
  /-- In a file or a namespace. -/
  | namespaceScope
  /-- In a class. -/
  | classScope
  /-- Among statements. -/
  | blockScope
  deriving DecidableEq, Repr

/-- The parsers for the parts of code that contain all other parts. -/
structure Grammar where
  /-- An expression. -/
  assignment : Parse PieceTree
  /-- A statement. -/
  statement : Parse PieceTree
  /-- A declaration that is no namespace. -/
  simpleDeclaration : DeclarationPlace → Parse PieceTree
  /-- A declaration. -/
  declaration : Parse PieceTree

namespace Parse

/-! ### Names -/

/-- Whether a qualifier comes next: a name and two colons, with another name after them. -/
def isQualifier (s : TokenStream) : Bool :=
  match s.rest with
  | t :: u :: v :: _ =>
    t.kind == .identifier && u.kind == .colonColon &&
      (v.kind == .identifier || v.kind == .tilde)
  | _ => false

/-- A qualifier, with the two colons after it. -/
def qualifier : Parse Nat := do
  let name ← advance
  let _ ← advance
  return name

/-- A name without qualifiers. -/
def unqualifiedName : Parse PieceTree := do
  let first := (← get).position
  match ← eat? .tilde with
  | some tilde =>
    let token ← expectName .className
    close (.destructorName tilde token) first []
  | none =>
    let token ← expectName .name
    close (.simpleName token) first []

/-- A name. -/
def name : Parse PieceTree := do
  let first := (← get).position
  let _ ← eat? .colonColon
  let qualifiers ← collectWhile isQualifier qualifier
  let unqualified ← unqualifiedName
  if qualifiers.isEmpty && unqualified.label.first == first then return unqualified
  else close (.qualifiedName qualifiers) first [unqualified]

/-! ### Operands -/

/-- Whether a string with the sign of Objective-C comes next. -/
def isSignedString (s : TokenStream) : Bool := s.isAt .atSign && s.tail.isAt .stringLiteral

/-- A node made of the next token alone. -/
def leaf (kind : Nat → NodeKind) : Parse PieceTree := do
  let token ← advance
  close (kind token) token []

/-- An operand without operators before or after it. -/
def primary (g : Grammar) : Parse PieceTree := do
  if isSignedString (← get) then
    let sign ← advance
    let token ← advance
    close (.stringLiteral (some sign) token) sign []
  else
    match ← peek with
    | some .numericLiteral | some .charLiteral => leaf .numericLiteral
    | some .stringLiteral => leaf (.stringLiteral none)
    | some .kwTrue | some .kwFalse => leaf .boolLiteral
    | some .kwThis => leaf .this
    | some .lParen =>
      let lparen ← advance
      let inner ← g.assignment
      let rparen ← expect .rParen
      close (.nested lparen rparen) lparen [inner]
    | some .identifier | some .colonColon => name
    | _ => fail .expression

/-- Whether an operator after an operand comes next. -/
def isSuffix (s : TokenStream) : Bool :=
  match s.next? with
  | some .lParen | some .dot | some .arrow | some .lBracket | some .plusPlus
  | some .minusMinus => true
  | _ => false

/-- An operand with the operator after it: a call, the access to a member or to an item of an
array, or a step up or down. -/
def suffix (g : Grammar) (operand : PieceTree) : Parse PieceTree := do
  let first := operand.label.first
  match ← peek with
  | some .lParen =>
    let lparen ← advance
    let arguments ← if (← get).isAt .rParen then pure [] else commaSeparated g.assignment
    let rparen ← expect .rParen
    close (.call lparen rparen) first (operand :: arguments)
  | some .lBracket =>
    let lbracket ← advance
    let index ← g.assignment
    let rbracket ← expect .rBracket
    close (.arrayAccess lbracket rbracket) first [operand, index]
  | some .dot | some .arrow =>
    let access ← advance
    let member ← name
    close (.memberAccess access) first [operand, member]
  | _ =>
    let operator ← advance
    close (.postfixed operator) first [operand]

/-- An operand with all operators after it. -/
def suffixed (g : Grammar) : Parse PieceTree := do
  let operand ← primary g
  repeatWhile (fun _ => isSuffix) (suffix g) operand

/-- Whether an operator before an operand comes next. -/
def isUnaryOperator (s : TokenStream) : Bool :=
  match s.next? with
  | some .exclaim | some .minus | some .plus | some .tilde | some .star | some .amp
  | some .plusPlus | some .minusMinus => true
  | _ => false

/-- An operand with all operators before and after it. -/
def unary (g : Grammar) : Parse PieceTree := do
  let operators ← collectWhile isUnaryOperator advance
  let operand ← suffixed g
  operators.foldrM (fun operator operand => close (.unary operator) operator [operand]) operand

/-! ### Operators between operands -/

end Parse

/-- The level of a binary operator; a higher level binds tighter. -/
def TokenKind.precedence? : TokenKind → Option Nat
  | .pipePipe => some 1
  | .ampAmp => some 2
  | .pipe => some 3
  | .caret => some 4
  | .amp => some 5
  | .equalEqual | .exclaimEqual => some 6
  | .less | .greater | .lessEqual | .greaterEqual => some 7
  | .lessLess | .greaterGreater => some 8
  | .plus | .minus => some 9
  | .star | .slash | .percent => some 10
  | _ => none

namespace Parse

/-- Operands joined by the operators of a level, grouped from the left. -/
def joined (level : Nat) (operand : Parse PieceTree) : Parse PieceTree := do
  let left ← operand
  repeatWhile (fun _ s => s.next?.bind TokenKind.precedence? == some level)
    (fun left => do
      let operator ← advance
      let right ← operand
      close (.binary operator) left.label.first [left, right])
    left

/-- An expression with the operators of the `n` tightest levels. -/
def binaryLevel (g : Grammar) : Nat → Parse PieceTree
  | 0 => unary g
  | n + 1 => joined (10 - n) (binaryLevel g n)

/-- An expression with operators of all levels, or a choice between two values. -/
def conditional (g : Grammar) : Parse PieceTree := do
  let condition ← binaryLevel g 10
  match ← eat? .question with
  | none => return condition
  | some question =>
    let left ← g.assignment
    let colon ← expect .colon
    let right ← g.assignment
    close (.conditional question colon) condition.label.first [condition, left, right]

/-- An expression.  Assignments group from the right. -/
def assignment (g : Grammar) : Parse PieceTree := do
  let left ← conditional g
  if (← peek).any TokenKind.isAssignment then
    let operator ← advance
    let right ← g.assignment
    close (.binary operator) left.label.first [left, right]
  else return left

end Parse

end Mend
