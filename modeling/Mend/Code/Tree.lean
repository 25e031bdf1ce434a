import Mend.Code.Rose
import Mend.Text.Slice

/-!
# Syntax trees

The structure of the code.  A node covers a run of tokens, which are referred to by their position
among all tokens, and its children cover parts of that run, in the order of the text.  The kind of
a node keeps the tokens that are the node's own; what parts it has follows from its kind and from
the kinds of its children.

Nodes are numbered in the order in which a reader of the text completes them, so a child has a
smaller number than its parent, and the root has the largest.  The number of a node is its place in
the arena in which the nodes are kept.

## Main definitions

* `NodeKind` — what a node is.
* `Piece`, `Node` — a node's kind and run of tokens, without and with its number.
* `SyntaxTree` and `SyntaxTree.ofPieces` — numbered trees, and the numbering.
* `SyntaxTree.specifiers`, `SyntaxTree.declarators`, … — the parts of a node by their role.
-/

namespace Mend

/-- What a node is, with the tokens of its own. -/
inductive NodeKind
  /-- The whole file; its children are declarations. -/
  | file
  /-- A namespace; its children are declarations. -/
  | namespaceBody (keyword : Nat) (name : Option Nat) (lbrace rbrace : Nat)
  /-- Specifiers, then declarators.  Also the definition of a class or an enumeration, which
  usually has no declarators. -/
  | simpleDeclaration (semicolon : Nat)
  /-- Specifiers, a declarator and a body. -/
  | functionDefinition
  /-- A specifier that is a keyword. -/
  | simpleSpecifier (token : Nat)
  /-- A specifier that is the name of a type. -/
  | namedTypeSpecifier
  /-- A class or an enumeration named with its keyword, without a body. -/
  | elaboratedSpecifier (key : Nat)
  /-- A class with its body: a name if it has one, then members. -/
  | classSpecifier (key lbrace rbrace : Nat)
  /-- A label that sets the access level of the members after it. -/
  | accessLabel (access : Nat) (slots : Option Nat) (colon : Nat)
  /-- A macro that stands where a member could. -/
  | macroMember (token : Nat)
  /-- An enumeration with its body: a name if it has one, then enumerators. -/
  | enumSpecifier (keyword lbrace rbrace : Nat)
  /-- An enumerator, with the expression for its value if there is one. -/
  | enumerator (name : Nat) (equal : Option Nat)
  /-- What is declared: a name, a parameter list and an initial value, each if there is one. -/
  | declarator (pointers : List Nat) (equal : Option Nat)
  /-- The name in a declarator. -/
  | declaratorName
  /-- A parameter list; its children are parameters. -/
  | parameterList (lparen rparen : Nat) (const : Option Nat)
  /-- Specifiers, then a declarator if there is one. -/
  | parameter
  /-- A block; its children are statements. -/
  | block (lbrace rbrace : Nat)
  /-- A declaration where a statement stands. -/
  | declarationStatement
  /-- An expression if there is one, and a semicolon. -/
  | expressionStatement (semicolon : Nat)
  /-- A condition, the branch taken when it holds, and the other branch if there is one. -/
  | ifStatement (keyword lparen rparen : Nat) (elseToken : Option Nat)
  /-- A condition and a body. -/
  | whileStatement (keyword lparen rparen : Nat)
  /-- A body and an expression. -/
  | doStatement (keyword whileToken lparen rparen semicolon : Nat)
  /-- An initial statement, a condition if there is one, an expression if there is one, and a
  body. -/
  | forStatement (keyword lparen semicolon rparen : Nat) (hasCondition : Bool)
  /-- A condition and a body. -/
  | switchStatement (keyword lparen rparen : Nat)
  /-- A `case` label with its expression. -/
  | caseLabel (keyword colon : Nat)
  /-- A `default` label. -/
  | defaultLabel (keyword colon : Nat)
  /-- A `break` statement. -/
  | breakStatement (keyword semicolon : Nat)
  /-- A `continue` statement. -/
  | continueStatement (keyword semicolon : Nat)
  /-- A `return` statement, with its expression if there is one. -/
  | returnStatement (keyword semicolon : Nat)
  /-- Specifiers and a declarator where a condition stands. -/
  | conditionDeclaration
  /-- Two operands around an operator. -/
  | binary (operator : Nat)
  /-- A condition and two values. -/
  | conditional (question colon : Nat)
  /-- An operand after an operator. -/
  | unary (operator : Nat)
  /-- An operand before an operator. -/
  | postfixed (operator : Nat)
  /-- An expression in parentheses. -/
  | nested (lparen rparen : Nat)
  /-- What is called, then the arguments. -/
  | call (lparen rparen : Nat)
  /-- An object and the name of a member. -/
  | memberAccess (access : Nat)
  /-- An array and an index. -/
  | arrayAccess (lbracket rbracket : Nat)
  /-- A name of one word. -/
  | simpleName (token : Nat)
  /-- The name of a destructor. -/
  | destructorName (tilde token : Nat)
  /-- A name after qualifiers, or after two colons alone. -/
  | qualifiedName (qualifiers : List Nat)
  /-- A number or a character. -/
  | numericLiteral (token : Nat)
  /-- A string, with the sign before it that makes it one of Objective-C. -/
  | stringLiteral (sign : Option Nat) (token : Nat)
  /-- A truth value. -/
  | boolLiteral (token : Nat)
  /-- The object of a member function. -/
  | this (token : Nat)
  deriving DecidableEq, Repr

namespace NodeKind

/-- A specifier of a declaration. -/
def isSpecifier : NodeKind → Bool
  | simpleSpecifier _ | namedTypeSpecifier | elaboratedSpecifier _ | classSpecifier _ _ _
  | enumSpecifier _ _ _ => true
  | _ => false

/-- A declarator. -/
def isDeclarator : NodeKind → Bool
  | declarator _ _ => true
  | _ => false

/-- A name. -/
def isName : NodeKind → Bool
  | simpleName _ | destructorName _ _ | qualifiedName _ => true
  | _ => false

/-- The name in a declarator. -/
def isDeclaratorName : NodeKind → Bool
  | declaratorName => true
  | _ => false

/-- A parameter list. -/
def isParameterList : NodeKind → Bool
  | parameterList _ _ _ => true
  | _ => false

/-- A block. -/
def isBlock : NodeKind → Bool
  | block _ _ => true
  | _ => false

/-- An operator between two operands. -/
def isBinary : NodeKind → Bool
  | binary _ => true
  | _ => false

/-- A declaration where a condition stands. -/
def isConditionDeclaration : NodeKind → Bool
  | conditionDeclaration => true
  | _ => false

/-- A class or an enumeration with its body. -/
def definesType : NodeKind → Bool
  | classSpecifier _ _ _ | enumSpecifier _ _ _ => true
  | _ => false

end NodeKind

/-- A node without its number: what it is, and the first and the last token it covers. -/
structure Piece where
  /-- What it is. -/
  kind : NodeKind
  /-- The first token. -/
  first : Nat
  /-- The last token. -/
  last : Nat
  deriving DecidableEq, Repr

/-- A node with its number. -/
structure Node extends Piece where
  /-- The number. -/
  id : Nat
  deriving DecidableEq, Repr

/-- A tree as it is read. -/
abbrev PieceTree := Rose Piece

/-- A tree whose nodes are numbered. -/
abbrev SyntaxTree := Rose Node

namespace SyntaxTree

/-- Numbers the nodes of a tree, each one after its children. -/
def ofPieces (t : PieceTree) : SyntaxTree :=
  (t.mapNumbered (fun n p => ({ p with id := n } : Node)) 0).1

/-- What the root is. -/
def kind (t : SyntaxTree) : NodeKind := t.label.kind

/-- The first token of the root. -/
def first (t : SyntaxTree) : Nat := t.label.first

/-- The last token of the root. -/
def last (t : SyntaxTree) : Nat := t.label.last

/-- The number of the root. -/
def id (t : SyntaxTree) : Nat := t.label.id

/-! ### Parts by their role -/

/-- The specifiers of a declaration, a parameter or a condition. -/
def specifiers (t : SyntaxTree) : List SyntaxTree :=
  t.children.filter fun c => c.label.kind.isSpecifier

/-- The declarators of a declaration, a parameter or a condition. -/
def declarators (t : SyntaxTree) : List SyntaxTree :=
  t.children.filter fun c => c.label.kind.isDeclarator

/-- The first declarator. -/
def declarator? (t : SyntaxTree) : Option SyntaxTree := t.declarators.head?

/-- The name node of a declarator. -/
def core? (t : SyntaxTree) : Option SyntaxTree :=
  t.children.find? fun c => c.label.kind.isDeclaratorName

/-- The parameter list of a declarator. -/
def parameterList? (t : SyntaxTree) : Option SyntaxTree :=
  t.children.find? fun c => c.label.kind.isParameterList

/-- Whether `const` follows a parameter list. -/
def isConst (t : SyntaxTree) : Bool :=
  match t.label.kind with
  | .parameterList _ _ const => const.isSome
  | _ => false

/-- The initial value of a declarator. -/
def initializer? (t : SyntaxTree) : Option SyntaxTree :=
  t.children.find? fun c => !(c.label.kind.isDeclaratorName || c.label.kind.isParameterList)

/-- The name of a class, an enumeration or a type. -/
def name? (t : SyntaxTree) : Option SyntaxTree := t.children.find? fun c => c.label.kind.isName

/-- The members of a class, or the enumerators of an enumeration. -/
def members (t : SyntaxTree) : List SyntaxTree :=
  t.children.filter fun c => !c.label.kind.isName

end SyntaxTree

end Mend
