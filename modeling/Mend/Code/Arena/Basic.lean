import Mend.Code.Tree

/-!
# Arenas of nodes

The nodes of a syntax tree are kept in an *arena*, one after the other, and refer to each other by
their places in it.  A node is added after its children: it gets the next place, and its children
are told who their parent is.  What a node holds, and in which roles, follows from its form.

Places are counted without a bound.  The program counts them in 32 bits, so the two agree as long as
there are fewer nodes than that.

## Main definitions

* `NodeForm` — what a node is, with its own tokens and the places of its children by their roles.
* `NodeForm.children`, `NodeForm.kind` — all children in the order of the text, and what is left
  without them.
* `Ast`, `Ast.add` — arenas, and adding a node.
* `Ast.childrenOf`, `Ast.parent?`, `Ast.functionOf?` — the links between nodes.
* `Ast.tree` — the tree below the root.
-/

namespace Mend

/-- The place of a node in its arena. -/
abbrev NodeId := Nat

/-- What a node is, with its own tokens and with its children by their roles. -/
inductive NodeForm
  /-- The whole file. -/
  | file (declarations : List NodeId)
  /-- A namespace. -/
  | namespaceBody (keyword : Nat) (name : Option Nat) (lbrace : Nat) (declarations : List NodeId)
    (rbrace : Nat)
  /-- A declaration; also the definition of a class or an enumeration. -/
  | simpleDeclaration (specifiers declarators : List NodeId) (semicolon : Nat)
  /-- A function with its body. -/
  | functionDefinition (specifiers : List NodeId) (declarator body : NodeId)
  /-- A specifier that is a keyword. -/
  | simpleSpecifier (token : Nat)
  /-- A specifier that is the name of a type. -/
  | namedTypeSpecifier (name : NodeId)
  /-- A class or an enumeration named with its keyword, without a body. -/
  | elaboratedSpecifier (key : Nat) (name : NodeId)
  /-- A class with its body. -/
  | classSpecifier (key : Nat) (name : Option NodeId) (lbrace : Nat) (members : List NodeId)
    (rbrace : Nat)
  /-- A label that sets the access level of the members after it. -/
  | accessLabel (access : Nat) (slots : Option Nat) (colon : Nat)
  /-- A macro that stands where a member could. -/
  | macroMember (token : Nat)
  /-- An enumeration with its body. -/
  | enumSpecifier (keyword : Nat) (name : Option NodeId) (lbrace : Nat) (enumerators : List NodeId)
    (rbrace : Nat)
  /-- An enumerator. -/
  | enumerator (name : Nat) (equal : Option Nat) (value : Option NodeId)
  /-- What is declared; it has no name in some parameters. -/
  | declarator (pointers : List Nat) (core function : Option NodeId) (equal : Option Nat)
    (value : Option NodeId)
  /-- The name in a declarator. -/
  | declaratorName (name : NodeId)
  /-- A parameter list. -/
  | parameterList (lparen : Nat) (parameters : List NodeId) (rparen : Nat) (const : Option Nat)
  /-- A parameter. -/
  | parameter (specifiers : List NodeId) (declarator : Option NodeId)
  /-- A block. -/
  | block (lbrace : Nat) (statements : List NodeId) (rbrace : Nat)
  /-- A declaration where a statement stands. -/
  | declarationStatement (declaration : NodeId)
  /-- An expression if there is one, and a semicolon. -/
  | expressionStatement (expression : Option NodeId) (semicolon : Nat)
  /-- A condition and one or two branches. -/
  | ifStatement (keyword lparen : Nat) (condition : NodeId) (rparen : Nat) (thenBranch : NodeId)
    (elseToken : Option Nat) (elseBranch : Option NodeId)
  /-- A condition and a body. -/
  | whileStatement (keyword lparen : Nat) (condition : NodeId) (rparen : Nat) (body : NodeId)
  /-- A body and an expression. -/
  | doStatement (keyword : Nat) (body : NodeId) (whileToken lparen : Nat) (expression : NodeId)
    (rparen semicolon : Nat)
  /-- An initial statement, a condition, an expression and a body. -/
  | forStatement (keyword lparen : Nat) (initial : NodeId) (condition : Option NodeId)
    (semicolon : Nat) (expression : Option NodeId) (rparen : Nat) (body : NodeId)
  /-- A condition and a body. -/
  | switchStatement (keyword lparen : Nat) (condition : NodeId) (rparen : Nat) (body : NodeId)
  /-- A `case` label. -/
  | caseLabel (keyword : Nat) (expression : NodeId) (colon : Nat)
  /-- A `default` label. -/
  | defaultLabel (keyword colon : Nat)
  /-- A `break` statement. -/
  | breakStatement (keyword semicolon : Nat)
  /-- A `continue` statement. -/
  | continueStatement (keyword semicolon : Nat)
  /-- A `return` statement. -/
  | returnStatement (keyword : Nat) (expression : Option NodeId) (semicolon : Nat)
  /-- Specifiers and a declarator where a condition stands. -/
  | conditionDeclaration (specifiers : List NodeId) (declarator : NodeId)
  /-- Two operands around an operator. -/
  | binary (left : NodeId) (operator : Nat) (right : NodeId)
  /-- A condition and two values. -/
  | conditional (condition : NodeId) (question : Nat) (left : NodeId) (colon : Nat) (right : NodeId)
  /-- An operand after an operator. -/
  | unary (operator : Nat) (operand : NodeId)
  /-- An operand before an operator. -/
  | postfixed (operand : NodeId) (operator : Nat)
  /-- An expression in parentheses. -/
  | nested (lparen : Nat) (expression : NodeId) (rparen : Nat)
  /-- A call. -/
  | call (callee : NodeId) (lparen : Nat) (arguments : List NodeId) (rparen : Nat)
  /-- An object and the name of a member. -/
  | memberAccess (object : NodeId) (access : Nat) (member : NodeId)
  /-- An array and an index. -/
  | arrayAccess (array : NodeId) (lbracket : Nat) (index : NodeId) (rbracket : Nat)
  /-- A name of one word. -/
  | simpleName (token : Nat)
  /-- The name of a destructor. -/
  | destructorName (tilde token : Nat)
  /-- A name after qualifiers, or after two colons alone. -/
  | qualifiedName (qualifiers : List Nat) (name : NodeId)
  /-- A number or a character. -/
  | numericLiteral (token : Nat)
  /-- A string, with the sign before it that makes it one of Objective-C. -/
  | stringLiteral (sign : Option Nat) (token : Nat)
  /-- A truth value. -/
  | boolLiteral (token : Nat)
  /-- The object of a member function. -/
  | this (token : Nat)
  deriving DecidableEq, Repr

namespace NodeForm

/-- The children of a node, in the order of the text. -/
def children : NodeForm → List NodeId
  | file declarations | namespaceBody _ _ _ declarations _ => declarations
  | simpleDeclaration specifiers declarators _ => specifiers ++ declarators
  | functionDefinition specifiers declared body => specifiers ++ [declared, body]
  | namedTypeSpecifier name | elaboratedSpecifier _ name => [name]
  | classSpecifier _ name _ members _ => name.toList ++ members
  | enumSpecifier _ name _ enumerators _ => name.toList ++ enumerators
  | enumerator _ _ value => value.toList
  | declarator _ core function _ value => core.toList ++ function.toList ++ value.toList
  | declaratorName name => [name]
  | parameterList _ parameters _ _ => parameters
  | parameter specifiers declared => specifiers ++ declared.toList
  | block _ statements _ => statements
  | declarationStatement declaration => [declaration]
  | expressionStatement expression _ | returnStatement _ expression _ => expression.toList
  | ifStatement _ _ condition _ thenBranch _ elseBranch =>
    [condition, thenBranch] ++ elseBranch.toList
  | whileStatement _ _ condition _ body | switchStatement _ _ condition _ body => [condition, body]
  | doStatement _ body _ _ expression _ _ => [body, expression]
  | forStatement _ _ initial condition _ expression _ body =>
    initial :: (condition.toList ++ expression.toList ++ [body])
  | caseLabel _ expression _ => [expression]
  | conditionDeclaration specifiers declared => specifiers ++ [declared]
  | binary left _ right => [left, right]
  | conditional condition _ left _ right => [condition, left, right]
  | unary _ operand | postfixed operand _ => [operand]
  | nested _ expression _ => [expression]
  | call callee _ arguments _ => callee :: arguments
  | memberAccess object _ member => [object, member]
  | arrayAccess array _ index _ => [array, index]
  | qualifiedName _ name => [name]
  | simpleSpecifier _ | accessLabel _ _ _ | macroMember _ | defaultLabel _ _ | breakStatement _ _
  | continueStatement _ _ | simpleName _ | destructorName _ _ | numericLiteral _
  | stringLiteral _ _ | boolLiteral _ | this _ => []

/-- What a node is, without its children. -/
def kind : NodeForm → NodeKind
  | file _ => .file
  | namespaceBody keyword name lbrace _ rbrace => .namespaceBody keyword name lbrace rbrace
  | simpleDeclaration _ _ semicolon => .simpleDeclaration semicolon
  | functionDefinition _ _ _ => .functionDefinition
  | simpleSpecifier token => .simpleSpecifier token
  | namedTypeSpecifier _ => .namedTypeSpecifier
  | elaboratedSpecifier key _ => .elaboratedSpecifier key
  | classSpecifier key _ lbrace _ rbrace => .classSpecifier key lbrace rbrace
  | accessLabel access slots colon => .accessLabel access slots colon
  | macroMember token => .macroMember token
  | enumSpecifier keyword _ lbrace _ rbrace => .enumSpecifier keyword lbrace rbrace
  | enumerator name equal _ => .enumerator name equal
  | declarator pointers _ _ equal _ => .declarator pointers equal
  | declaratorName _ => .declaratorName
  | parameterList lparen _ rparen const => .parameterList lparen rparen const
  | parameter _ _ => .parameter
  | block lbrace _ rbrace => .block lbrace rbrace
  | declarationStatement _ => .declarationStatement
  | expressionStatement _ semicolon => .expressionStatement semicolon
  | ifStatement keyword lparen _ rparen _ elseToken _ =>
    .ifStatement keyword lparen rparen elseToken
  | whileStatement keyword lparen _ rparen _ => .whileStatement keyword lparen rparen
  | doStatement keyword _ whileToken lparen _ rparen semicolon =>
    .doStatement keyword whileToken lparen rparen semicolon
  | forStatement keyword lparen _ condition semicolon _ rparen _ =>
    .forStatement keyword lparen semicolon rparen condition.isSome
  | switchStatement keyword lparen _ rparen _ => .switchStatement keyword lparen rparen
  | caseLabel keyword _ colon => .caseLabel keyword colon
  | defaultLabel keyword colon => .defaultLabel keyword colon
  | breakStatement keyword semicolon => .breakStatement keyword semicolon
  | continueStatement keyword semicolon => .continueStatement keyword semicolon
  | returnStatement keyword _ semicolon => .returnStatement keyword semicolon
  | conditionDeclaration _ _ => .conditionDeclaration
  | binary _ operator _ => .binary operator
  | conditional _ question _ colon _ => .conditional question colon
  | unary operator _ => .unary operator
  | postfixed _ operator => .postfixed operator
  | nested lparen _ rparen => .nested lparen rparen
  | call _ lparen _ rparen => .call lparen rparen
  | memberAccess _ access _ => .memberAccess access
  | arrayAccess _ lbracket _ rbracket => .arrayAccess lbracket rbracket
  | simpleName token => .simpleName token
  | destructorName tilde token => .destructorName tilde token
  | qualifiedName qualifiers _ => .qualifiedName qualifiers
  | numericLiteral token => .numericLiteral token
  | stringLiteral sign token => .stringLiteral sign token
  | boolLiteral token => .boolLiteral token
  | this token => .this token

/-- The parameter list of a declarator, if it has one. -/
def function? : NodeForm → Option NodeId
  | declarator _ _ function _ _ => function
  | _ => none

end NodeForm

/-- A node in an arena. -/
structure AstNode where
  /-- What it is, with its children. -/
  form : NodeForm
  /-- The first token that it covers. -/
  first : Nat
  /-- The last token that it covers. -/
  last : Nat
  /-- The node that it is a child of, once that has been added. -/
  parent : Option NodeId
  deriving DecidableEq, Repr

/-- An arena of nodes. -/
structure Ast where
  /-- The nodes, in the order in which they were added. -/
  nodes : Array AstNode
  /-- The root, once it has been set. -/
  root : Option NodeId
  deriving DecidableEq, Repr

namespace Ast

/-- The arena without nodes. -/
def empty : Ast := ⟨#[], none⟩

/-- The nodes of an arena, some of which are told who their parent is. -/
def adopt (nodes : Array AstNode) (parent : NodeId) (children : List NodeId) : Array AstNode :=
  children.foldl (fun nodes c => nodes.modify c fun n => { n with parent := some parent }) nodes

/-- Adds a node behind all others, with its place.  Its children are told that it is their parent.
A node that ends before its first token is put at that token. -/
def add (a : Ast) (form : NodeForm) (first last : Nat) : NodeId × Ast :=
  let id := a.nodes.size
  let node : AstNode := ⟨form, first, max last first, none⟩
  (id, { a with nodes := (adopt a.nodes id form.children).push node })

/-- The children of the node at a place, in the order of the text. -/
def childrenOf (a : Ast) (id : NodeId) : List NodeId :=
  match a.nodes[id]? with
  | some n => n.form.children
  | none => []

/-- The parent of the node at a place, if it has one. -/
def parent? (a : Ast) (id : NodeId) : Option NodeId := a.nodes[id]?.bind (·.parent)

/-- The first token of the node at a place. -/
def firstOf (a : Ast) (id : NodeId) : Nat := (a.nodes[id]?.map (·.first)).getD 0

/-- The parameter list of the declarator at a place, if it has one. -/
def functionOf? (a : Ast) (id : NodeId) : Option NodeId := a.nodes[id]?.bind (·.form.function?)

/-! ### The tree -/

/-- The trees below the nodes, in the order of the nodes.  A node finds the trees of its children
among those that are there already. -/
def trees (nodes : List AstNode) : Array SyntaxTree :=
  nodes.foldl
    (fun ts n =>
      let label : Node := ⟨⟨n.form.kind, n.first, n.last⟩, ts.size⟩
      ts.push (.node label (n.form.children.filterMap (ts[·]?)))) #[]

/-- The tree below the root.  An arena without a root has the tree of an empty file. -/
def tree (a : Ast) : SyntaxTree :=
  (a.root.bind fun id => (trees a.nodes.toList)[id]?).getD (.node ⟨⟨.file, 0, 0⟩, 0⟩ [])

end Ast

end Mend
