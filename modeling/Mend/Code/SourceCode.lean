import Mend.Code.Arena.File
import Mend.Code.Lexer

/-!
# Source code

A text with its tokens, its included files and its syntax tree.  The nodes of the tree refer to
tokens by their position; here those positions are turned into offsets and spellings.

## Main definitions

* `SourceCode` and `SourceCode.ofText` — a text that has been read.
* `SourceCode.spanOf`, `SourceCode.textOf` — where a node lies and how it is written.
* `SourceCode.nameOf?` — the words of a name.
* `SourceCode.pathAt` — the nodes at an offset, from the root to the innermost.
-/

namespace Mend

/-- A text that has been read. -/
structure SourceCode where
  /-- The text. -/
  text : Text
  /-- The tokens, in order. -/
  tokens : Array Token
  /-- The files it includes, in order. -/
  includes : List Include
  /-- The syntax tree. -/
  tree : SyntaxTree

namespace SourceCode

/-- Reads a text. -/
def ofText (t : Text) : Except SyntaxError SourceCode :=
  match Lexed.ofText t with
  | .error e => .error e
  | .ok lexed =>
    match Ast.ofTokens lexed.tokens t.length with
    | .error e => .error e
    | .ok ast => .ok ⟨t, lexed.tokens.toArray, lexed.includes, ast.tree⟩

variable (c : SourceCode)

/-! ### Tokens -/

/-- The kind of a token, if there is such a token. -/
def kindOf? (i : Nat) : Option TokenKind := c.tokens[i]?.map (·.kind)

/-- Whether a token is of a kind. -/
def isKind (i : Nat) (k : TokenKind) : Bool := c.kindOf? i == some k

/-- How a token is spelled; a token that does not exist is spelled with nothing. -/
def spelling (i : Nat) : String :=
  match c.tokens[i]? with
  | some t => t.spelling
  | none => ""

/-- Where a token starts; a token that does not exist is put at the end of the text. -/
def tokenStart (i : Nat) : Nat :=
  match c.tokens[i]? with
  | some t => t.start
  | none => c.text.length

/-- Where a token stops; a token that does not exist is put at the end of the text. -/
def tokenStop (i : Nat) : Nat :=
  match c.tokens[i]? with
  | some t => t.stop
  | none => c.text.length

/-- Where a token lies. -/
def tokenSpan (i : Nat) : Span := ⟨c.tokenStart i, c.tokenStop i⟩

/-- Whether an offset lies on a token or at one of its ends. -/
def isOnToken (o i : Nat) : Bool := c.tokens[i]?.any fun t => decide (t.span.Touches o)

/-- The first token that starts at or after an offset. -/
def tokenFrom (o : Nat) : Nat := (c.tokens.toList.takeWhile fun t => t.start < o).length

/-! ### Nodes -/

/-- Where a node starts. -/
def startOf (t : SyntaxTree) : Nat := c.tokenStart t.first

/-- Where a node stops. -/
def stopOf (t : SyntaxTree) : Nat := c.tokenStop t.last

/-- Where a node lies. -/
def spanOf (t : SyntaxTree) : Span := ⟨c.startOf t, c.stopOf t⟩

/-- The text in a span; offsets past the end stand for the end. -/
def slice (s : Span) : Text := c.text.slice s

/-- The text of a node. -/
def textOf (t : SyntaxTree) : Text := c.slice (c.spanOf t)

/-- Whether an offset lies in a node or at one of its ends. -/
def isOnNode (o : Nat) (n : Node) : Bool :=
  match c.tokens[n.first]?, c.tokens[n.last]? with
  | some a, some b => decide ((⟨a.start, b.stop⟩ : Span).Touches o)
  | _, _ => false

/-- The nodes at an offset, from the root to the innermost one.  Where two of them touch, the
earlier one counts. -/
def pathAt (o : Nat) : List SyntaxTree := c.tree.pathWhere (c.isOnNode o)

/-- All nodes, by their numbers. -/
def nodes : List SyntaxTree := c.tree.subtrees

/-- The node with a number. -/
def node? (id : Nat) : Option SyntaxTree := c.nodes[id]?

/-- The node that a node is a child of. -/
def parent? (t : SyntaxTree) : Option SyntaxTree :=
  Rose.parentIn (fun s => s.label.id == t.label.id) c.nodes

/-- At most `n` nodes on the way from a node to the root. -/
def ancestorsUpTo : Nat → SyntaxTree → List SyntaxTree
  | 0, _ => []
  | n + 1, t =>
    t :: (match c.parent? t with
      | some p => ancestorsUpTo n p
      | none => [])

/-- The nodes on the way from a node to the root, the node itself first.  A parent is numbered
after its children, so there are no more of them than nodes. -/
def ancestors (t : SyntaxTree) : List SyntaxTree := c.ancestorsUpTo c.nodes.length t

/-! ### Names -/

/-- The words of a node, given those of its children. -/
def nameStep (n : Node) (ts : List (SyntaxTree × Option (List String))) :
    Option (List String) :=
  let inner := ts.head?.bind (·.2)
  match n.kind with
  | .simpleName i => some [c.spelling i]
  | .destructorName _ i => some ["~" ++ c.spelling i]
  | .qualifiedName qualifiers => inner.map (qualifiers.map c.spelling ++ ·)
  | .declaratorName | .namedTypeSpecifier => inner
  | _ => none

/-- The words of a name, the qualifiers first, if the node is a name or stands for one. -/
def nameOf? (t : SyntaxTree) : Option (List String) := t.fold c.nameStep

/-- The last word of a name. -/
def lastWord? (t : SyntaxTree) : Option String := (c.nameOf? t).bind List.getLast?

end SourceCode

end Mend
