import Mend.Code.Parser.Statement

/-!
# Parsing files

The parsers of expressions, declarations and statements contain each other.  The knot is tied by
the number of tokens: whenever one of them calls another through the grammar, it has taken a token
first, so a grammar that is good for `n` tokens makes one that is good for `n + 1`.  For no tokens
at all, every parser fails.

A text is read into an arena, by parsers that take the same tokens.  The parsers here make the tree
at once, and leave the numbers of the nodes to `SyntaxTree.ofPieces`.  That the arena holds this
tree is proved in `Mend.Proofs.ArenaTrees`.

## Main definitions

* `Grammar.atEnd`, `Grammar.next`, `Grammar.forTokens` — the grammars for a number of tokens.
* `PieceTree.ofTokens` — the tree of a file.
-/

namespace Mend

namespace Grammar

/-- What the parsers do when there are no tokens. -/
def atEnd : Grammar where
  assignment := Parse.fail .expression
  statement := Parse.fail .statement
  simpleDeclaration := fun _ => Parse.fail .declarator
  declaration := Parse.fail .declarator

/-- The parsers for one token more. -/
def next (g : Grammar) : Grammar where
  assignment := Parse.assignment g
  statement := Parse.statement g
  simpleDeclaration := Parse.simpleDeclaration g
  declaration := Parse.declaration g

/-- The parsers for at most the given number of tokens. -/
def forTokens : Nat → Grammar
  | 0 => atEnd
  | n + 1 => next (forTokens n)

end Grammar

namespace Parse

/-- A whole file. -/
def file (g : Grammar) : Parse PieceTree := do
  let declarations ← collectWhile (fun s => !s.rest.isEmpty) g.declaration
  close .file 0 declarations

end Parse

/-- The tree of the tokens of a text with the given length. -/
def PieceTree.ofTokens (tokens : List Token) (length : Nat) : Except SyntaxError PieceTree :=
  match (Parse.file (Grammar.forTokens (tokens.length + 1))).run ⟨tokens, 0, length⟩ with
  | .ok (t, _) => .ok t
  | .error e => .error e

end Mend
