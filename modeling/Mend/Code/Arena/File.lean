import Mend.Code.Arena.Statement

/-!
# Building the arena of a file

The parsers that build contain each other as those that only read do, and the knot is tied in the
same way: by the number of tokens.

## Main definitions

* `BuildGrammar.atEnd`, `BuildGrammar.next`, `BuildGrammar.forTokens` — the grammars for a number
  of tokens.
* `Build.file` — a whole file.
* `Ast.ofTokens` — the arena of a file, with its root.
-/

namespace Mend

namespace BuildGrammar

/-- What the parsers do when there are no tokens. -/
def atEnd : BuildGrammar where
  assignment := Parse.fail .expression
  statement := Parse.fail .statement
  simpleDeclaration := fun _ => Parse.fail .declarator
  declaration := Parse.fail .declarator

/-- The parsers for one token more. -/
def next (g : BuildGrammar) : BuildGrammar where
  assignment := Build.assignment g
  statement := Build.statement g
  simpleDeclaration := Build.simpleDeclaration g
  declaration := Build.declaration g

/-- The parsers for at most the given number of tokens. -/
def forTokens : Nat → BuildGrammar
  | 0 => atEnd
  | n + 1 => next (forTokens n)

end BuildGrammar

namespace Build

/-- A whole file. -/
def file (g : BuildGrammar) : Build NodeId := do
  let declarations ← collectWhile (fun s => !s.rest.isEmpty) g.declaration
  add (.file declarations) 0

end Build

/-- The arena of the tokens of a text with the given length.  Its root is the file. -/
def Ast.ofTokens (tokens : List Token) (length : Nat) : Except SyntaxError Ast :=
  let g := BuildGrammar.forTokens (tokens.length + 1)
  match ((Build.file g).run .empty).run ⟨tokens, 0, length⟩ with
  | .ok ((root, a), _) => .ok { a with root := some root }
  | .error e => .error e

end Mend
