import Mend.Fix.CamelCase
import Mend.Fix.Patch

/-!
# Fixes for names

A name with underscores can be written in camel case, wherever the file uses it.  Two tokens with
the same spelling are the same name when they stand for the same symbol.  What stands behind a
point or an arrow is not looked up, and counts as the same name when the symbol is a member.

## Main definitions

* `ParsedFile.symbolOfToken?` — what a token stands for.
* `ParsedFile.usesOf` — the tokens that are the same name as a token.
* `Query.renameToCamelCase` — the fix.
-/

namespace Mend

namespace ParsedFile

variable (f : ParsedFile)

/-- The qualifiers before a token, and the first token of the whole name. -/
def qualifiersBefore : Nat → List String × Nat
  | i + 2 =>
    if f.isKind (i + 1) .colonColon && f.isKind i .identifier then
      let outer := qualifiersBefore i
      (outer.1 ++ [f.spelling i], outer.2)
    else ([], i + 2)
  | i => ([], i)

/-- What a token stands for, with the qualifiers before it. -/
def symbolOfToken? (i : Nat) : Option Symbol :=
  let (qualifiers, first) := f.qualifiersBefore i
  (f.lookupQualified (qualifiers ++ [f.spelling i]) (f.scopeAt (f.tokenStart first))).head?

/-- Whether a symbol is a member of a class. -/
def isMember (s : Symbol) : Bool :=
  let scope : Option Nat :=
    match s with
    | .variableSymbol id => (f.symbols.objects[id]?).map (·.scope)
    | .functionSymbol id => (f.function? id).map (·.scope)
    | _ => none
  match scope.bind f.scopeKind? with
  | some (.classScope _) => true
  | _ => false

/-- Whether a token stands behind a point or an arrow. -/
def isAccessed (i : Nat) : Bool :=
  0 < i && (f.isKind (i - 1) .dot || f.isKind (i - 1) .arrow)

/-- The tokens that are the same name as a token. -/
def usesOf (i : Nat) : List Nat :=
  let symbol := f.symbolOfToken? i
  (List.range f.tokens.size).filter fun j =>
    f.isKind j .identifier && f.spelling j == f.spelling i &&
      (if f.isAccessed j then symbol.any f.isMember else f.symbolOfToken? j == symbol)

end ParsedFile

namespace Query

variable (q : Query)

/-- The token of a name that can be written in another way. -/
def nameToken? (t : SyntaxTree) : Option Nat :=
  match t.label.kind with
  | .simpleName i => some i
  | .namespaceBody _ name _ _ => name
  | _ => none

/-- Writes a name in camel case. -/
def renameToCamelCase : List Proposal :=
  match q.innermost?.bind nameToken? with
  | none => []
  | some i =>
    let name := (q.file.spelling i).toList
    if CamelCase.applies name then
      let changes : List Change := (q.file.usesOf i).map fun j =>
        .replace (q.file.tokenSpan j) (CamelCase.ofName name)
      [q.propose "Convert to Camel Case" q.depth changes []]
    else []

end Query

end Mend
