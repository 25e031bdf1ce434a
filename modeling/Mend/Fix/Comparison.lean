import Mend.Fix.Patch

/-!
# Fixes for comparisons

A comparison can be inverted or have its operands swapped, and two negations joined by `&&` can be
turned into one.  Each of these fixes is found on the operator.

## Main definitions

* `TokenKind.inverse?`, `TokenKind.swapped?` — the operators to use instead.
* `Query.invertComparison`, `Query.swapOperands`, `Query.joinNegations` — the fixes.
-/

namespace Mend

namespace TokenKind

/-- The operator that holds exactly when a comparison does not. -/
def inverse? : TokenKind → Option String
  | .lessEqual => some ">"
  | .less => some ">="
  | .greater => some "<="
  | .greaterEqual => some "<"
  | .equalEqual => some "!="
  | .exclaimEqual => some "=="
  | _ => none

/-- The operator to use when the operands are swapped; empty when it stays the same. -/
def swapped? : TokenKind → Option String
  | .lessEqual => some ">="
  | .greaterEqual => some "<="
  | .less => some ">"
  | .greater => some "<"
  | .equalEqual | .exclaimEqual | .ampAmp | .pipePipe => some ""
  | _ => none

end TokenKind

namespace Query

variable (q : Query)

/-- The operator of a binary expression, if the query is about it. -/
def operatorHere? (t : SyntaxTree) : Option Nat :=
  match t.label.kind with
  | .binary operator => if q.isOnToken operator then some operator else none
  | _ => none

/-- The sign of a negation. -/
def negationSign? (t : SyntaxTree) : Option Nat :=
  match t.label.kind with
  | .unary operator => if q.file.isKind operator .exclaim then some operator else none
  | _ => none

/-- The changes that negate a binary expression.  Around it, given from the inside out, parentheses
are used when there are any, and a negation of those goes. -/
def negate (t : SyntaxTree) (around : List SyntaxTree) : List Change :=
  let plain : List Change :=
    [.insert (q.file.startOf t) "!(".toList, .insert (q.file.stopOf t) ")".toList]
  match around with
  | [] => plain
  | nested :: rest =>
    match nested.label.kind with
    | .nested _ _ =>
      match rest.head?.bind q.negationSign? with
      | some sign => [.remove (q.file.tokenSpan sign)]
      | none => [.insert (q.file.startOf nested) "!".toList]
    | _ => plain

/-- Puts the inverse operator into a comparison and negates the whole. -/
def invertComparison : List Proposal :=
  match q.path.reverse with
  | [] => []
  | t :: around =>
    match q.operatorHere? t with
    | none => []
    | some operator =>
      match (q.file.kindOf? operator).bind TokenKind.inverse? with
      | none => []
      | some inverse =>
        [q.propose ("Rewrite Using " ++ inverse) q.depth
          (q.negate t around ++ [.replace (q.file.tokenSpan operator) inverse.toList]) []]

/-- Swaps the operands of an expression whose operator allows it. -/
def swapOperands : List Proposal :=
  match q.innermost? with
  | none => []
  | some t =>
    match q.operatorHere? t, t.children with
    | some operator, [left, right] =>
      match (q.file.kindOf? operator).bind TokenKind.swapped? with
      | none => []
      | some instead =>
        let swap : Change := .flip (q.file.spanOf left) (q.file.spanOf right)
        if instead.isEmpty then [q.propose "Swap Operands" q.depth [swap] []]
        else
          [q.propose ("Rewrite Using " ++ instead) q.depth
            [swap, .replace (q.file.tokenSpan operator) instead.toList] []]
    | _, _ => []

/-- Turns two negations joined by `&&` into the negation of both joined by `||`. -/
def joinNegations : List Proposal :=
  match q.outward.find? fun n => n.1.label.kind.isBinary with
  | none => []
  | some (t, depth) =>
    match q.operatorHere? t, t.children.map q.negationSign? with
    | some operator, [some left, some right] =>
      if q.file.isKind operator .ampAmp then
        [q.propose "Rewrite Condition Using ||" depth
          [.replace (q.file.tokenSpan operator) "||".toList,
            .remove (q.file.tokenSpan left), .remove (q.file.tokenSpan right),
            .insert (q.file.startOf t) "!(".toList, .insert (q.file.stopOf t) ")".toList]
          [q.file.spanOf t]]
      else []
    | _, _ => []

end Query

end Mend
