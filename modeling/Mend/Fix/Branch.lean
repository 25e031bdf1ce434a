import Mend.Fix.Patch

/-!
# Fixes for branches

The branch of an `if` statement can get braces, the condition of an `if` statement can be split at
an operator, and a `switch` statement can get the cases it lacks.

## Main definitions

* `Query.addBraces` — braces around a branch.
* `Query.splitIf` — two statements for a condition with two parts.
* `Query.completeSwitch` — the missing cases.
-/

namespace Mend

namespace Query

variable (q : Query)

/-! ### Braces -/

/-- Puts braces around a statement, at a depth.  The opening one goes behind the token before the
statement. -/
def brace (t : SyntaxTree) (depth : Nat) : Proposal :=
  let start := q.file.tokenStop (t.label.first - 1)
  let stop := q.file.stopOf t
  q.propose "Add Curly Braces" depth
    [.insert start " \x7b".toList, .insert stop "\n\x7d".toList] [⟨start, stop⟩]

/-- The keyword of an `if` statement and the branch taken when its condition holds, when that
branch has no braces. -/
def bareBranch? (t : SyntaxTree) : Option (Nat × SyntaxTree) :=
  match t.label.kind, t.children with
  | .ifStatement keyword _ _ _, _ :: branch :: _ =>
    if branch.label.kind.isBlock then none else some (keyword, branch)
  | _, _ => none

/-- Puts braces around the branch of an `if` statement.  It is found on the keyword and in the
branch. -/
def addBraces : List Proposal :=
  let onKeyword := (q.innermost?.bind bareBranch?).filter fun b => q.isOnToken b.1
  match onKeyword with
  | some (_, branch) => [q.brace branch q.depth]
  | none =>
    (q.outward.findSome? fun (t, depth) =>
      match bareBranch? t with
      | some (_, branch) => if q.isOnNode branch then some (q.brace branch depth) else none
      | none => none).toList

/-! ### Splitting -/

/-- An operator at which a condition can be split: its expression with the depth and the two
parts, and whether it is `&&`. -/
structure SplitPoint where
  /-- What stands before the operator. -/
  left : SyntaxTree
  /-- What stands after the operator. -/
  right : SyntaxTree
  /-- Whether both parts must hold. -/
  isAnd : Bool
  /-- How deep the expression lies. -/
  depth : Nat

/-- The first expression, of those from a condition inward, whose operator the query is about.  All
operators up to there are the same; `&&` is no such operator when there is another branch. -/
def splitPoint? (hasElse : Bool) (seen : Option TokenKind) :
    List (SyntaxTree × Nat) → Option SplitPoint
  | [] => none
  | (t, depth) :: rest =>
    match t.label.kind, t.children with
    | .binary operator, [left, right] =>
      match q.file.kindOf? operator with
      | none => none
      | some k =>
        let isAnd := k == .ampAmp
        let suits :=
          match seen with
          | some k' => k == k'
          | none => (isAnd && !hasElse) || k == .pipePipe
        if !suits then none
        else if q.isOnToken operator then some ⟨left, right, isAnd, depth⟩
        else splitPoint? hasElse (some k) rest
    | _, _ => none

/-- The changes that turn one statement with both parts of a condition into one inside the
other. -/
def splitAnd (t : SyntaxTree) (p : SplitPoint) : List Change :=
  let o := q.file.startOf t
  [.insert o "if (".toList, .move (q.file.spanOf p.left) o, .insert o ") \x7b\n".toList,
    .remove ⟨q.file.stopOf p.left, q.file.startOf p.right⟩,
    .insert (q.file.stopOf t) "\n\x7d".toList]

/-- The changes that turn one statement with two alternatives into one after the other. -/
def splitOr (rparen : Nat) (branch : SyntaxTree) (p : SplitPoint) : List Change :=
  let o := q.file.stopOf branch
  [.insert o (if branch.label.kind.isBlock then " " else "\n").toList,
    .insert o "else if (".toList,
    .move ⟨q.file.startOf p.right, q.file.tokenStart rparen⟩ o, .insert o ")".toList,
    .copy ⟨q.file.tokenStop rparen, o⟩ o,
    .remove ⟨q.file.stopOf p.left, q.file.startOf p.right⟩]

/-- Splits an `if` statement at an operator of its condition. -/
def splitIf : List Proposal :=
  let isIf (t : SyntaxTree) : Bool :=
    match t.label.kind with
    | .ifStatement _ _ _ _ => true
    | _ => false
  match q.outward.find? fun n => isIf n.1 with
  | none => []
  | some (t, depth) =>
    match t.label.kind, t.children with
    | .ifStatement _ _ rparen elseToken, _ :: branch :: _ =>
      match q.splitPoint? elseToken.isSome none (q.inward.drop (depth + 1)) with
      | none => []
      | some p =>
        [q.propose "Split if Statement" p.depth
          (if p.isAnd then q.splitAnd t p else q.splitOr rparen branch p) [q.file.spanOf t]]
    | _, _ => []

/-! ### Cases -/

/-- The full name of an enumerator that a symbol is. -/
def fullEnumerator? : Symbol → Option String
  | .enumerator id index => (q.file.symbols.enums[id]?).bind fun e => e.fullEnumerators[index]?
  | _ => none

/-- The enumerators that a statement names, if it is a `case` label. -/
def namedByCase (t : SyntaxTree) : List String :=
  match t.label.kind, t.children with
  | .caseLabel _ _, [value] =>
    let scope := q.file.scopeAt (q.file.startOf value)
    (q.file.lookupQualified ((q.file.nameOf? value).getD []) scope).filterMap q.fullEnumerator?
  | _, _ => []

/-- The enumeration that the value of a condition belongs to. -/
def enumOfCondition? (condition : SyntaxTree) : Option EnumSymbol := do
  let type ← q.file.typeOf? condition
  let id ← q.file.enumOfType? type (q.file.scopeAt (q.file.startOf condition))
  q.file.symbols.enums[id]?

/-- The enumerators that no `case` label among the statements of a block names. -/
def missingCases (condition body : SyntaxTree) : List String :=
  match q.enumOfCondition? condition with
  | none => []
  | some e =>
    let named := body.children.flatMap q.namedByCase
    e.fullEnumerators.filter fun n => !named.contains n

/-- The text of cases that do nothing. -/
def caseText (names : List String) : String :=
  "\ncase " ++ ":\nbreak;\ncase ".intercalate names ++ ":\nbreak;"

/-- Adds the cases that a `switch` statement lacks.  It is found on the keyword. -/
def completeSwitch : List Proposal :=
  (q.decideOutward fun t depth =>
    match t.label.kind, t.children with
    | .switchStatement keyword _ _, [condition, body] =>
      match body.label.kind with
      | .block lbrace _ =>
        let names := if q.isOnToken keyword then q.missingCases condition body else []
        if names.isEmpty then some none
        else
          some (some (q.propose "Complete Switch Statement" depth
            [.insert (q.file.tokenStop lbrace) (caseText names).toList] [q.file.spanOf body]))
      | _ => some none
    | _, _ => none).toList

end Query

end Mend
