import Mend.Fix.Patch

/-!
# Fixes for declarations

A declaration of several things can be split into one for each, a declaration in a condition can be
moved out of it, and an assignment to an unknown name can be made a declaration.

## Main definitions

* `Query.splitDeclaration` — one declaration for each declarator.
* `Query.hoistFromIf`, `Query.hoistFromWhile` — declarations out of conditions.
* `Query.declareLocal` — a declaration from an assignment.
-/

namespace Mend

namespace Query

variable (q : Query)

/-! ### Splitting -/

/-- Where the specifiers of a declaration lie, if there are any. -/
def specifierSpan? (t : SyntaxTree) : Option Span :=
  match t.specifiers.head?, t.specifiers.getLast? with
  | some first, some last => some ⟨q.file.startOf first, q.file.stopOf last⟩
  | _, _ => none

/-- Whether a declaration declares several things and defines no type on the spot. -/
def isSplittable (t : SyntaxTree) : Bool :=
  !t.specifiers.any (·.label.kind.definesType) && 1 < t.declarators.length

/-- The changes that give the second of two neighbouring declarators a declaration of its own, at
an offset. -/
def splitOff (specifiers : Span) (o : Nat) (before declarator : SyntaxTree) : List Change :=
  [.insert o "\n".toList, .copy specifiers o, .insert o " ".toList,
    .move (q.file.spanOf declarator) o, .insert o ";".toList,
    .remove ⟨q.file.stopOf before, q.file.startOf declarator⟩]

/-- Splits a declaration into one for each declarator.  It is found on the specifiers and on the
name of a declarator. -/
def splitDeclaration : List Proposal :=
  let isDeclaration (t : SyntaxTree) : Bool :=
    match t.label.kind with
    | .simpleDeclaration _ => true
    | _ => false
  match q.outward.find? fun n => isDeclaration n.1 with
  | none => []
  | some (t, depth) =>
    match q.specifierSpan? t with
    | none => []
    | some specifiers =>
      let isOnName := (q.path.find? (·.label.kind.isDeclaratorName)).any q.isOnNode
      if isSplittable t && (decide (specifiers.Touches q.focus) || isOnName) then
        let changes := (t.declarators.zip t.declarators.tail).flatMap fun p =>
          q.splitOff specifiers (q.file.stopOf t) p.1 p.2
        [q.propose "Split Declaration" depth changes [q.file.spanOf t]]
      else []

/-! ### Hoisting -/

/-- The name node of the declaration that a condition is, and whether it has an initial value. -/
def declaredInCondition? (condition : SyntaxTree) : Option (SyntaxTree × Bool) :=
  if condition.label.kind.isConditionDeclaration then
    match condition.declarator? with
    | some d => d.core?.map (·, d.initializer?.isSome)
    | none => none
  else none

/-- Moves the declaration in the condition of an `if` statement before the statement. -/
def hoistFromIf : List Proposal :=
  (q.decideOutward fun t depth =>
    match t.label.kind, t.children with
    | .ifStatement _ _ _ _, condition :: _ =>
      match declaredInCondition? condition with
      | none => none
      | some (name, _) =>
        if q.isOnNode name then
          let o := q.file.startOf t
          some (some (q.propose "Move Declaration out of Condition" depth
            [.copy (q.file.spanOf name) (q.file.startOf condition),
              .move (q.file.spanOf condition) o, .insert o ";\n".toList]
            [q.file.spanOf t]))
        else none
    | _, _ => none).toList

/-- Moves the declaration in the condition of a `while` statement before the statement, and leaves
the assignment in the condition.  The declaration must have an initial value. -/
def hoistFromWhile : List Proposal :=
  (q.decideOutward fun t depth =>
    match t.label.kind, t.children with
    | .whileStatement _ _ _, condition :: _ =>
      match declaredInCondition? condition with
      | none => none
      | some (_, false) => some none
      | some (name, true) =>
        if q.isOnNode name then
          let o := q.file.startOf t
          let start := q.file.startOf condition
          some (some (q.propose "Move Declaration out of Condition" depth
            [.insert start "(".toList, .insert (q.file.stopOf condition) ") != 0".toList,
              .move ⟨start, q.file.startOf name⟩ o, .copy (q.file.spanOf name) o,
              .insert o ";\n".toList]
            [q.file.spanOf t]))
        else none
    | _, _ => none).toList

/-! ### Declaring -/

/-- Whether a symbol has a value. -/
def isValue : Symbol → Bool
  | .variableSymbol _ | .enumerator _ _ => true
  | _ => false

/-- A type as it is written before a name.  A space goes between them unless a sign stands
there. -/
def typeBeforeName (type : Text) : Text :=
  match type.getLast? with
  | some c => if isLetterOrDigit c || c == ' ' || c == '>' then type ++ [' '] else type
  | none => type

/-- The patch that puts the type of an expression before an assignment. -/
def typePatch (assignment value : SyntaxTree) : Except FixError Patch :=
  match (q.file.typeOf? value).map SpelledType.render with
  | none | some "" => .error (.unresolvedType (q.file.textOf value))
  | some type =>
    Patch.ofChanges q.file.path
      [.insert (q.file.startOf assignment) (typeBeforeName type.toList)] []

/-- Makes the assignment to a name that has not been declared a declaration. -/
def declareLocal : List Proposal :=
  (q.decideOutward fun t depth =>
    match t.label.kind, t.children with
    | .binary operator, [left, right] =>
      match left.label.kind with
      | .simpleName i =>
        let found := q.file.lookup (q.file.spelling i) (q.file.scopeAt (q.file.startOf left))
        if q.file.isKind operator .equal && q.isOnNode left && !found.any isValue then
          some (some (.atDepth "Add Local Declaration" depth (q.typePatch t right)))
        else none
      | _ => none
    | _, _ => none).toList

end Query

end Mend
