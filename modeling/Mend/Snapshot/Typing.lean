import Mend.Snapshot.Lookup

/-!
# Types of expressions

The type of an expression, as far as it can be told from declarations.  A type is worked out from
the leaves up.  A name has two types: one as a value, and one for what a call of it returns.

## Main definitions

* `SpelledType.ofNumber` — the type of a number, told from its spelling.
* `NodeTypes` — the two types of a node.
* `ParsedFile.typeOf?` — the type of an expression.
-/

namespace Mend

/-- The type of a number.  A point or an exponent makes it a floating-point number, and the letters
at its end tell how long it is and whether it has a sign. -/
def SpelledType.ofNumber (spelling : Text) : SpelledType :=
  let lower := spelling.map Char.toLower
  let isHex := "0x".toList.isPrefixOf lower
  if !isHex && (lower.contains '.' || lower.contains 'e') then
    .named (if lower.getLast? = some 'f' then "float" else "double")
  else
    let ending := lower.reverse.takeWhile fun c => c == 'u' || c == 'l'
    let base :=
      match ending.count 'l' with
      | 0 => "int"
      | 1 => "long"
      | _ => "long long"
    .named (if ending.contains 'u' then "unsigned " ++ base else base)

/-- The types of a node. -/
structure NodeTypes where
  /-- The type of its value. -/
  value : Option SpelledType
  /-- The type of what a call of it returns. -/
  called : Option SpelledType
  deriving Inhabited

namespace ParsedFile

variable (f : ParsedFile)

/-- The type of the value that a symbol stands for. -/
def typeOfSymbol? : Symbol → Option SpelledType
  | .variableSymbol id => f.symbols.objects[id]?.map (·.type)
  | .enumerator id _ => (f.symbols.enums[id]?.bind (·.fullName?)).map .named
  | _ => none

/-- The type of what a call of a symbol returns. -/
def typeOfCall? : Symbol → Option SpelledType
  | .functionSymbol id =>
    ((f.function? id).map (·.returnType)).filter fun t => !t.isEmpty
  | .classSymbol id => (f.class? id).map fun c => .named (qualified c.path)
  | _ => none

/-- The class whose member an access names, and the name of the member. -/
def accessed? (object : Option SpelledType) (access : Nat) (member : SyntaxTree) (scope : Nat) :
    Option (ClassSymbol × String) := do
  let type ← object
  let type ← if f.isKind access .arrow then type.plain.pointee? else some type
  let id ← f.classOfType? type.plain scope
  let name ← f.lastWord? member
  return (← f.class? id, name)

/-- The types of a name. -/
def typesOfName (words : Option (List String)) (scope : Nat) : NodeTypes :=
  let found := f.lookupQualified (words.getD []) scope
  ⟨found.findSome? f.typeOfSymbol?, found.findSome? f.typeOfCall?⟩

/-- The types of an access to a member. -/
def typesOfAccess (target : Option (ClassSymbol × String)) : NodeTypes :=
  match target with
  | none => ⟨none, none⟩
  | some (c, name) =>
    ⟨(f.symbols.objects.find? fun v => v.scope == c.bodyScope && v.name == name).map (·.type),
      ((f.symbols.functionsIn c.bodyScope).find? (·.name == name)).map (·.returnType)⟩

/-- The type of the object of the member function that a scope lies in. -/
def typeOfThis? (scope : Nat) : Option SpelledType := do
  let function ← f.enclosingFunction? scope
  let id ← f.ownerClass? function
  let c ← f.class? id
  return (SpelledType.named c.name).pointerTo

/-- The type of a unary expression. -/
def typeOfUnary? (operator : Nat) (operand : Option SpelledType) : Option SpelledType :=
  match f.kindOf? operator with
  | none => none
  | some .exclaim => some (.named "bool")
  | some .amp => operand.map (·.pointerTo)
  | some .star => operand.bind (·.pointee?)
  | some _ => operand

/-- The type of a binary expression. -/
def typeOfBinary? (operator : Nat) (left right : Option SpelledType) : Option SpelledType :=
  match f.kindOf? operator with
  | none => none
  | some k =>
    if k.isComparison || k == .ampAmp || k == .pipePipe then some (.named "bool")
    else left <|> right

/-- The types of a node, given those of its children. -/
def typesStep (n : Node) (ts : List (SyntaxTree × NodeTypes)) : NodeTypes :=
  let t : SyntaxTree := .node n (ts.map (·.1))
  let scope := f.scopeAt (f.startOf t)
  let value (i : Nat) : Option SpelledType := ts[i]?.bind (·.2.value)
  let known (type : Option SpelledType) : NodeTypes := ⟨type, none⟩
  match n.kind with
  | .numericLiteral i =>
    match f.kindOf? i with
    | none => known none
    | some .charLiteral => known (some (.named "char"))
    | some _ => known (some (.ofNumber (f.spelling i).toList))
  | .stringLiteral (some _) _ => known (some (SpelledType.named "NSString").pointerTo)
  | .stringLiteral none _ => known (some (SpelledType.named "const char").pointerTo)
  | .boolLiteral _ => known (some (.named "bool"))
  | .this _ => known (f.typeOfThis? scope)
  | .simpleName _ | .qualifiedName _ => f.typesOfName (f.nameOf? t) scope
  | .nested _ _ | .postfixed _ => known (value 0)
  | .unary operator => known (f.typeOfUnary? operator (value 0))
  | .binary operator => known (f.typeOfBinary? operator (value 0) (value 1))
  | .conditional _ _ => known (value 1 <|> value 2)
  | .arrayAccess _ _ => known ((value 0).bind (·.pointee?))
  | .memberAccess access =>
    match ts with
    | [object, member] => f.typesOfAccess (f.accessed? object.2.value access member.1 scope)
    | _ => known none
  | .call _ _ => known (ts.head?.bind (·.2.called))
  | _ => known none

/-- The type of an expression, if it can be told. -/
def typeOf? (t : SyntaxTree) : Option SpelledType := (t.fold f.typesStep).value

end ParsedFile

end Mend
