import Mend.Snapshot.ParsedFile

/-!
# Looking up names

A name is looked up in a scope and then in the scopes around it, from the inside out, until one of
them declares it.  A member function that is defined outside of its class also sees the members of
the class, right after its own parameters.

A name with qualifiers is looked up by its end: it stands for whatever is declared under a full
name that ends with it.

## Main definitions

* `ParsedFile.scopeAt` — the innermost scope at an offset.
* `ParsedFile.scopeChain` — the scopes that are visible from a scope, from the inside out.
* `ParsedFile.lookup`, `ParsedFile.lookupQualified` — what a name stands for.
* `ParsedFile.classOfType?`, `ParsedFile.enumOfType?` — what the name of a type stands for.
* `Snapshot.classDefinition?`, `Snapshot.memberDefinitions` — the same over all files.
-/

namespace Mend

/-- The positions, in a list, of the items with a property. -/
def positionsWhere {α : Type} (p : α → Bool) (l : List α) : List Nat :=
  (l.zipIdx.filter fun x => p x.1).map (·.2)

/-- Of numbered scopes, the one that covers the fewest characters; of several, the last one. -/
def narrowest : List (Scope × Nat) → Option (Scope × Nat)
  | [] => none
  | s :: rest =>
    match narrowest rest with
    | none => some s
    | some t => if s.1.span.length < t.1.span.length then some s else some t

namespace ParsedFile

variable (f : ParsedFile)

/-- The class with a number. -/
def class? (id : Nat) : Option ClassSymbol := f.symbols.classes[id]?

/-- The function with a number. -/
def function? (id : Nat) : Option FunctionSymbol := f.symbols.functions[id]?

/-- The scope with a number. -/
def scope? (id : Nat) : Option Scope := f.symbols.scopes[id]?

/-- What the scope with a number belongs to. -/
def scopeKind? (id : Nat) : Option ScopeKind := (f.scope? id).map fun s => s.kind

/-! ### Scopes -/

/-- The innermost scope at an offset; both ends of a scope count. -/
def scopeAt (o : Nat) : Nat :=
  match narrowest (f.symbols.scopes.zipIdx.filter fun s => decide (s.1.span.Touches o)) with
  | some s => s.2
  | none => 0

/-- A class by its path, or by the end of its path. -/
def classNamed? (words : List String) : Option Nat :=
  if words.isEmpty then none
  else
    f.symbols.classes.findIdx? (fun c => c.path == words) <|>
      f.symbols.classes.findIdx? (fun c => words.isSuffixOf c.path)

/-- The class that a function is a member of: the class that declares it in its body, or the class
that its qualifiers name. -/
def ownerClass? (function : Nat) : Option Nat :=
  match f.function? function with
  | none => none
  | some g =>
    match f.scopeKind? g.scope with
    | some (.classScope id) => some id
    | _ => f.classNamed? g.qualifiers

/-- The scope that is looked at after a scope, given the scopes before it. -/
def scopeAfter? (seen : List Nat) (s : Scope) : Option Nat :=
  match s.kind with
  | .functionScope id =>
    let body := ((f.ownerClass? id).bind f.class?).map (·.bodyScope)
    body.filter (!seen.contains ·) <|> s.parent
  | _ => s.parent

/-- At most `n` scopes, from a scope on, that have not been seen before. -/
def chainFrom : Nat → List Nat → Nat → List Nat
  | 0, _, _ => []
  | n + 1, seen, id =>
    if seen.contains id then []
    else
      let seen := id :: seen
      id :: (match (f.scope? id).bind (f.scopeAfter? seen) with
        | some next => chainFrom n seen next
        | none => [])

/-- The scopes that are visible from a scope, from the inside out.  None comes twice, so there are
no more of them than the file has. -/
def scopeChain (scope : Nat) : List Nat := f.chainFrom (f.symbols.scopes.length + 1) [] scope

/-- The names of the namespaces and classes around a scope, from the outside in. -/
def namesAround (scope : Nat) : List String :=
  let kinds := (f.scopeChain scope).filterMap f.scopeKind?
  let classPath : ScopeKind → Option (List String)
    | .classScope id => (f.class? id).map (·.path)
    | _ => none
  let namespaceName : ScopeKind → Option String
    | .namespaceScope name => name
    | _ => none
  match kinds.findSome? classPath with
  | some path => path
  | none => (kinds.filterMap namespaceName).reverse

/-- The function that a scope lies in.  A scope comes after the scope around it, so the search
ends. -/
def enclosingFunction? (scope : Nat) : Option Nat :=
  match f.scope? scope with
  | none => none
  | some s =>
    match s.kind, s.parent with
    | .functionScope id, _ => some id
    | _, some parent => if parent < scope then enclosingFunction? parent else none
    | _, none => none
termination_by scope

/-! ### Names -/

/-- What is declared in an enumeration with a number under a name: the enumeration itself, or one
of its enumerators. -/
def declaredInEnum (name : String) (e : EnumSymbol) (id : Nat) : List Symbol :=
  (if e.name = some name then [.enumSymbol id] else []) ++
    ((e.enumerators.findIdx? (· == name)).map (.enumerator id ·)).toList

/-- What is declared in a scope under a name. -/
def declaredIn (name : String) (scope : Nat) : List Symbol :=
  let s := f.symbols
  (positionsWhere (fun v => v.scope == scope && v.name == name) s.objects).map
      .variableSymbol ++
    (positionsWhere (fun g => g.scope == scope && g.qualifiers.isEmpty && g.name == name)
      s.functions).map .functionSymbol ++
    (positionsWhere (fun c => c.scope == scope && c.name == name) s.classes).map .classSymbol ++
    s.enums.zipIdx.flatMap (fun e =>
      if e.1.scope = scope then declaredInEnum name e.1 e.2 else []) ++
    (positionsWhere (fun w => w.scope == scope && w.name == name) s.forwards).map .forwardClass

/-- What a name stands for in a scope: everything of that name in the innermost scope that declares
it. -/
def lookup (name : String) (scope : Nat) : List Symbol :=
  (((f.scopeChain scope).map (f.declaredIn name)).find? (!·.isEmpty)).getD []

/-- What an enumeration with a number declares under a full name that ends with some words. -/
def enumMatches (words : List String) (e : EnumSymbol) (id : Nat) : List Symbol :=
  (if e.path?.any (words.isSuffixOf ·) then [.enumSymbol id] else []) ++
    (positionsWhere (fun n => words.isSuffixOf (e.enumeratorPath n)) e.enumerators).map
      (.enumerator id ·)

/-- What a name stands for, given by its words.  A single word is looked up in a scope. -/
def lookupQualified (words : List String) (scope : Nat) : List Symbol :=
  match words with
  | [] => []
  | [name] => f.lookup name scope
  | _ =>
    let members :=
      match f.classNamed? words.dropLast, words.getLast? with
      | some id, some name =>
        match f.class? id with
        | some c => f.declaredIn name c.bodyScope
        | none => []
      | _, _ => []
    f.symbols.enums.zipIdx.flatMap (fun e => enumMatches words e.1 e.2) ++
      (positionsWhere (fun c => words.isSuffixOf c.path) f.symbols.classes).map .classSymbol ++
      members

/-! ### Types -/

/-- The class that a symbol is. -/
def classOfSymbol? : Symbol → Option Nat
  | .classSymbol id => some id
  | _ => none

/-- The enumeration that a symbol is. -/
def enumOfSymbol? : Symbol → Option Nat
  | .enumSymbol id => some id
  | _ => none

/-- The class that a type names, looked up in a scope. -/
def classOfType? (t : SpelledType) (scope : Nat) : Option Nat :=
  let words := t.nameWords
  let found :=
    match words with
    | [name] => (f.lookup name scope).findSome? classOfSymbol?
    | _ => none
  found <|> f.classNamed? words

/-- The enumeration that a type names, looked up in a scope. -/
def enumOfType? (t : SpelledType) (scope : Nat) : Option Nat :=
  if t.plain.signs.isEmpty then (f.lookupQualified t.nameWords scope).findSome? enumOfSymbol?
  else none

/-- Whether a class declares a function of a name.  The macro for meta-objects declares one too. -/
def declaresFunction (id : Nat) (name : String) : Bool :=
  match f.class? id with
  | none => false
  | some c =>
    (name == "tr" && c.hasMetaObject) ||
      (f.symbols.functionsIn c.bodyScope).any (·.name == name)

end ParsedFile

/-! ### All files -/

namespace Snapshot

/-- The file and the number of a class, found by its path, or else by the end of its path.  Files
are searched in the order of their paths. -/
def classDefinition? (s : Snapshot) (words : List String) : Option (ParsedFile × Nat) :=
  if words.isEmpty then none
  else
    s.values.findSome? (fun f =>
      (f.symbols.classes.findIdx? fun c => c.path == words).map (f, ·)) <|>
      s.values.findSome? (fun f => (f.classNamed? words).map (f, ·))

/-- Whether a function is the definition, outside of its class, of a member that the class with a
path declares. -/
def definesMember (path : List String) (member g : FunctionSymbol) : Bool :=
  g.isDefinition && !g.qualifiers.isEmpty && decide (g.SameSignature member) &&
    g.qualifiers.isSuffixOf path

/-- The definitions of a member outside of its class, in all files. -/
def memberDefinitions (s : Snapshot) (path : List String) (member : FunctionSymbol) :
    List (ParsedFile × Nat) :=
  s.values.flatMap fun f =>
    (positionsWhere (definesMember path member) f.symbols.functions).map (f, ·)

end Snapshot

end Mend
