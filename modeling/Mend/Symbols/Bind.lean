import Mend.Code.SourceCode
import Mend.Symbols.Table

/-!
# Finding the symbols of a file

The syntax tree is walked once, from the root down and in the order of the text.  What has been
found so far is handed from node to node; where the walk is, is handed down.

Classes and enumerations are found only where a declaration defines them, not among the specifiers
of a function, a parameter or a condition.

## Main definitions

* `Place` — where the walk is: the scope, the names around it and the access level.
* `SourceCode.sectionsOf` — the sections of a class.
* `SourceCode.bind`, `SourceCode.symbolTable` — the walk, and what it finds in a whole file.
-/

namespace Mend

/-- Where the walk through a tree is. -/
structure Place where
  /-- The scope. -/
  scope : Nat
  /-- The names of the namespaces and classes around. -/
  path : List String
  /-- The access level of members, when the scope is the body of a class. -/
  access : Option AccessLevel
  /-- When the walk is among the specifiers of a declaration, where that lies and whether it has
  declarators. -/
  declaration : Option (Span × Bool)

/-- A place in a scope that is not the body of a class. -/
def Place.inside (p : Place) (scope : Nat) : Place :=
  { p with scope, access := none, declaration := none }

namespace SourceCode

variable (c : SourceCode)

/-! ### Types and names of declarations -/

/-- A keyword that says how something is kept and not what type it has. -/
def isStorage (i : Nat) : Bool :=
  [TokenKind.kwStatic, .kwExtern, .kwInline, .kwVirtual, .kwExplicit, .kwMutable,
    .kwTypedef].any (c.isKind i)

/-- A name as it is written. -/
def writtenName (t : SyntaxTree) : String := qualified ((c.nameOf? t).getD [])

/-- What a specifier adds to the type, if anything. -/
def typeWord? (t : SyntaxTree) : Option String :=
  match t.label.kind with
  | .simpleSpecifier i => if c.isStorage i then none else some (c.spelling i)
  | .namedTypeSpecifier | .elaboratedSpecifier _ | .classSpecifier _ _ _
  | .enumSpecifier _ _ _ => t.name?.map c.writtenName
  | _ => none

/-- The type that specifiers spell. -/
def baseType (specifiers : List SyntaxTree) : SpelledType :=
  .named (" ".intercalate (specifiers.filterMap c.typeWord?))

/-- The type of what a declarator declares, or returns when it declares a function. -/
def declaredType (specifiers : List SyntaxTree) (declarator : SyntaxTree) : SpelledType :=
  let base := c.baseType specifiers
  match declarator.label.kind with
  | .declarator pointers _ =>
    { base with
      signs := String.join ((pointers.filter fun i => !c.isKind i .kwConst).map c.spelling) }
  | _ => base

/-- The name that a declarator declares: its qualifiers, its last word, and where it lies. -/
def declaredName? (declarator : SyntaxTree) : Option (List String × String × Span) :=
  match declarator.core? with
  | none => none
  | some core =>
    match c.nameOf? core with
    | none => none
    | some words =>
      match words.getLast? with
      | none => none
      | some name => some (words.dropLast, name, c.spanOf core)

/-- A parameter. -/
def parameterOf (t : SyntaxTree) : Parameter :=
  match t.declarator? with
  | some d => ⟨c.declaredType t.specifiers d, (c.declaredName? d).map (·.2.1)⟩
  | none => ⟨c.baseType t.specifiers, none⟩

/-- The parameters in a list.  A single `void` stands for none. -/
def parametersOf (list : Option SyntaxTree) : List Parameter :=
  match list with
  | none => []
  | some list =>
    let ps := list.children.map c.parameterOf
    if ps = [⟨.named "void", none⟩] then [] else ps

/-! ### Classes -/

/-- The access level that a label sets. -/
def levelOf (i : Nat) : AccessLevel :=
  match c.kindOf? i with
  | some .kwPublic => .pub
  | some .kwProtected => .prot
  | some .kwSignals => .signals
  | _ => .priv

/-- The keyword that opens a class. -/
def classKeyOf (i : Nat) : ClassKey :=
  match c.kindOf? i with
  | some .kwStruct => .structKey
  | some .kwUnion => .unionKey
  | _ => .classKey

/-- The sections of members, the first of which belong to a section that was begun before. -/
def sectionsFrom (s : AccessSection) : List SyntaxTree → List AccessSection
  | [] => [s]
  | t :: ts =>
    match t.label.kind with
    | .accessLabel access slots colon =>
      let label : Span := ⟨c.tokenStart access, c.tokenStop colon⟩
      s :: sectionsFrom ⟨c.levelOf access, slots.isSome, some label, label.stop, 0⟩ ts
    | .macroMember _ => sectionsFrom s ts
    | _ => sectionsFrom { s with stop := c.stopOf t, members := s.members + 1 } ts

/-- The sections of a class with the given members.  Members before the first label make a section
only if there are any. -/
def sectionsOf (key : ClassKey) (lbrace : Nat) (members : List SyntaxTree) :
    List AccessSection :=
  (c.sectionsFrom ⟨key.defaultAccess, false, none, c.tokenStop lbrace, 0⟩ members).filter
    fun s => s.label.isSome || 0 < s.members

/-- Whether a member is the macro for meta-objects, which declares a function that localizes
strings. -/
def isMetaObjectMacro (t : SyntaxTree) : Bool :=
  match t.label.kind with
  | .macroMember i => c.spelling i == "Q_OBJECT"
  | _ => false

/-! ### Single symbols -/

/-- Adds the variable that a declarator declares. -/
def bindVariable (p : Place) (table : SymbolTable) (specifiers : List SyntaxTree)
    (declarator : SyntaxTree) : SymbolTable :=
  match c.declaredName? declarator with
  | none => table
  | some (_, name, span) =>
    table.addVariable ⟨name, c.declaredType specifiers declarator, p.scope, span.start⟩

/-- The function that a declarator declares in a node that declares or defines it. -/
def functionOf (p : Place) (t declarator : SyntaxTree) (name : List String × String × Span)
    (bodyScope : Option Nat) : FunctionSymbol where
  name := name.2.1
  qualifiers := name.1
  returnType := c.declaredType t.specifiers declarator
  parameters := c.parametersOf declarator.parameterList?
  isConst := declarator.parameterList?.any SyntaxTree.isConst
  scope := p.scope
  bodyScope := bodyScope
  access := p.access
  node := if bodyScope.isSome then t.label.id else declarator.label.id
  nameSpan := name.2.2
  span := c.spanOf t

/-- Whether a declaration names a type anew. -/
def isTypedef (t : SyntaxTree) : Bool :=
  t.specifiers.any fun s =>
    match s.label.kind with
    | .simpleSpecifier i => c.isKind i .kwTypedef
    | _ => false

/-- Adds what a declarator of a declaration declares. -/
def bindDeclarator (p : Place) (t : SyntaxTree) (table : SymbolTable) (declarator : SyntaxTree) :
    SymbolTable :=
  match c.declaredName? declarator with
  | none => table
  | some name =>
    if declarator.parameterList?.isSome then
      table.addFunction (c.functionOf p t declarator name none)
    else if c.isTypedef t then table
    else c.bindVariable p table t.specifiers declarator

/-- Adds the parameters of a function that have names. -/
def bindParameters (p : Place) (table : SymbolTable) (list : Option SyntaxTree) : SymbolTable :=
  match list with
  | none => table
  | some list =>
    list.children.foldl (fun table (t : SyntaxTree) =>
      match t.declarator? with
      | some d => c.bindVariable p table t.specifiers d
      | none => table) table

/-- The enumeration of a node. -/
def enumOf (p : Place) (t : SyntaxTree) : EnumSymbol where
  name := t.name?.bind c.lastWord?
  around := p.path
  scope := p.scope
  enumerators := t.members.filterMap fun m =>
    match m.label.kind with
    | .enumerator i _ => some (c.spelling i)
    | _ => none
  node := t.label.id

/-- The class of a node. -/
def classOf (p : Place) (t : SyntaxTree) (key lbrace rbrace bodyScope : Nat) : ClassSymbol :=
  let name := (t.name?.bind c.lastWord?).getD ""
  {
    name
    path := p.path ++ [name]
    key := c.classKeyOf key
    scope := p.scope
    bodyScope
    node := t.label.id
    lbrace := c.tokenStart lbrace
    rbrace := c.tokenStart rbrace
    sections := c.sectionsOf (c.classKeyOf key) lbrace t.members
    hasMetaObject := t.members.any c.isMetaObjectMacro
  }

/-- Adds a class that a declaration announces: it names the class with its keyword and declares
nothing else. -/
def bindForward (p : Place) (t : SyntaxTree) (table : SymbolTable) (key : Nat) : SymbolTable :=
  match p.declaration, t.name?.bind c.lastWord? with
  | some (span, false), some name =>
    if (c.kindOf? key).any TokenKind.isClassKey then table.addForward ⟨name, p.scope, span⟩
    else table
  | _, _ => table

/-- The place after a node among its siblings: a label sets the access level. -/
def placeAfter (p : Place) (t : SyntaxTree) : Place :=
  match t.label.kind with
  | .accessLabel i _ _ => { p with access := some (c.levelOf i) }
  | _ => p

/-! ### The walk -/

mutual

/-- Adds the symbols of a node. -/
def bind (p : Place) (table : SymbolTable) : SyntaxTree → SymbolTable
  | .node n ts =>
    let t : SyntaxTree := .node n ts
    let openHere (kind : ScopeKind) (span : Span) : SymbolTable × Nat :=
      table.openScope ⟨kind, span, some p.scope⟩
    match n.kind with
    | .file | .declarationStatement | .doStatement _ _ _ _ _ => bindAll p table ts
    | .namespaceBody _ name lbrace rbrace =>
      let name := name.map c.spelling
      let (table, scope) :=
        openHere (.namespaceScope name) ⟨c.tokenStart lbrace, c.tokenStop rbrace⟩
      bindAll { p.inside scope with path := p.path ++ name.toList } table ts
    | .simpleDeclaration _ =>
      let table := bindAll { p with declaration := some (c.spanOf t, !t.declarators.isEmpty) }
        table ts
      t.declarators.foldl (c.bindDeclarator p t) table
    | .elaboratedSpecifier key => c.bindForward p t table key
    | .enumSpecifier _ _ _ =>
      if p.declaration.isSome then table.addEnum (c.enumOf p t) else table
    | .classSpecifier key lbrace rbrace =>
      if p.declaration.isSome then
        let (table, scope) := openHere (.classScope table.classes.length)
          ⟨c.tokenStart lbrace, c.tokenStop rbrace⟩
        let s := c.classOf p t key lbrace rbrace scope
        bindAll { p.inside scope with path := s.path, access := some s.key.defaultAccess }
          (table.addClass s) ts
      else table
    | .functionDefinition =>
      match t.declarator? with
      | none => table
      | some d =>
        match c.declaredName? d with
        | none => table
        | some name =>
          let start := (d.parameterList?.map c.startOf).getD name.2.2.start
          let (table, scope) :=
            openHere (.functionScope table.functions.length) ⟨start, c.stopOf t⟩
          let table := table.addFunction (c.functionOf p t d name (some scope))
          let inner := p.inside scope
          bindAll inner (c.bindParameters inner table d.parameterList?) ts
    | .block _ _ | .ifStatement _ _ _ _ | .whileStatement _ _ _ | .switchStatement _ _ _
    | .forStatement _ _ _ _ _ =>
      let (table, scope) := openHere .blockScope (c.spanOf t)
      bindAll (p.inside scope) table ts
    | .conditionDeclaration =>
      match t.declarator? with
      | none => table
      | some d => c.bindVariable p table t.specifiers d
    | _ => table

/-- Adds the symbols of nodes that follow one another. -/
def bindAll (p : Place) (table : SymbolTable) : List SyntaxTree → SymbolTable
  | [] => table
  | t :: ts => bindAll (c.placeAfter p t) (bind p table t) ts

end

/-- The symbols of a file. -/
def symbolTable : SymbolTable :=
  c.bind ⟨0, [], none, none⟩ { scopes := [⟨.fileScope, ⟨0, c.text.length⟩, none⟩] } c.tree

end SourceCode

end Mend
