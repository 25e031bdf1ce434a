import Mend.Code.Parser.Expression

/-!
# Declarations

The parser of declarations: specifiers, declarators, classes, enumerations, functions and
namespaces.

A name among the specifiers is the name of a type unless a declarator begins with it.  A declarator
does when a parameter list follows the name, or when the name is that of a destructor.

## Main definitions

* `Parse.specifiers`, `Parse.declarator` — the two halves of a declaration.
* `Parse.classSpecifier`, `Parse.enumSpecifier` — types that are defined on the spot.
* `Parse.simpleDeclaration`, `Parse.declaration` — declarations.
-/

namespace Mend

namespace TokenKind

/-- A keyword that names a built-in type, or a part of one. -/
def isTypeKeyword : TokenKind → Bool
  | kwUnsigned | kwSigned | kwShort | kwLong | kwInt | kwChar | kwBool | kwVoid | kwFloat
  | kwDouble | kwAuto => true
  | _ => false

/-- A keyword that is a specifier by itself. -/
def isSpecifier (k : TokenKind) : Bool :=
  k.isTypeKeyword ||
    [kwConst, kwVolatile, kwStatic, kwExtern, kwInline, kwVirtual, kwExplicit, kwMutable,
      kwTypedef].contains k

/-- A keyword that opens a class. -/
def isClassKey : TokenKind → Bool
  | kwClass | kwStruct | kwUnion => true
  | _ => false

end TokenKind

namespace Parse

/-- A block of statements. -/
def block (g : Grammar) : Parse PieceTree := do
  let first := (← get).position
  let lbrace ← expect .lBrace
  let statements ← collectWhile (·.isBefore .rBrace) g.statement
  let rbrace ← expect .rBrace
  close (.block lbrace rbrace) first statements

/-! ### Types -/

/-- An enumerator. -/
def enumerator (g : Grammar) : Parse PieceTree := do
  let first := (← get).position
  let name ← expectName .enumerator
  match ← eat? .equal with
  | some equal =>
    let value ← conditional g
    close (.enumerator name (some equal)) first [value]
  | none => close (.enumerator name none) first []

/-- Enumerators up to the closing brace, in at most `n` rounds.  A comma may stand after the last
one. -/
def enumerators (g : Grammar) : Nat → Parse (List PieceTree)
  | 0 => fail .enumerator
  | n + 1 => do
    if (← get).isAt .rBrace then return []
    let e ← enumerator g
    if (← eat? .comma).isSome then return e :: (← enumerators g n) else return [e]

/-- The name of a type that is defined or named with its keyword, if there is one. -/
def typeName? : Parse (Option PieceTree) := do
  if (← get).isAt .identifier then return some (← name) else return none

/-- An enumeration with its body, or the name of one with its keyword. -/
def enumSpecifier (g : Grammar) : Parse PieceTree := do
  let keyword ← advance
  let name ← typeName?
  match ← eat? .lBrace, name with
  | some lbrace, _ =>
    let values ← enumerators g ((← get).rest.length + 1)
    let rbrace ← expect .rBrace
    close (.enumSpecifier keyword lbrace rbrace) keyword (name.toList ++ values)
  | none, some name => close (.elaboratedSpecifier keyword) keyword [name]
  | none, none => fail .enumName

/-- A label that sets the access level. -/
def accessLabel : Parse PieceTree := do
  let access ← advance
  let slots ← eat? .kwSlots
  let colon ← expect .colon
  close (.accessLabel access slots colon) access []

/-- A macro among the members, with the semicolon after it if there is one. -/
def macroMember : Parse PieceTree := do
  let token ← advance
  let _ ← eat? .semicolon
  close (.macroMember token) token []

/-- Whether the next token is spelled in a way. -/
def isSpelled (spelling : String) (s : TokenStream) : Bool :=
  s.rest.head?.any (·.spelling == spelling)

/-- A member of a class. -/
def member (g : Grammar) : Parse PieceTree := do
  match ← peek with
  | some .kwPublic | some .kwProtected | some .kwPrivate | some .kwSignals => accessLabel
  | some .identifier =>
    if isSpelled "Q_OBJECT" (← get) then macroMember else g.simpleDeclaration .classScope
  | _ => g.simpleDeclaration .classScope

/-- A class with its body, or the name of one with its keyword.  The base classes belong to the
node, but it does not tell them apart. -/
def classSpecifier (g : Grammar) : Parse PieceTree := do
  let key ← advance
  let name ← typeName?
  let s ← get
  if s.isAt .lBrace || s.isAt .colon then
    if (← eat? .colon).isSome then skipTo .lBrace
    let lbrace ← expect .lBrace
    let members ← collectWhile (·.isBefore .rBrace) (member g)
    let rbrace ← expect .rBrace
    close (.classSpecifier key lbrace rbrace) key (name.toList ++ members)
  else
    match name with
    | some name => close (.elaboratedSpecifier key) key [name]
    | none => fail .className

/-! ### Specifiers -/

/-- Whether a name with a parameter list or the name of a destructor comes first.  Two colons
before the name have been passed over. -/
def opensDeclarator : List Token → Bool
  | t :: u :: rest =>
    t.kind == .identifier &&
      (if u.kind = .colonColon then rest.head?.any (·.kind == .tilde) || opensDeclarator rest
      else u.kind == .lParen)
  | _ => false

/-- Whether a name comes next that a declarator begins with. -/
def isDeclaratorNext (s : TokenStream) : Bool :=
  opensDeclarator (if s.isAt .colonColon then s.rest.tail else s.rest)

/-- Whether a specifier comes next.  After a specifier that names a type, a name is none. -/
def isSpecifierNext (typeSeen : Bool) (s : TokenStream) : Bool :=
  match s.next? with
  | none => false
  | some k =>
    k.isSpecifier || k.isClassKey || k == .kwEnum ||
      ((k == .identifier || k == .colonColon) && !typeSeen && !isDeclaratorNext s)

/-- A specifier, and whether it names a type. -/
def specifier (g : Grammar) : Parse (PieceTree × Bool) := do
  let first := (← get).position
  match ← peek with
  | some .kwEnum => return (← enumSpecifier g, true)
  | some k =>
    if k.isClassKey then return (← classSpecifier g, true)
    else if k.isSpecifier then
      let token ← advance
      return (← close (.simpleSpecifier token) first [], k.isTypeKeyword)
    else
      let name ← name
      return (← close .namedTypeSpecifier first [name], true)
  | none => fail .name

/-- Specifiers, as many as there are. -/
def specifiers (g : Grammar) : Parse (List PieceTree) := do
  let (found, _) ← repeatWhile (fun p s => isSpecifierNext p.2 s)
    (fun p => do
      let (t, namesType) ← specifier g
      return (t :: p.1, p.2 || namesType))
    (([] : List PieceTree), false)
  return found.reverse

/-! ### Declarators -/

/-- Whether a pointer or reference sign comes next, or a `const` after one. -/
def isPointerNext (seen : List Nat) (s : TokenStream) : Bool :=
  match s.next? with
  | some .star | some .amp | some .ampAmp => true
  | some .kwConst => !seen.isEmpty
  | _ => false

/-- The pointer and reference signs of a declarator, with the `const` after them. -/
def pointers : Parse (List Nat) := do
  let found ← repeatWhile isPointerNext (fun seen => do return (← advance) :: seen) []
  return found.reverse

/-- The name of a declarator, if one comes next. -/
def declaratorName? : Parse (Option PieceTree) := do
  let first := (← get).position
  match ← peek with
  | some .identifier | some .colonColon | some .tilde =>
    let name ← name
    return some (← close .declaratorName first [name])
  | _ => return none

/-- The bounds of arrays after a declarator.  They belong to the node, but it does not tell them
apart. -/
def arrayBounds : Parse Unit := do
  let _ ← collectWhile (·.isAt .lBracket) (do
    let _ ← advance
    skipTo .rBracket
    expect .rBracket)

/-- The equals sign and the initial value of a declarator, if there are any. -/
def initialValue? (g : Grammar) : Parse (Option (Nat × PieceTree)) := do
  match ← eat? .equal with
  | some equal => return some (equal, ← g.assignment)
  | none => return none

/-- The tree of a declarator whose parts have been read, up to the array bounds. -/
def closeDeclarator (g : Grammar) (first : Nat) (pointers : List Nat)
    (parts : List PieceTree) : Parse PieceTree := do
  arrayBounds
  match ← initialValue? g with
  | some (equal, value) => close (.declarator pointers (some equal)) first (parts ++ [value])
  | none => close (.declarator pointers none) first parts

/-- A declarator in a parameter, which may have no name. -/
def parameterDeclarator (g : Grammar) : Parse PieceTree := do
  let first := (← get).position
  let pointers ← pointers
  let core ← declaratorName?
  closeDeclarator g first pointers core.toList

/-- A parameter. -/
def parameter (g : Grammar) : Parse PieceTree := do
  let first := (← get).position
  let specifiers ← specifiers g
  if specifiers.isEmpty then fail .parameterType
  let s ← get
  if s.isAt .comma || s.isAt .rParen then close .parameter first specifiers
  else
    let declarator ← parameterDeclarator g
    close .parameter first (specifiers ++ [declarator])

/-- A parameter list, with the `const` after it. -/
def parameterList (g : Grammar) : Parse PieceTree := do
  let lparen ← advance
  let parameters ← if (← get).isAt .rParen then pure [] else commaSeparated (parameter g)
  let rparen ← expect .rParen
  let const ← eat? .kwConst
  close (.parameterList lparen rparen const) lparen parameters

/-- A declarator, and whether it has a parameter list. -/
def declarator (g : Grammar) : Parse (PieceTree × Bool) := do
  let first := (← get).position
  let pointers ← pointers
  match ← declaratorName? with
  | none => fail .declarator
  | some core =>
    if (← get).isAt .lParen then
      let parameters ← parameterList g
      return (← closeDeclarator g first pointers [core, parameters], true)
    else return (← closeDeclarator g first pointers [core], false)

/-! ### Declarations -/

/-- The rest of a declaration after its first declarators. -/
def closeDeclaration (first : Nat) (parts : List PieceTree) : Parse PieceTree := do
  let semicolon ← expect .semicolon
  close (.simpleDeclaration semicolon) first parts

/-- A declaration that is no namespace.  Outside blocks, a block may follow the first declarator
when that has a parameter list; it is then the body of a function. -/
def simpleDeclaration (g : Grammar) (place : DeclarationPlace) : Parse PieceTree := do
  let first := (← get).position
  let specifiers ← specifiers g
  if (← get).isAt .semicolon then closeDeclaration first specifiers
  else
    let (declared, isFunction) ← declarator g
    if place != .blockScope && isFunction && (← get).isAt .lBrace then
      let body ← block g
      close .functionDefinition first (specifiers ++ [declared, body])
    else
      let others ← collectWhile (·.isAt .comma) (do
        let _ ← advance
        return (← declarator g).1)
      closeDeclaration first (specifiers ++ declared :: others)

/-- A namespace. -/
def namespaceBody (g : Grammar) : Parse PieceTree := do
  let keyword ← advance
  let name ← eat? .identifier
  let lbrace ← expect .lBrace
  let declarations ← collectWhile (·.isBefore .rBrace) g.declaration
  let rbrace ← expect .rBrace
  close (.namespaceBody keyword name lbrace rbrace) keyword declarations

/-- A declaration. -/
def declaration (g : Grammar) : Parse PieceTree := do
  if (← get).isAt .kwNamespace then namespaceBody g
  else simpleDeclaration g .namespaceScope

end Parse

end Mend
