import Mend.Code.Arena.Expression
import Mend.Code.Parser.Declaration

/-!
# Building declarations

The parser of declarations, with a node in the arena for each part.

## Main definitions

* `Build.specifiers`, `Build.declarator` — the two halves of a declaration.
* `Build.classSpecifier`, `Build.enumSpecifier` — types that are defined on the spot.
* `Build.simpleDeclaration`, `Build.declaration` — declarations.
-/

namespace Mend

namespace Build

open Parse (advance eat? expect expectName peek skipTo arrayBounds)

/-- A block of statements. -/
def block (g : BuildGrammar) : Build NodeId := do
  let first := (← look).position
  let lbrace ← expect .lBrace
  let statements ← collectWhile (·.isBefore .rBrace) g.statement
  let rbrace ← expect .rBrace
  add (.block lbrace statements rbrace) first

/-! ### Types -/

/-- An enumerator. -/
def enumerator (g : BuildGrammar) : Build NodeId := do
  let first := (← look).position
  let name ← expectName .enumerator
  match ← eat? .equal with
  | some equal =>
    let value ← conditional g
    add (.enumerator name (some equal) (some value)) first
  | none => add (.enumerator name none none) first

/-- Enumerators up to the closing brace, in at most `n` rounds.  A comma may stand after the last
one. -/
def enumerators (g : BuildGrammar) : Nat → Build (List NodeId)
  | 0 => Parse.fail .enumerator
  | n + 1 => do
    if (← look).isAt .rBrace then return []
    let e ← enumerator g
    if (← eat? .comma).isSome then return e :: (← enumerators g n) else return [e]

/-- The name of a type that is defined or named with its keyword, if there is one. -/
def typeName? : Build (Option NodeId) := do
  if (← look).isAt .identifier then return some (← name) else return none

/-- An enumeration with its body, or the name of one with its keyword. -/
def enumSpecifier (g : BuildGrammar) : Build NodeId := do
  let keyword ← advance
  let name ← typeName?
  match ← eat? .lBrace, name with
  | some lbrace, _ =>
    let values ← enumerators g ((← look).rest.length + 1)
    let rbrace ← expect .rBrace
    add (.enumSpecifier keyword name lbrace values rbrace) keyword
  | none, some name => add (.elaboratedSpecifier keyword name) keyword
  | none, none => Parse.fail .enumName

/-- A label that sets the access level. -/
def accessLabel : Build NodeId := do
  let access ← advance
  let slots ← eat? .kwSlots
  let colon ← expect .colon
  add (.accessLabel access slots colon) access

/-- A macro among the members, with the semicolon after it if there is one. -/
def macroMember : Build NodeId := do
  let token ← advance
  let _ ← eat? .semicolon
  add (.macroMember token) token

/-- A member of a class. -/
def member (g : BuildGrammar) : Build NodeId := do
  match ← peek with
  | some .kwPublic | some .kwProtected | some .kwPrivate | some .kwSignals => accessLabel
  | some .identifier =>
    if Parse.isSpelled "Q_OBJECT" (← look) then macroMember else g.simpleDeclaration .classScope
  | _ => g.simpleDeclaration .classScope

/-- A class with its body, or the name of one with its keyword.  The base classes belong to the
node, but it does not tell them apart. -/
def classSpecifier (g : BuildGrammar) : Build NodeId := do
  let key ← advance
  let name ← typeName?
  let s ← look
  if s.isAt .lBrace || s.isAt .colon then
    if (← eat? .colon).isSome then skipTo .lBrace
    let lbrace ← expect .lBrace
    let members ← collectWhile (·.isBefore .rBrace) (member g)
    let rbrace ← expect .rBrace
    add (.classSpecifier key name lbrace members rbrace) key
  else
    match name with
    | some name => add (.elaboratedSpecifier key name) key
    | none => Parse.fail .className

/-! ### Specifiers -/

/-- A specifier, and whether it names a type. -/
def specifier (g : BuildGrammar) : Build (NodeId × Bool) := do
  let first := (← look).position
  match ← peek with
  | some .kwEnum => return (← enumSpecifier g, true)
  | some k =>
    if k.isClassKey then return (← classSpecifier g, true)
    else if k.isSpecifier then
      let token ← advance
      return (← add (.simpleSpecifier token) first, k.isTypeKeyword)
    else
      let name ← name
      return (← add (.namedTypeSpecifier name) first, true)
  | none => Parse.fail .name

/-- Specifiers, as many as there are. -/
def specifiers (g : BuildGrammar) : Build (List NodeId) := do
  let (found, _) ← repeatWhile (fun p s => Parse.isSpecifierNext p.2 s)
    (fun p => do
      let (id, namesType) ← specifier g
      return (id :: p.1, p.2 || namesType))
    (([] : List NodeId), false)
  return found.reverse

/-! ### Declarators -/

/-- The name of a declarator, if one comes next. -/
def declaratorName? : Build (Option NodeId) := do
  let first := (← look).position
  match ← peek with
  | some .identifier | some .colonColon | some .tilde =>
    let name ← name
    return some (← add (.declaratorName name) first)
  | _ => return none

/-- The equals sign and the initial value of a declarator, if there are any. -/
def initialValue? (g : BuildGrammar) : Build (Option (Nat × NodeId)) := do
  match ← eat? .equal with
  | some equal => return some (equal, ← g.assignment)
  | none => return none

/-- A declarator whose parts have been read, up to the array bounds. -/
def closeDeclarator (g : BuildGrammar) (first : Nat) (pointers : List Nat)
    (core function : Option NodeId) : Build NodeId := do
  arrayBounds
  match ← initialValue? g with
  | some (equal, value) => add (.declarator pointers core function (some equal) (some value)) first
  | none => add (.declarator pointers core function none none) first

/-- A declarator in a parameter, which may have no name. -/
def parameterDeclarator (g : BuildGrammar) : Build NodeId := do
  let first := (← look).position
  let pointers ← Parse.pointers
  let core ← declaratorName?
  closeDeclarator g first pointers core none

/-- A parameter. -/
def parameter (g : BuildGrammar) : Build NodeId := do
  let first := (← look).position
  let specifiers ← specifiers g
  if specifiers.isEmpty then Parse.fail .parameterType
  let s ← look
  if s.isAt .comma || s.isAt .rParen then add (.parameter specifiers none) first
  else
    let declarator ← parameterDeclarator g
    add (.parameter specifiers (some declarator)) first

/-- A parameter list, with the `const` after it. -/
def parameterList (g : BuildGrammar) : Build NodeId := do
  let lparen ← advance
  let parameters ← if (← look).isAt .rParen then pure [] else commaSeparated (parameter g)
  let rparen ← expect .rParen
  let const ← eat? .kwConst
  add (.parameterList lparen parameters rparen const) lparen

/-- A declarator. -/
def declarator (g : BuildGrammar) : Build NodeId := do
  let first := (← look).position
  let pointers ← Parse.pointers
  match ← declaratorName? with
  | none => Parse.fail .declarator
  | some core =>
    if (← look).isAt .lParen then
      let parameters ← parameterList g
      closeDeclarator g first pointers (some core) (some parameters)
    else closeDeclarator g first pointers (some core) none

/-! ### Declarations -/

/-- The rest of a declaration after its first declarators. -/
def closeDeclaration (first : Nat) (specifiers declarators : List NodeId) : Build NodeId := do
  let semicolon ← expect .semicolon
  add (.simpleDeclaration specifiers declarators semicolon) first

/-- A declaration that is no namespace.  Outside blocks, a block may follow the first declarator
when that has a parameter list; it is then the body of a function. -/
def simpleDeclaration (g : BuildGrammar) (place : DeclarationPlace) : Build NodeId := do
  let first := (← look).position
  let specifiers ← specifiers g
  if (← look).isAt .semicolon then closeDeclaration first specifiers []
  else
    let declared ← declarator g
    let function ← functionOf? declared
    if place != .blockScope && function.isSome && (← look).isAt .lBrace then
      let body ← block g
      add (.functionDefinition specifiers declared body) first
    else
      let others ← collectWhile (·.isAt .comma) (do
        let _ ← advance
        declarator g)
      closeDeclaration first specifiers (declared :: others)

/-- A namespace. -/
def namespaceBody (g : BuildGrammar) : Build NodeId := do
  let keyword ← advance
  let name ← eat? .identifier
  let lbrace ← expect .lBrace
  let declarations ← collectWhile (·.isBefore .rBrace) g.declaration
  let rbrace ← expect .rBrace
  add (.namespaceBody keyword name lbrace declarations rbrace) keyword

/-- A declaration. -/
def declaration (g : BuildGrammar) : Build NodeId := do
  if (← look).isAt .kwNamespace then namespaceBody g
  else simpleDeclaration g .namespaceScope

end Build

end Mend
