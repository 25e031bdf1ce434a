import Mend.Fix.Insertion
import Mend.Fix.Patch

/-!
# Fixes for members

A function that is defined outside of its class can be declared in it, and a function that a class
declares can be defined.  Both are found on the name of the function.

## Main definitions

* `FunctionSymbol.signature` — how a function is declared.
* `Query.declareMember` — declarations, one for each kind of section.
* `Query.defineMember` — a definition.
-/

namespace Mend

/-- How a type is written before the name of a function.  A space goes between them unless a sign
stands there or there is no type. -/
def SpelledType.beforeFunction (t : SpelledType) : String :=
  match t.render.toList.getLast? with
  | none | some '*' | some '&' => t.render
  | some _ => t.render ++ " "

/-- How a function is declared under a name. -/
def FunctionSymbol.signature (f : FunctionSymbol) (name : String) : String :=
  f.returnType.beforeFunction ++ name ++ "(" ++ f.parameterText ++ ")" ++
    (if f.isConst then " const" else "")

namespace Query

variable (q : Query)

/-- The patch that writes generated code at a point. -/
def insertAt (p : InsertionPoint) (code : String) : Except FixError Patch :=
  match q.snapshot.find? p.file with
  | none => .error (.notOpen p.file)
  | some f =>
    let o := p.offsetIn f.text
    Patch.ofChanges p.file [.insert o (p.wrap code).toList] [.point o]

/-- The function whose name the query is about, with its number. -/
def functionHere? : Option (Nat × FunctionSymbol) := do
  let id ← q.file.symbols.functionNamedAt? q.focus
  return (id, ← q.file.function? id)

/-- The class that a function which is defined outside of it belongs to, when the class does not
declare it. -/
def undeclaredIn? (f : FunctionSymbol) : Option (ParsedFile × Nat) := do
  if !f.isDefinition || f.qualifiers.isEmpty then none
  let (file, id) ← q.snapshot.classDefinition? f.qualifiers
  let c ← file.class? id
  if (file.symbols.functionsIn c.bodyScope).any fun g => decide (g.SameSignature f) then none
  return (file, id)

/-- The kinds of sections in which a declaration is offered. -/
def sectionsOffered : List AccessSpec := [.pub, .pubSlots, .prot, .protSlots, .priv, .privSlots]

/-- Declares a function in its class. -/
def declareMember : List Proposal :=
  match q.functionHere? with
  | none => []
  | some (_, f) =>
    match q.undeclaredIn? f with
    | none => []
    | some (file, id) =>
      let code := f.signature f.name ++ ";"
      sectionsOffered.map fun spec =>
        let patch :=
          match q.snapshot.memberPoint? file.path id spec with
          | some p => q.insertAt p code
          | none => .error (.noInsertionPoint file.path)
        .atDepth ("Add " ++ spec.words ++ " Declaration") q.depth patch

/-- The class that declares a function which is defined nowhere. -/
def undefinedOf? (id : Nat) (f : FunctionSymbol) : Option ClassSymbol := do
  if f.isDefinition || !f.qualifiers.isEmpty then none
  let c ← (q.file.ownerClass? id).bind q.file.class?
  if (q.snapshot.memberDefinitions c.path f).isEmpty then return c else none

/-- Defines a function that a class declares. -/
def defineMember : List Proposal :=
  match q.functionHere? with
  | none => []
  | some (id, f) =>
    match q.undefinedOf? id f, (q.snapshot.definitionPoints q.file.path id).head? with
    | some c, some p =>
      let name := qualified c.path ++ "::" ++ f.name
      let file := String.ofList (FilePath.lastPart p.file.toList)
      [.atDepth ("Add Definition in " ++ file) q.depth
        (q.insertAt p (f.signature name ++ "\n\x7b\n\x7d"))]
    | _, _ => []

end Query

end Mend
