import Mend.Fix.FilePath
import Mend.Fix.Patch
import Mend.Text.LetterCase

/-!
# Fixes for announced classes

When a class is only announced in a file but another file defines it, the header of that file can
be included.  Some projects have headers for their classes that do nothing but include the real
one; those are preferred.

## Main definitions

* `Snapshot.headerFor` — the header to include for a class.
* `ParsedFile.includeOffset` — where to include it.
* `Query.includeHeader` — the fix.
-/

namespace Mend

/-! ### Choosing a header -/

/-- Whether a file does nothing but include another one. -/
def ParsedFile.onlyIncludes (f : ParsedFile) : Bool := f.tokens.isEmpty && f.includes.length == 1

/-- Whether a file stands for a header: it includes a file of that name, and has no ending or does
nothing else. -/
def ParsedFile.forwards (f : ParsedFile) (header : Text) : Bool :=
  (f.includes.any fun i => FilePath.lastPart i.path.toList == header) &&
    (!(FilePath.lastPart f.path.toList).contains '.' || f.onlyIncludes)

/-- The better of two headers for a class that is named by neither: one whose name begins with a
capital letter, or else one that lies less deep than the best one so far. -/
def betterHeader (best : Option Text) (path : Text) : Option Text :=
  if (FilePath.lastPart path).head?.any isUpper then some path
  else
    match best with
    | some current =>
      if FilePath.depth path < FilePath.depth current then some path else some current
    | none => none

/-- The header to include for a class with a name that a header defines. -/
def Snapshot.headerFor (s : Snapshot) (header : Text) (name : String) : Text :=
  let candidates :=
    (s.values.filter (·.forwards (FilePath.lastPart header))).map (·.path.toList)
  let best :=
    candidates.find? (fun path => FilePath.lastPart path == name.toList) <|>
      candidates.foldl betterHeader none
  best.getD header

/-! ### Including it -/

/-- Where to include another header in a file: after the last one above a row, counted from one, or
else before the first token. -/
def ParsedFile.includeOffset (f : ParsedFile) (row : Nat) : Nat :=
  match (f.includes.filter fun i => i.line < row).getLast? with
  | some i => Text.rowStart f.text i.line
  | none => if f.tokens.isEmpty then 0 else f.tokenStart 0

namespace Query

variable (q : Query)

/-- The last announcement among symbols, if there is no definition among them. -/
def announced? (found : List Symbol) : Option ForwardClass :=
  let isClass : Symbol → Bool
    | .classSymbol _ => true
    | _ => false
  let announcement? : Symbol → Option ForwardClass
    | .forwardClass id => q.file.symbols.forwards[id]?
    | _ => none
  if found.any isClass then none else (found.filterMap announcement?).getLast?

/-- The header to include for a name of a type, if one is lacking. -/
def lackingHeader? (name : SyntaxTree) : Option Text := do
  let words ← q.file.nameOf? name
  let scope := q.file.scopeAt (q.file.startOf name)
  let announced ← q.announced? (q.file.lookupQualified words scope)
  let (file, id) ← q.snapshot.classDefinition?
    (q.file.namesAround announced.scope ++ [announced.name])
  let c ← file.class? id
  return q.snapshot.headerFor file.path.toList c.name

/-- Includes the header of a class that is only announced.  It is found on the name of the class
where that stands for a type. -/
def includeHeader : List Proposal :=
  (q.outward.findSome? fun (t, depth) =>
    match t.label.kind, t.children with
    | .namedTypeSpecifier, [name] | .elaboratedSpecifier _, [name] =>
      if q.isOnNode name then
        match q.lackingHeader? name with
        | none => none
        | some header =>
          let o := q.file.includeOffset (Text.rowOf q.file.text q.cursor + 1)
          some (q.propose "#include Header File" depth
            [.insert o ("#include <".toList ++ FilePath.lastPart header ++ ">\n".toList)] [])
      else none
    | _, _ => none).toList

end Query

end Mend
