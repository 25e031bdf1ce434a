import Mend.Fix.IntegerLiteral
import Mend.Fix.Patch

/-!
# Fixes for literals

A string can be wrapped, marked for localization or given the sign of Objective-C, a character can
be wrapped, and an integer can be written in another base.

## Main definitions

* `Query.wrapLiteral`, `Query.translateString`, `Query.signString` — the fixes for strings.
* `Query.convertInteger` — the fixes for integers.
-/

namespace Mend

namespace Query

variable (q : Query)

/-! ### Strings -/

/-- The sign of a string, if the node is a string at all. -/
def stringSign? (t : SyntaxTree) : Option (Option Nat) :=
  match t.label.kind with
  | .stringLiteral sign _ => some sign
  | _ => none

/-- Whether the node is a character. -/
def isCharacter (t : SyntaxTree) : Bool :=
  match t.label.kind with
  | .numericLiteral i => q.file.isKind i .charLiteral
  | _ => false

/-- Whether the innermost node is a direct part of a call that wraps or marks literals. -/
def isWrapped : Bool := q.enclosingCall?.any fun call => q.settings.qt.isWrappedCall call.2

/-- What a literal is to be wrapped in, with the sign that goes; nothing when the node is no literal
that can be wrapped. -/
def wrapper? (t : SyntaxTree) : Option (String × Option Nat) :=
  match stringSign? t with
  | some sign => some (q.settings.qt.latin1String, sign)
  | none => if q.isCharacter t then some (q.settings.qt.latin1Char, none) else none

/-- Wraps a string or a character. -/
def wrapLiteral : List Proposal :=
  match q.innermost? with
  | none => []
  | some t =>
    match q.wrapper? t with
    | none => []
    | some (name, sign) =>
      if q.isWrapped then []
      else
        let opening := (name ++ "(").toList
        let first : Change :=
          match sign with
          | some i => .replace (q.file.tokenSpan i) opening
          | none => .insert (q.file.startOf t) opening
        [q.propose ("Enclose in " ++ name ++ "(...)") q.depth
          [first, .insert (q.file.stopOf t) ")".toList] []]

/-- Whether the class of a function declares the function that localizes strings.  The names around
the function tell the class when the file of the query does not. -/
def isLocalized (function : Nat) (around : List String) : Bool :=
  let name := q.settings.qt.translate
  (q.file.ownerClass? function).any (q.file.declaresFunction · name) ||
    (q.snapshot.classDefinition? around).any fun c => c.1.declaresFunction c.2 name

/-- What goes before a string that is marked for localization. -/
def localizedOpening (t : SyntaxTree) : String :=
  let qt := q.settings.qt
  let withContext (call context : String) : String := call ++ "(\"" ++ context ++ "\", "
  match q.file.enclosingFunction? (q.file.scopeAt (q.file.startOf t)) with
  | none => withContext qt.translateNoop qt.globalContext
  | some id =>
    match q.file.function? id with
    | none => withContext qt.translateNoop qt.globalContext
    | some f =>
      let around := q.file.namesAround f.scope ++ f.qualifiers
      if q.isLocalized id around then qt.translate ++ "("
      else
        withContext qt.translateWithContext
          (if around.isEmpty then qt.globalContext else qualified around)

/-- Marks a string for localization. -/
def translateString : List Proposal :=
  match q.innermost? with
  | none => []
  | some t =>
    if (stringSign? t).isNone || q.isWrapped then []
    else
      [q.propose "Mark as Translatable" q.depth
        [.insert (q.file.startOf t) (q.localizedOpening t).toList,
          .insert (q.file.stopOf t) ")".toList] []]

/-- A call that wraps a string as plain characters. -/
def isPlainWrapper (name : String) : Bool :=
  name == q.settings.qt.latin1String || name == "QLatin1Literal"

/-- Gives a string the sign of Objective-C, in place of the call that wraps it. -/
def signString : List Proposal :=
  match q.innermost? with
  | none => []
  | some t =>
    if q.file.language = .objectiveCpp ∧ stringSign? t = some none then
      let changes : List Change :=
        match q.enclosingCall?.filter fun call => q.isPlainWrapper call.2 with
        | some (call, _) =>
          [.replace ⟨q.file.startOf call, q.file.startOf t⟩ "@".toList,
            .remove ⟨q.file.stopOf t, q.file.stopOf call⟩]
        | none => [.insert (q.file.startOf t) "@".toList]
      [q.propose "Convert to Objective-C String Literal" q.depth changes []]
    else []

/-! ### Integers -/

/-- What a conversion to a base is called. -/
def conversionName : Radix → String
  | .hexadecimal => "Convert to Hexadecimal"
  | .octal => "Convert to Octal"
  | .decimal => "Convert to Decimal"

/-- Writes an integer in another base.  The letters that tell its type stay. -/
def convertInteger : List Proposal :=
  match q.innermost? with
  | none => []
  | some t =>
    match t.label.kind with
    | .numericLiteral i =>
      if q.file.isKind i .numericLiteral then
        match IntegerLiteral.read? (q.file.spelling i).toList with
        | none => []
        | some l =>
          let start := q.file.tokenStart i
          l.conversions.map fun (radix, text) =>
            q.propose (conversionName radix) q.depth
              [.replace ⟨start, start + l.digits.length⟩ text] []
      else []
    | _ => []

end Query

end Mend
