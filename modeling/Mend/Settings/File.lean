import Mend.Json.Reader
import Mend.Settings.Basic

/-!
# Settings files

Settings are kept as a JSON object with a member for each choice.  A member that is missing takes
its default and a member with another name is passed over, but a member that is given twice, or
whose value is of the wrong kind, makes the file malformed.  In place of an object with members
there may be an array with the values in order, which may end early.

## Main definitions

* `Settings.toJson`, `Settings.write` — settings as a value, and as the text of a file.
* `Settings.ofJson?`, `Settings.load` — settings from a value, and from the text of a file.
-/

namespace Mend

/-! ### Writing -/

/-- An object with named members. -/
def Json.record (members : List (String × Json)) : Json :=
  .object (members.map fun p => (some p.1, p.2))

/-- The names of a set as an array. -/
def NameSet.toJson (s : NameSet) : Json := .array (s.toList.map fun k => .string (some k))

/-- An indentation style as a value. -/
def IndentStyle.toJson (s : IndentStyle) : Json :=
  .record
    [("width", .count s.width),
     ("use_tabs", .bool s.useTabs),
     ("tab_width", .count s.tabWidth),
     ("indent_case_labels", .bool s.indentCaseLabels),
     ("indent_access_specifiers", .bool s.indentAccessLabels)]

/-- The names for string literals as a value. -/
def QtNames.toJson (q : QtNames) : Json :=
  .record
    [("latin1_string", .string (some q.latin1String)),
     ("latin1_char", .string (some q.latin1Char)),
     ("translate", .string (some q.translate)),
     ("translate_with_context", .string (some q.translateWithContext)),
     ("translate_noop", .string (some q.translateNoop)),
     ("global_context", .string (some q.globalContext)),
     ("wrapped_calls", q.wrappedCalls.toJson)]

/-- Settings as a value. -/
def Settings.toJson (s : Settings) : Json :=
  .record
    [("indent", s.indent.toJson),
     ("qt", s.qt.toJson),
     ("disabled_fixes", s.disabledFixes.toJson),
     ("reindent", .bool s.reindent)]

/-- Settings as the text of a file. -/
def Settings.write (s : Settings) : Text := s.toJson.pretty

/-! ### Reading -/

namespace Json

/-- The value of a member, if it is given at most once. -/
def memberValue? (members : List (Option String × Json)) (name : String) :
    Option (Option Json) :=
  match members.filter fun p => p.1 == some name with
  | [] => some none
  | [(_, v)] => some (some v)
  | _ => none

/-- The values of named fields: the members of an object whose names are all texts, or the items
of an array.  A field that is missing has no value. -/
def fields? (names : List String) : Json → Option (List (Option Json))
  | .object members =>
    if members.all fun p => p.1.isSome then names.mapM (memberValue? members) else none
  | .array items =>
    if items.length ≤ names.length then
      some (items.map some ++ List.replicate (names.length - items.length) none)
    else none
  | _ => none

/-- A field that takes its default when it is missing. -/
def field? {α : Type} (decode : Json → Option α) (default : α) : Option Json → Option α
  | none => some default
  | some v => decode v

/-- A number that fits 64 bits. -/
def toCount? : Json → Option Nat
  | .count n => if n ≤ 0xFFFFFFFFFFFFFFFF then some n else none
  | _ => none

/-- A truth value. -/
def toBool? : Json → Option Bool
  | .bool b => some b
  | _ => none

/-- A text. -/
def toString? : Json → Option String
  | .string s => s
  | _ => none

end Json

/-- A set of names from an array of texts. -/
def NameSet.ofJson? : Json → Option NameSet
  | .array items => (items.mapM Json.toString?).map NameSet.ofList
  | _ => none

/-- An indentation style from a value. -/
def IndentStyle.ofJson? (v : Json) : Option IndentStyle :=
  match v.fields?
      ["width", "use_tabs", "tab_width", "indent_case_labels", "indent_access_specifiers"] with
  | some [width, useTabs, tabWidth, caseLabels, accessLabels] => do
    let style : IndentStyle := {}
    return {
      width := ← Json.field? Json.toCount? style.width width
      useTabs := ← Json.field? Json.toBool? style.useTabs useTabs
      tabWidth := ← Json.field? Json.toCount? style.tabWidth tabWidth
      indentCaseLabels := ← Json.field? Json.toBool? style.indentCaseLabels caseLabels
      indentAccessLabels := ← Json.field? Json.toBool? style.indentAccessLabels accessLabels }
  | _ => none

/-- The names for string literals from a value. -/
def QtNames.ofJson? (v : Json) : Option QtNames :=
  match v.fields?
      ["latin1_string", "latin1_char", "translate", "translate_with_context", "translate_noop",
        "global_context", "wrapped_calls"] with
  | some [string, char, translate, withContext, noop, context, calls] => do
    let names : QtNames := {}
    return {
      latin1String := ← Json.field? Json.toString? names.latin1String string
      latin1Char := ← Json.field? Json.toString? names.latin1Char char
      translate := ← Json.field? Json.toString? names.translate translate
      translateWithContext := ← Json.field? Json.toString? names.translateWithContext withContext
      translateNoop := ← Json.field? Json.toString? names.translateNoop noop
      globalContext := ← Json.field? Json.toString? names.globalContext context
      wrappedCalls := ← Json.field? NameSet.ofJson? names.wrappedCalls calls }
  | _ => none

namespace Settings

/-- Settings from a value, whether or not they make sense. -/
def ofJson? (v : Json) : Option Settings :=
  match v.fields? ["indent", "qt", "disabled_fixes", "reindent"] with
  | some [indent, qt, disabled, reindent] => do
    return {
      indent := ← Json.field? IndentStyle.ofJson? {} indent
      qt := ← Json.field? QtNames.ofJson? {} qt
      disabledFixes := ← Json.field? NameSet.ofJson? .empty disabled
      reindent := ← Json.field? Json.toBool? true reindent }
  | _ => none

/-- Settings from a value; those that make no sense are refused. -/
def ofJson (v : Json) : Except SettingsError Settings :=
  match ofJson? v with
  | none => .error .malformed
  | some s =>
    match s.validate with
    | .ok () => .ok s
    | .error e => .error e

/-- Settings from the text of a file. -/
def load (t : Text) : Except SettingsError Settings :=
  match Json.read? t with
  | none => .error .malformed
  | some v => ofJson v

end Settings

end Mend
