import Mend.Indent.Style
import Mend.NameMap

/-!
# Settings

What a user can choose: the indentation style, the names of the Qt functions that the fixes for
string literals write, and which fixes are offered.

## Main definitions

* `QtNames`, `Settings` — the choices.
* `Settings.validate` — the choices that make no sense.
* `Settings.isEnabled`, `Settings.disable` — turning fixes off.
-/

namespace Mend

/-- The names of the Qt functions and macros for string literals. -/
structure QtNames where
  /-- Wraps a string literal. -/
  latin1String : String := "QLatin1String"
  /-- Wraps a character literal. -/
  latin1Char : String := "QLatin1Char"
  /-- Translates a literal inside a member function. -/
  translate : String := "tr"
  /-- Translates a literal in a given context. -/
  translateWithContext : String := "QCoreApplication::translate"
  /-- Marks a literal outside all functions. -/
  translateNoop : String := "QT_TRANSLATE_NOOP"
  /-- The context of a literal that stands in no function with a name. -/
  globalContext : String := "GLOBAL"
  /-- The calls whose arguments are wrapped or marked already. -/
  wrappedCalls : NameSet := .ofList
    ["QT_TRANSLATE_NOOP", "tr", "trUtf8", "translate", "QLatin1String", "QLatin1Literal",
      "QLatin1Char"]
  deriving DecidableEq

/-- A call whose argument is wrapped or marked already. -/
def QtNames.isWrappedCall (q : QtNames) (name : String) : Bool := q.wrappedCalls.contains name

/-- All choices of a user. -/
structure Settings where
  /-- The indentation style. -/
  indent : IndentStyle := {}
  /-- The names for string literals. -/
  qt : QtNames := {}
  /-- The fixes that are never offered. -/
  disabledFixes : NameSet := .empty
  /-- Whether fixes that ask for new indentation get it. -/
  reindent : Bool := true
  deriving DecidableEq

/-- Why settings are refused. -/
inductive SettingsError
  /-- They are not written as settings are. -/
  | malformed
  /-- A value makes no sense. -/
  | invalidValue (field reason : String)
  deriving DecidableEq, Repr

namespace Settings

instance : Inhabited Settings := ⟨{}⟩

/-- Refuses values that make no sense. -/
def validate (s : Settings) : Except SettingsError Unit :=
  if s.indent.width = 0 then .error (.invalidValue "indent.width" "must be at least 1")
  else if s.indent.useTabs ∧ s.indent.tabWidth = 0 then
    .error (.invalidValue "indent.tab_width" "must be at least 1 when use_tabs is set")
  else .ok ()

/-- A fix that may be offered. -/
def isEnabled (s : Settings) (fix : String) : Bool := !s.disabledFixes.contains fix

/-- Turns a fix off. -/
def disable (s : Settings) (fix : String) : Settings :=
  { s with disabledFixes := s.disabledFixes.add fix }

end Settings

/-- The error as told to the user.  Of settings that are not written as such, only that is told. -/
def SettingsError.message : SettingsError → String
  | .malformed => "invalid settings"
  | .invalidValue field reason => "invalid value for `" ++ field ++ "`: " ++ reason

end Mend
