import Mend.Symbols.SpelledType
import Mend.Text.Span

/-!
# Symbols

What a file declares: scopes, classes, functions, variables, enumerations and classes that are
only announced.  Symbols are numbered, each kind by itself, in the order in which they are found,
and they refer to scopes, to each other and to nodes of the syntax tree by number.

## Main definitions

* `Scope` — a part of the file in which names are declared; the whole file is scope zero.
* `ClassSymbol`, `FunctionSymbol`, `VariableSymbol`, `EnumSymbol`, `ForwardClass` — the symbols.
* `SymbolTable` — all symbols of a file.
* `Symbol` — a reference to one of them.
-/

namespace Mend

/-! ### Scopes -/

/-- What a scope belongs to. -/
inductive ScopeKind
  /-- The whole file. -/
  | fileScope
  /-- A namespace, which may have no name. -/
  | namespaceScope (name : Option String)
  /-- The body of a class. -/
  | classScope (id : Nat)
  /-- The parameters and the body of a function. -/
  | functionScope (id : Nat)
  /-- A block, or a statement with a condition. -/
  | blockScope
  deriving DecidableEq, Repr

/-- A part of a file in which names are declared. -/
structure Scope where
  /-- What it belongs to. -/
  kind : ScopeKind
  /-- Where it lies. -/
  span : Span
  /-- The scope around it; the whole file has none. -/
  parent : Option Nat
  deriving DecidableEq, Repr

/-! ### Classes -/

/-- The access levels of members. -/
inductive AccessLevel
  /-- For all. -/
  | pub
  /-- For the class and those derived from it. -/
  | prot
  /-- For the class alone. -/
  | priv
  /-- For signals. -/
  | signals
  deriving DecidableEq, Repr

/-- The keyword of an access level. -/
def AccessLevel.keyword : AccessLevel → String
  | .pub => "public"
  | .prot => "protected"
  | .priv => "private"
  | .signals => "signals"

/-- The keywords that open a class. -/
inductive ClassKey
  /-- The keyword `class`. -/
  | classKey
  /-- The keyword `struct`. -/
  | structKey
  /-- The keyword `union`. -/
  | unionKey
  deriving DecidableEq, Repr

/-- The access level of the members before the first label. -/
def ClassKey.defaultAccess : ClassKey → AccessLevel
  | .classKey => .priv
  | .structKey | .unionKey => .pub

/-- A run of members under one label. -/
structure AccessSection where
  /-- The access level. -/
  level : AccessLevel
  /-- Whether the members are slots. -/
  slots : Bool
  /-- Where the label lies; the members before the first label have none. -/
  label : Option Span
  /-- Where the last member stops, or the label when there are no members. -/
  stop : Nat
  /-- The number of members. -/
  members : Nat
  deriving DecidableEq, Repr

/-- A class with its body. -/
structure ClassSymbol where
  /-- Its name; empty when it has none. -/
  name : String
  /-- The names of the namespaces and classes around it, then its own. -/
  path : List String
  /-- The keyword that opens it. -/
  key : ClassKey
  /-- The scope in which it is declared. -/
  scope : Nat
  /-- The scope of its body. -/
  bodyScope : Nat
  /-- Its node. -/
  node : Nat
  /-- Where its body starts, at the opening brace. -/
  lbrace : Nat
  /-- Where its closing brace starts. -/
  rbrace : Nat
  /-- The sections of its members, in order. -/
  sections : List AccessSection
  /-- Whether a macro among its members declares a function that localizes strings. -/
  hasMetaObject : Bool
  deriving DecidableEq, Repr

/-! ### Functions and variables -/

/-- A parameter of a function. -/
structure Parameter where
  /-- Its type. -/
  type : SpelledType
  /-- Its name, if it has one. -/
  name : Option String
  deriving DecidableEq, Repr

/-- How a parameter is written.  A name stands right behind the signs of the type. -/
def Parameter.render (p : Parameter) : String :=
  match p.name with
  | none => p.type.render
  | some name => p.type.render ++ (if p.type.signs.isEmpty then " " else "") ++ name

/-- A function, declared or defined. -/
structure FunctionSymbol where
  /-- Its name. -/
  name : String
  /-- The qualifiers before the name. -/
  qualifiers : List String
  /-- What it returns. -/
  returnType : SpelledType
  /-- Its parameters, in order. -/
  parameters : List Parameter
  /-- Whether `const` follows the parameters. -/
  isConst : Bool
  /-- The scope in which it is declared. -/
  scope : Nat
  /-- The scope of its parameters and its body, when it is a definition. -/
  bodyScope : Option Nat
  /-- Its access level, when it is declared in a class. -/
  access : Option AccessLevel
  /-- The node of the definition, or the declarator of the declaration. -/
  node : Nat
  /-- Where its name lies. -/
  nameSpan : Span
  /-- Where the whole declaration or definition lies. -/
  span : Span
  deriving DecidableEq, Repr

namespace FunctionSymbol

/-- A function with its body. -/
def isDefinition (f : FunctionSymbol) : Bool := f.bodyScope.isSome

/-- How the parameters are written. -/
def parameterText (f : FunctionSymbol) : String :=
  ", ".intercalate (f.parameters.map Parameter.render)

/-- Two functions that a call cannot tell apart: they have the same name and the same parameter
types, and `const` follows the parameters of both or of neither. -/
def SameSignature (f g : FunctionSymbol) : Prop :=
  f.name = g.name ∧ f.isConst = g.isConst ∧ f.parameters.map (·.type) = g.parameters.map (·.type)

instance (f g : FunctionSymbol) : Decidable (f.SameSignature g) :=
  inferInstanceAs (Decidable (_ ∧ _))

end FunctionSymbol

/-- A variable, a parameter or a data member. -/
structure VariableSymbol where
  /-- Its name. -/
  name : String
  /-- Its type. -/
  type : SpelledType
  /-- The scope in which it is declared. -/
  scope : Nat
  /-- Where its name starts. -/
  offset : Nat
  deriving DecidableEq, Repr

/-! ### Enumerations and announced classes -/

/-- An enumeration. -/
structure EnumSymbol where
  /-- Its name, if it has one. -/
  name : Option String
  /-- The names of the namespaces and classes around it. -/
  around : List String
  /-- The scope in which it and its enumerators are declared. -/
  scope : Nat
  /-- The names of its enumerators, in order. -/
  enumerators : List String
  /-- Its node. -/
  node : Nat
  deriving DecidableEq, Repr

/-- A name with its qualifiers. -/
def qualified (words : List String) : String := "::".intercalate words

namespace EnumSymbol

/-- The name of an enumeration, with those around it. -/
def path? (e : EnumSymbol) : Option (List String) := e.name.map fun n => e.around ++ [n]

/-- The enumeration by its full name. -/
def fullName? (e : EnumSymbol) : Option String := e.path?.map qualified

/-- The name of an enumerator, with those around it.  The name of the enumeration is not a part
of it. -/
def enumeratorPath (e : EnumSymbol) (name : String) : List String := e.around ++ [name]

/-- The enumerators by their full names. -/
def fullEnumerators (e : EnumSymbol) : List String :=
  e.enumerators.map fun n => qualified (e.enumeratorPath n)

end EnumSymbol

/-- A class that is announced without its body. -/
structure ForwardClass where
  /-- Its name. -/
  name : String
  /-- The scope in which it is announced. -/
  scope : Nat
  /-- Where the announcement lies. -/
  span : Span
  deriving DecidableEq, Repr

/-! ### All symbols -/

/-- The symbols of a file. -/
structure SymbolTable where
  /-- The scopes; the first one is the whole file. -/
  scopes : List Scope := []
  /-- The classes with their bodies. -/
  classes : List ClassSymbol := []
  /-- The functions. -/
  functions : List FunctionSymbol := []
  /-- The variables. -/
  objects : List VariableSymbol := []
  /-- The enumerations. -/
  enums : List EnumSymbol := []
  /-- The classes that are only announced. -/
  forwards : List ForwardClass := []
  deriving DecidableEq, Repr

namespace SymbolTable

/-- Opens a scope; with its number. -/
def openScope (t : SymbolTable) (s : Scope) : SymbolTable × Nat :=
  ({ t with scopes := t.scopes ++ [s] }, t.scopes.length)

/-- Adds a class. -/
def addClass (t : SymbolTable) (c : ClassSymbol) : SymbolTable :=
  { t with classes := t.classes ++ [c] }

/-- Adds a function. -/
def addFunction (t : SymbolTable) (f : FunctionSymbol) : SymbolTable :=
  { t with functions := t.functions ++ [f] }

/-- Adds a variable. -/
def addVariable (t : SymbolTable) (v : VariableSymbol) : SymbolTable :=
  { t with objects := t.objects ++ [v] }

/-- Adds an enumeration. -/
def addEnum (t : SymbolTable) (e : EnumSymbol) : SymbolTable :=
  { t with enums := t.enums ++ [e] }

/-- Adds a class that is only announced. -/
def addForward (t : SymbolTable) (f : ForwardClass) : SymbolTable :=
  { t with forwards := t.forwards ++ [f] }

/-- The functions declared in a scope. -/
def functionsIn (t : SymbolTable) (scope : Nat) : List FunctionSymbol :=
  t.functions.filter (·.scope == scope)

/-- The first function whose name lies at an offset. -/
def functionNamedAt? (t : SymbolTable) (o : Nat) : Option Nat :=
  t.functions.findIdx? fun f => decide (f.nameSpan.Touches o)

/-- The first function with a node. -/
def functionOfNode? (t : SymbolTable) (node : Nat) : Option Nat :=
  t.functions.findIdx? (·.node == node)

end SymbolTable

/-- A reference to a symbol. -/
inductive Symbol
  /-- A variable. -/
  | variableSymbol (id : Nat)
  /-- A function. -/
  | functionSymbol (id : Nat)
  /-- A class. -/
  | classSymbol (id : Nat)
  /-- An enumeration. -/
  | enumSymbol (id : Nat)
  /-- An enumerator, by its enumeration and its position there. -/
  | enumerator (enum index : Nat)
  /-- A class that is only announced. -/
  | forwardClass (id : Nat)
  deriving DecidableEq, Repr

/-- A symbol that is no function. -/
def Symbol.isObjectOrType : Symbol → Bool
  | .functionSymbol _ => false
  | _ => true

end Mend
