import Mend.Code.Error
import Mend.Code.Tree

/-!
# Reading tokens

A parser takes tokens from the front of those that are left and returns what it has read, or fails
with an error at the token where it stopped.  There is no going back: a parser looks at the tokens
ahead before it takes any.

Loops end because every round takes at least one token, so there are at most as many rounds as
tokens are left.

## Main definitions

* `Parse` — a parser.
* `peek`, `eat?`, `expect`, `fail` — looking at a token, taking one, and giving up.
* `close` — the tree of a node whose last token was just taken.
* `repeatWhile`, `collectWhile`, `commaSeparated` — loops.
-/

namespace Mend

/-- The tokens that are left. -/
structure TokenStream where
  /-- The tokens. -/
  rest : List Token
  /-- The position of the first of them among all tokens. -/
  position : Nat
  /-- The length of the text. -/
  textLength : Nat
  deriving DecidableEq, Repr

/-- A parser. -/
abbrev Parse (α : Type) := StateT TokenStream (Except SyntaxError) α

namespace TokenStream

/-- The kind of the next token. -/
def next? (s : TokenStream) : Option TokenKind := s.rest.head?.map (·.kind)

/-- Whether the next token is of a kind. -/
def isAt (k : TokenKind) (s : TokenStream) : Bool := s.next? == some k

/-- Whether there is a next token, of another kind. -/
def isBefore (k : TokenKind) (s : TokenStream) : Bool := s.next?.any (· != k)

/-- The error that something else was expected here. -/
def error (s : TokenStream) (what : Expectation) : SyntaxError :=
  match s.rest with
  | t :: _ => .expected what (some t.spelling) t.start
  | [] => .expected what none s.textLength

/-- The tokens that are left without the first one. -/
def tail (s : TokenStream) : TokenStream :=
  match s.rest with
  | _ :: rest => { s with rest, position := s.position + 1 }
  | [] => s

end TokenStream

namespace Parse

/-! ### Single tokens -/

/-- The kind of the next token. -/
def peek : Parse (Option TokenKind) := do return (← get).next?

/-- Gives up, because something else was expected here. -/
def fail {α : Type} (what : Expectation) : Parse α := do throw ((← get).error what)

/-- Takes the next token. -/
def advance : Parse Nat := do
  let s ← get
  set s.tail
  return s.position

/-- Takes the next token if it is of a kind. -/
def eat? (k : TokenKind) : Parse (Option Nat) := do
  if (← get).isAt k then return some (← advance) else return none

/-- Takes the next token, which must be of a kind. -/
def expect (k : TokenKind) : Parse Nat := do
  if (← get).isAt k then advance else fail (.token k)

/-- Takes the next token, which must be a name; otherwise something else was expected. -/
def expectName (what : Expectation) : Parse Nat := do
  if (← get).isAt .identifier then advance else fail what

/-- The tree of a node that begins with a token and ends with the token taken last.  A node that
no token was taken for is put at its first token. -/
def close (kind : NodeKind) (first : Nat) (children : List PieceTree) : Parse PieceTree := do
  return .node ⟨kind, first, max first ((← get).position - 1)⟩ children

/-! ### Loops -/

/-- At most `n` rounds of a loop. -/
def rounds {σ : Type} (more : σ → TokenStream → Bool) (step : σ → Parse σ) : Nat → σ → Parse σ
  | 0, x => pure x
  | n + 1, x => do
    if more x (← get) then rounds more step n (← step x) else return x

/-- Repeats a step as long as there is more. -/
def repeatWhile {σ : Type} (more : σ → TokenStream → Bool) (step : σ → Parse σ) (x : σ) :
    Parse σ := do
  rounds more step (← get).rest.length x

/-- At most `n` items. -/
def items {α : Type} (more : TokenStream → Bool) (item : Parse α) : Nat → Parse (List α)
  | 0 => pure []
  | n + 1 => do
    if more (← get) then
      let x ← item
      return x :: (← items more item n)
    else return []

/-- Items as long as there are more. -/
def collectWhile {α : Type} (more : TokenStream → Bool) (item : Parse α) : Parse (List α) := do
  items more item (← get).rest.length

/-- One item or several, with commas between them. -/
def commaSeparated {α : Type} (item : Parse α) : Parse (List α) := do
  let x ← item
  return x :: (← collectWhile (·.isAt .comma) (do let _ ← advance; item))

/-- Takes all tokens before one of a kind. -/
def skipTo (k : TokenKind) : Parse Unit := do
  let _ ← collectWhile (·.isBefore k) advance

end Parse

end Mend
