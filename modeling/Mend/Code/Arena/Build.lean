import Mend.Code.Arena.Basic
import Mend.Code.Parser.Basic

/-!
# Building an arena

A parser that builds adds a node to an arena as soon as it has read all tokens of the node, and
answers with the place of the node.  Its loops are those of a parser that only reads.

## Main definitions

* `Build` — a parser that adds nodes.
* `Build.add` — the node whose last token was just taken.
* `Build.firstOf`, `Build.functionOf?` — looking at a node that is there already.
* `repeatWhile`, `collectWhile`, `commaSeparated` — loops.
-/

namespace Mend

/-- A parser that adds nodes to an arena. -/
abbrev Build (α : Type) := StateT Ast Parse α

namespace Build

/-- The tokens that are left. -/
def look : Build TokenStream := liftM (get : Parse TokenStream)

/-! ### Nodes -/

/-- Adds a node that begins with a token and ends with the token taken last. -/
def add (form : NodeForm) (first : Nat) : Build NodeId := do
  let last := (← look).position - 1
  modifyGet fun a => a.add form first last

/-- The first token of a node. -/
def firstOf (id : NodeId) : Build Nat := do return (← get).firstOf id

/-- The parameter list of a declarator, if it has one. -/
def functionOf? (id : NodeId) : Build (Option NodeId) := do return (← get).functionOf? id

/-! ### Loops -/

/-- At most `n` rounds of a loop. -/
def rounds {σ : Type} (more : σ → TokenStream → Bool) (step : σ → Build σ) : Nat → σ → Build σ
  | 0, x => pure x
  | n + 1, x => do
    if more x (← look) then rounds more step n (← step x) else return x

/-- Repeats a step as long as there is more. -/
def repeatWhile {σ : Type} (more : σ → TokenStream → Bool) (step : σ → Build σ) (x : σ) :
    Build σ := do
  rounds more step (← look).rest.length x

/-- At most `n` items. -/
def items (more : TokenStream → Bool) (item : Build NodeId) : Nat → Build (List NodeId)
  | 0 => pure []
  | n + 1 => do
    if more (← look) then
      let x ← item
      return x :: (← items more item n)
    else return []

/-- Items as long as there are more. -/
def collectWhile (more : TokenStream → Bool) (item : Build NodeId) : Build (List NodeId) := do
  items more item (← look).rest.length

/-- One item or several, with commas between them. -/
def commaSeparated (item : Build NodeId) : Build (List NodeId) := do
  let x ← item
  return x :: (← collectWhile (·.isAt .comma) (do let _ ← Parse.advance; item))

end Build

end Mend
