import Mend.Edit.ChangeSet
import Mend.StableSort

/-!
# Planning a change set

Planning resolves the changes of a set against a text into one delta.  Every change becomes one or
two exchanges of characters, which are then put in order by where they start; exchanges that start
together keep the order in which their changes were recorded.  Exchanges that do nothing are left
out.

## Main definitions

* `Exchange` — a span, the text that takes its place, and its part in a move.
* `Change.exchanges` — the exchanges a change stands for.
* `Exchange.sort` — a stable sort by start.
* `ChangeSet.plan`, `ChangeSet.applyTo` — the delta of a set, and the text it makes.
-/

namespace Mend

/-- What part an exchange has in a move. -/
inductive MovePart
  /-- It takes the moved characters away. -/
  | source
  /-- It puts the moved characters down. -/
  | target
  deriving DecidableEq, Repr

/-- The exchange of the characters of a span for a text. -/
structure Exchange where
  /-- The position of the change in its set. -/
  change : Nat
  /-- The characters that go. -/
  span : Span
  /-- The characters that come. -/
  text : Text
  /-- The part in a move, if the change is one. -/
  part : Option MovePart := none
  deriving DecidableEq, Repr

/-- The exchanges that the change at a position of its set stands for. -/
def Change.exchanges (t : Text) (i : Nat) : Change → List Exchange
  | .insert o text => [{ change := i, span := .point o, text }]
  | .remove s => [{ change := i, span := s, text := [] }]
  | .replace s text => [{ change := i, span := s, text }]
  | .move s o =>
    [{ change := i, span := s, text := [], part := some .source },
     { change := i, span := .point o, text := Text.slice t s, part := some .target }]
  | .copy s o => [{ change := i, span := .point o, text := Text.slice t s }]
  | .flip s u =>
    [{ change := i, span := s, text := Text.slice t u },
     { change := i, span := u, text := Text.slice t s }]

namespace Exchange

/-- The exchanges of changes, the first of which is at position `i` of its set. -/
def ofChanges (t : Text) (i : Nat) : List Change → List Exchange
  | [] => []
  | c :: rest => c.exchanges t i ++ ofChanges t (i + 1) rest

/-- Exchanges in ascending order of their starts; those that start together stay in order. -/
def sort : List Exchange → List Exchange := stableSort fun x y => x.span.start ≤ y.span.start

/-- An exchange of nothing for nothing. -/
def IsIdle (x : Exchange) : Prop := x.span.IsEmpty ∧ x.text = []

instance (x : Exchange) : Decidable x.IsIdle := inferInstanceAs (Decidable (_ ∧ _))

/-- The exchange as an edit of a delta. -/
def toEdit (t : Text) (x : Exchange) : DeltaEdit :=
  { start := x.span.start, deleted := Text.slice t x.span, inserted := x.text, movedTo := none }

/-- Sorting loses and adds no exchange. -/
theorem sort_perm (xs : List Exchange) : (sort xs).Perm xs := stableSort_perm _ xs

end Exchange

/-- Notes at an edit that takes moved characters away where they stand after the delta: at the
start of the span that the same change fills. -/
def DeltaEdit.linkMove (placed : List (Exchange × Span)) (x : Exchange) (e : DeltaEdit) :
    DeltaEdit :=
  if x.part = some .source then
    let target := placed.find? fun p => p.1.change == x.change && p.1.part == some .target
    { e with movedTo := target.map (·.2.start) }
  else e

/-- The delta that makes exchanges, already sorted and none of them idle. -/
def Delta.ofExchanges (t : Text) (xs : List Exchange) : Delta :=
  let edits := xs.map (Exchange.toEdit t)
  let placed := xs.zip (Delta.afterSpansFrom 0 0 edits)
  let inserted := (edits.flatMap (·.inserted)).length
  let deleted := (edits.flatMap (·.deleted)).length
  { before := t.length
    after := t.length + inserted - deleted
    edits := (xs.zip edits).map fun p => p.2.linkMove placed p.1 }

namespace ChangeSet

/-- The first place of a set that lies past the end of a text. -/
def outOfBounds? (s : ChangeSet) (t : Text) : Option ChangeError :=
  ((s.changes.flatMap Change.extents).find? fun u => t.length < u.stop).map
    (.outOfBounds · t.length)

/-- The exchanges of a set on a text, in the order in which the delta makes them. -/
def exchanges (s : ChangeSet) (t : Text) : List Exchange :=
  (Exchange.sort (Exchange.ofChanges t 0 s.changes)).filter fun x => !decide x.IsIdle

/-- Resolves a set against a text. -/
def plan (s : ChangeSet) (t : Text) : Except ChangeError Delta :=
  match s.refusal <|> s.outOfBounds? t with
  | some e => .error e
  | none => .ok (.ofExchanges t (s.exchanges t))

/-- The text that a set makes of a text. -/
def applyTo (s : ChangeSet) (t : Text) : Except ChangeError Text :=
  match s.plan t with
  | .ok d => .ok (d.applyTo t)
  | .error e => .error e

end ChangeSet

end Mend
