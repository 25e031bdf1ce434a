import Mend.Text.Slice

/-!
# Deltas

A *delta* is the resolved form of a group of edits: at each place, the characters that go and the
characters that come.  All places are offsets into the text before the delta, and the edits of a
delta stand in ascending order.  Several edits may share a place; their new texts then follow each
other in the order of the edits.

An offset is a 64-bit count, so the two sums that a hand-written delta may carry past the largest
one stop there.

## Main definitions

* `DeltaEdit`, `Delta` — one exchange of characters, and a group of them.
* `Delta.applyTo` — the text after a delta.
* `Delta.afterSpans` — where the new characters of each edit lie in the text after the delta.
* `Delta.mapOffset`, `Delta.mapSpan` — where a place before the delta lies after it.
-/

namespace Mend

/-- An offset moved by a signed distance, kept between zero and the largest offset. -/
def shiftOffset (o : Nat) (distance : Int) : Nat := min (o + distance).toNat lastOffset

/-! ### Edits and deltas -/

/-- One exchange of characters, in offsets of the text before the delta. -/
structure DeltaEdit where
  /-- Where the exchange starts. -/
  start : Nat
  /-- The characters that go. -/
  deleted : Text
  /-- The characters that come. -/
  inserted : Text
  /-- Where, in the text after the delta, the characters that go stand again, when they were moved
  and not dropped. -/
  movedTo : Option Nat
  deriving DecidableEq, Repr

/-- The offset after the last character that goes, be it past the largest offset or not.  No edit
starts past the largest one, so what is copied around an edit does not depend on it. -/
def DeltaEdit.reach (e : DeltaEdit) : Nat := e.start + e.deleted.length

/-- The offset after the last character that goes, or the largest one if there is none. -/
def DeltaEdit.stop (e : DeltaEdit) : Nat := min e.reach lastOffset

/-- The span of the characters that go. -/
def DeltaEdit.span (e : DeltaEdit) : Span := ⟨e.start, e.stop⟩

/-- What an edit adds to the length of the text. -/
def DeltaEdit.growth (e : DeltaEdit) : Int := (e.inserted.length : Int) - e.deleted.length

/-- A group of edits that are made together. -/
structure Delta where
  /-- The length of the text before. -/
  before : Nat
  /-- The length of the text after. -/
  after : Nat
  /-- The edits, in ascending order of their starts. -/
  edits : List DeltaEdit
  /-- The undo group the delta was recorded under, once it has been. -/
  group : Option Nat := none
  deriving DecidableEq, Repr

namespace Delta

/-! ### The text after a delta -/

/-- The text after some edits, from the offset `done` on: up to `done` the text before has been
copied or dropped already. -/
def applyFrom (t : Text) (done : Nat) : List DeltaEdit → Text
  | [] => t.drop done
  | e :: rest =>
    Text.slice t ⟨done, e.start⟩ ++ (e.inserted ++ applyFrom t (max done e.reach) rest)

/-- The text after a delta. -/
def applyTo (d : Delta) (t : Text) : Text := applyFrom t 0 d.edits

/-- Where the new characters of each edit lie after the delta, when `done` characters of the text
before are accounted for and `written` characters of the text after are there. -/
def afterSpansFrom (done written : Nat) : List DeltaEdit → List Span
  | [] => []
  | e :: rest =>
    let start := written + (e.start - done)
    let stop := start + e.inserted.length
    ⟨start, stop⟩ :: afterSpansFrom (max done e.reach) stop rest

/-- Where the new characters of each edit lie in the text after the delta. -/
def afterSpans (d : Delta) : List Span := afterSpansFrom 0 0 d.edits

/-! ### Places through a delta -/

/-- Where an offset comes to lie, when the edits before those given have added `growth`
characters.  An offset among characters that go follows them if they were moved, and otherwise
comes to lie where their replacement starts. -/
def mapFrom (o : Nat) (growth : Int) : List DeltaEdit → Nat
  | [] => shiftOffset o growth
  | e :: rest =>
    if o < e.start then shiftOffset o growth
    else if o < e.stop then e.movedTo.getD (shiftOffset e.start growth)
    else mapFrom o (growth + e.growth) rest

/-- Where an offset comes to lie. -/
def mapOffset (d : Delta) (o : Nat) : Nat := mapFrom o 0 d.edits

/-- Where a span comes to lie; it does not turn inside out when only its start was moved. -/
def mapSpan (d : Delta) (s : Span) : Span :=
  ⟨d.mapOffset s.start, max (d.mapOffset s.stop) (d.mapOffset s.start)⟩

@[simp] theorem applyFrom_nil (t : Text) (done : Nat) : applyFrom t done [] = t.drop done := rfl

@[simp] theorem mapFrom_nil (o : Nat) (growth : Int) :
    mapFrom o growth [] = shiftOffset o growth := rfl

/-- There is one span for each edit. -/
@[simp] theorem length_afterSpansFrom (done written : Nat) (es : List DeltaEdit) :
    (afterSpansFrom done written es).length = es.length := by
  induction es generalizing done written with
  | nil => rfl
  | cons e es ih => simp [afterSpansFrom, ih]

end Delta

end Mend
