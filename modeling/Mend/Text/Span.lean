/-!
# Offsets and spans

An *offset* counts the characters before a place.  It is a 64-bit count: a sum that is not kept in
bounds starts again from zero when it passes the largest offset.  (A build that checks its sums
stops there instead.)

A *span* is a half-open range of character offsets into a text: it holds the offsets `o` with
`start ≤ o < stop`.  A span whose `stop` is not after its `start` is empty; an empty span still
marks a place, namely its `start`.

## Main definitions

* `lastOffset` and `wrapOffset` — the largest offset, and a sum that starts again behind it.
* `Span` and `Span.point` — a range, and the empty range at an offset.
* `Span.Overlaps` — two spans share an offset.
* `Span.StrictlyHolds` — an offset lies inside a span, off both of its ends.
-/

namespace Mend

/-! ### Offsets -/

/-- The largest offset. -/
def lastOffset : Nat := 0xFFFFFFFFFFFFFFFF

/-- A sum as an offset: behind the largest one it starts again from zero. -/
def wrapOffset (n : Nat) : Nat := n % (lastOffset + 1)

theorem wrapOffset_le (n : Nat) : wrapOffset n ≤ lastOffset :=
  Nat.le_of_lt_succ (Nat.mod_lt n (Nat.succ_pos lastOffset))

theorem wrapOffset_of_le {n : Nat} (h : n ≤ lastOffset) : wrapOffset n = n :=
  Nat.mod_eq_of_lt (Nat.lt_succ_of_le h)

/-- The offset before one that is not zero. -/
theorem wrapOffset_pred {n : Nat} (h : 0 < n) :
    wrapOffset (n + lastOffset) = wrapOffset (n - 1) := by
  have hsum : n + lastOffset = n - 1 + (lastOffset + 1) := by omega
  rw [wrapOffset, hsum, Nat.add_mod_right]
  rfl

/-- A sum of two offsets that passes the largest one falls below both of them. -/
theorem wrapOffset_add_lt {a b : Nat} (ha : a ≤ lastOffset) (hb : b ≤ lastOffset)
    (h : lastOffset < a + b) : wrapOffset (a + b) < a := by
  have hwrap : wrapOffset (a + b) = a + b - (lastOffset + 1) := by
    rw [wrapOffset, Nat.mod_eq_sub_mod h]
    exact Nat.mod_eq_of_lt (by omega)
  omega

/-! ### Spans -/

/-- A half-open range of character offsets. -/
structure Span where
  /-- The first offset of the range. -/
  start : Nat
  /-- The first offset after the range. -/
  stop : Nat
  deriving DecidableEq, Repr, Inhabited

namespace Span

/-- The empty span that marks the place `o`. -/
def point (o : Nat) : Span := ⟨o, o⟩

/-- A span that holds no offset. -/
def IsEmpty (s : Span) : Prop := s.stop ≤ s.start

instance (s : Span) : Decidable s.IsEmpty := inferInstanceAs (Decidable (_ ≤ _))

/-- The number of offsets a span holds. -/
def length (s : Span) : Nat := s.stop - s.start

/-- An offset lies in a span: the start counts, the stop does not. -/
def Holds (s : Span) (o : Nat) : Prop := s.start ≤ o ∧ o < s.stop

instance (s : Span) (o : Nat) : Decidable (s.Holds o) := inferInstanceAs (Decidable (_ ∧ _))

/-- An offset lies in a span or at its stop. -/
def Touches (s : Span) (o : Nat) : Prop := s.start ≤ o ∧ o ≤ s.stop

instance (s : Span) (o : Nat) : Decidable (s.Touches o) := inferInstanceAs (Decidable (_ ∧ _))

/-- An offset lies inside a span, off both of its ends: text put there would be torn apart from
one side of the span. -/
def StrictlyHolds (s : Span) (o : Nat) : Prop := s.start < o ∧ o < s.stop

instance (s : Span) (o : Nat) : Decidable (s.StrictlyHolds o) :=
  inferInstanceAs (Decidable (_ ∧ _))

/-- Each of two spans begins before the other one stops.  Spans that only touch do not overlap. -/
def Overlaps (s t : Span) : Prop := s.start < t.stop ∧ t.start < s.stop

instance (s t : Span) : Decidable (s.Overlaps t) := inferInstanceAs (Decidable (_ ∧ _))

@[simp] theorem start_point (o : Nat) : (point o).start = o := rfl

@[simp] theorem stop_point (o : Nat) : (point o).stop = o := rfl

@[simp] theorem isEmpty_point (o : Nat) : (point o).IsEmpty := Nat.le_refl o

theorem overlaps_comm {s t : Span} : s.Overlaps t ↔ t.Overlaps s := And.comm

/-- A span in messages: `2..6`. -/
def render (s : Span) : String := toString s.start ++ ".." ++ toString s.stop

end Span

end Mend
