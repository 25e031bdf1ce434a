import Mend.Text.Span

/-!
# Texts and their slices

A *text* is a list of characters, and every offset counts characters.  This file cuts pieces out
of a text and puts other pieces in their place; offsets past the end stand for the end.

## Main definitions

* `Text` — a list of characters.
* `Text.slice t s` — the characters of `t` in the span `s`.
* `Text.splice t s new` — `t` with the characters in `s` exchanged for `new`.
* `Text.delete t s` — `t` without the characters in `s`.
-/

namespace Mend

/-- A text, character by character. -/
abbrev Text := List Char

namespace Text

/-- The characters of a text whose offsets lie in a span. -/
def slice (t : Text) (s : Span) : Text := (t.take s.stop).drop s.start

/-- A text with the characters in a span exchanged for others. -/
def splice (t : Text) (s : Span) (new : Text) : Text := t.take s.start ++ new ++ t.drop s.stop

/-- A text without the characters in a span; a span that is inside out holds none. -/
def delete (t : Text) (s : Span) : Text := splice t ⟨min s.start s.stop, s.stop⟩ []

@[simp] theorem length_slice (t : Text) (s : Span) :
    (slice t s).length = min s.stop t.length - s.start := by
  simp [slice]

@[simp] theorem slice_point (t : Text) (o : Nat) : slice t (.point o) = [] := by
  simp [slice]

/-- A piece of a text is the slice where it stands. -/
theorem slice_append (p w q : Text) :
    slice (p ++ (w ++ q)) ⟨p.length, p.length + w.length⟩ = w := by
  rw [slice, List.take_length_add_append, List.take_left, List.drop_left]

/-- Cutting at the two ends of a span loses nothing. -/
theorem take_append_slice_append_drop (t : Text) (s : Span) (h : s.start ≤ s.stop) :
    t.take s.start ++ slice t s ++ t.drop s.stop = t := by
  have key : t.take s.start ++ slice t s = t.take s.stop := by
    have := List.take_append_drop s.start (t.take s.stop)
    rwa [List.take_take, Nat.min_eq_left h] at this
  rw [key, List.take_append_drop]

/-- Whether a text holds the characters of a piece side by side. -/
def holds (t piece : Text) : Bool :=
  match t with
  | [] => piece.isEmpty
  | c :: rest => piece.isPrefixOf (c :: rest) || holds rest piece

/-- Pieces of text joined by a separator. -/
def join (separator : Text) : List Text → Text
  | [] => []
  | [t] => t
  | t :: rest => t ++ separator ++ join separator rest

end Text

end Mend
