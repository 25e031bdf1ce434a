import Mend.Edit.Delta

/-!
# Undo history

Every group of edits made to a document is one *step*.  A step keeps its exchanges in the order
they were made, each in offsets of the text at that moment, so that they can be taken back in the
opposite order and made again in the same one.

## Main definitions

* `Caret` — the cursor and the selection.
* `Replacement`, `replay`, `revert` — one exchange that was made, and making or taking back many;
  `unmake_make` says that taking an exchange back undoes it.
* `Step`, `History` — the steps that can be undone and redone.
-/

namespace Mend

/-- The place a user works at. -/
structure Caret where
  /-- The offset of the cursor. -/
  cursor : Nat
  /-- The selected characters, if there are any. -/
  selection : Option Span
  deriving DecidableEq, Repr

/-- The nearest caret within a text of the given length.  A selection that becomes empty is
dropped. -/
def Caret.clamp (length : Nat) (c : Caret) : Caret :=
  { cursor := min c.cursor length
    selection := (c.selection.map fun s => (⟨min s.start length, min s.stop length⟩ : Span)).filter
      fun s => !decide s.IsEmpty }

/-! ### Exchanges made and taken back -/

/-- An exchange of characters that was made, at an offset of the text at that moment. -/
structure Replacement where
  /-- Where it was made. -/
  start : Nat
  /-- The characters that went. -/
  deleted : Text
  /-- The characters that came. -/
  inserted : Text
  deriving DecidableEq, Repr

namespace Replacement

/-- Makes an exchange. -/
def make (t : Text) (r : Replacement) : Text :=
  Text.splice t ⟨r.start, r.start + r.deleted.length⟩ r.inserted

/-- Takes an exchange back. -/
def unmake (t : Text) (r : Replacement) : Text :=
  Text.splice t ⟨r.start, r.start + r.inserted.length⟩ r.deleted

/-- Makes exchanges, the first one first. -/
def replay (t : Text) (rs : List Replacement) : Text := rs.foldl make t

/-- Takes exchanges back, the last one first. -/
def revert (t : Text) (rs : List Replacement) : Text := rs.foldr (fun r t => unmake t r) t

/-- An exchange that fits a text: the characters that go stand where it says. -/
def Fits (t : Text) (r : Replacement) : Prop :=
  t = t.take r.start ++ (r.deleted ++ t.drop (r.start + r.deleted.length)) ∧ r.start ≤ t.length

theorem unmake_make {t : Text} {r : Replacement} (h : r.Fits t) : unmake (make t r) r = t := by
  obtain ⟨h, hlen⟩ := h
  have hs : (t.take r.start).length = r.start := by simp [Nat.min_eq_left hlen]
  have h1 : (make t r).take r.start = t.take r.start := by
    simp [make, Text.splice, hs]
  have h2 : (make t r).drop (r.start + r.inserted.length)
      = t.drop (r.start + r.deleted.length) :=
    List.drop_left' (by simp only [List.length_append, hs])
  simp only [unmake, Text.splice]
  rw [h1, h2, List.append_assoc, ← h]

end Replacement

/-! ### Steps -/

/-- A group of exchanges that is undone and redone as a whole. -/
structure Step where
  /-- The number of the step in the life of the document. -/
  group : Nat
  /-- The exchanges, in the order they were made. -/
  replacements : List Replacement
  /-- The caret before the step. -/
  before : Caret
  /-- The caret after the step. -/
  after : Caret
  deriving DecidableEq, Repr

/-- The steps of a document, the most recent one first. -/
structure History where
  /-- The steps that can be undone. -/
  done : List Step := []
  /-- The steps that can be redone. -/
  undone : List Step := []
  /-- The number of the next step. -/
  nextGroup : Nat := 0
  deriving DecidableEq, Repr

namespace History

/-- The number of steps that are kept for undoing. -/
def capacity : Nat := 1000

/-- Records a new step.  Steps that were undone are forgotten, and so is the oldest step when
there are too many. -/
def push (h : History) (replacements : List Replacement) (before after : Caret) : History :=
  { done := ({ group := h.nextGroup, replacements, before, after } :: h.done).take capacity
    undone := []
    nextGroup := h.nextGroup + 1 }

/-- The number of the most recent step that can be undone. -/
def lastGroup? (h : History) : Option Nat := h.done.head?.map (·.group)

@[simp] theorem undone_push (h : History) (rs : List Replacement) (b a : Caret) :
    (h.push rs b a).undone = [] := rfl

@[simp] theorem lastGroup?_push (h : History) (rs : List Replacement) (b a : Caret) :
    (h.push rs b a).lastGroup? = some h.nextGroup := rfl

end History

end Mend
