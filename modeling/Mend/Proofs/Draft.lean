import Mathlib.Data.List.Basic
import Mend.Document.Block

/-!
# What a draft knows about its document

While an edit block runs, its draft keeps every exchange that was made.  They lead from the text the
block began with to the text as it stands, each one fits the text it was made on, and nothing else
of the document but its caret changes.  So a block that is rolled back finds its text again, and one
that is committed leaves a step that can be undone and redone.

## Main definitions

* `Replacement.FitsEach` — exchanges each of which fits the text that the ones before it leave.
* `Document.Records`, `Document.Advance` — a document that gets a new step, and one that gets at
  most one.
* `Draft.Follows` — a draft of an edit block that began with a given document.

## Main results

* `Replacement.revert_replay` — taking exchanges back undoes them.
* `Draft.Follows.replace?`, `Draft.Follows.applyDelta` — every edit keeps a draft following.
* `Draft.Follows.advance_commit`, `Draft.Follows.advance_rollBack` — **a block leaves at most one
  step**, and none when it fails.
-/

namespace Mend

/-! ### Exchanges made one after the other -/

namespace Replacement

/-- Exchanges each of which fits the text that the ones before it leave. -/
def FitsEach : Text → List Replacement → Prop
  | _, [] => True
  | t, r :: rs => r.Fits t ∧ FitsEach (make t r) rs

@[simp] theorem replay_nil (t : Text) : replay t [] = t := rfl

@[simp] theorem replay_cons (t : Text) (r : Replacement) (rs : List Replacement) :
    replay t (r :: rs) = replay (make t r) rs := rfl

@[simp] theorem revert_cons (t : Text) (r : Replacement) (rs : List Replacement) :
    revert t (r :: rs) = unmake (revert t rs) r := rfl

theorem replay_append (t : Text) (rs ss : List Replacement) :
    replay t (rs ++ ss) = replay (replay t rs) ss := List.foldl_append

theorem fitsEach_append {t : Text} {rs ss : List Replacement} :
    FitsEach t (rs ++ ss) ↔ FitsEach t rs ∧ FitsEach (replay t rs) ss := by
  induction rs generalizing t with
  | nil => simp [FitsEach]
  | cons r rs ih => simp [FitsEach, ih, and_assoc]

/-- **Taking exchanges back undoes them.** -/
theorem revert_replay {t : Text} {rs : List Replacement} (h : FitsEach t rs) :
    revert (replay t rs) rs = t := by
  induction rs generalizing t with
  | nil => rfl
  | cons r rs ih => rw [replay_cons, revert_cons, ih h.2, unmake_make h.1]

/-- The exchange that splices a text fits it. -/
theorem fits_splice {t : Text} {s : Span} (hs : s.start ≤ s.stop) (ht : s.stop ≤ t.length)
    (new : Text) : Fits t ⟨s.start, Text.slice t s, new⟩ := by
  have hlen : s.start + (Text.slice t s).length = s.stop := by
    rw [Text.length_slice]
    omega
  refine ⟨?_, Nat.le_trans hs ht⟩
  rw [hlen, ← List.append_assoc, Text.take_append_slice_append_drop t s hs]

theorem make_splice {t : Text} {s : Span} (hs : s.start ≤ s.stop) (ht : s.stop ≤ t.length)
    (new : Text) : make t ⟨s.start, Text.slice t s, new⟩ = Text.splice t s new := by
  have hlen : s.start + (Text.slice t s).length = s.stop := by
    rw [Text.length_slice]
    omega
  rw [make, hlen]

end Replacement

/-! ### What a block leaves behind -/

namespace Document

/-- A document whose history got a new step: the block that was committed last. -/
structure Records (d d' : Document) (s : Step) : Prop where
  /-- The step has the next number. -/
  group_eq : s.group = d.history.nextGroup
  /-- It is recorded on top of the history. -/
  history_eq : d'.history = d.history.push s.replacements s.before s.after

/-- A document that changes by at most one new step. -/
inductive Advance (d d' : Document) : Prop
  /-- Text and history stay as they are. -/
  | quiet (text_eq : d'.text = d.text) (history_eq : d'.history = d.history)
  /-- A step is recorded, and its exchanges lead to the new text. -/
  | committed (s : Step) (records : d.Records d' s)
      (fits : Replacement.FitsEach d.text s.replacements)
      (text_eq : d'.text = Replacement.replay d.text s.replacements)

end Document

namespace Draft

/-! ### Edits that go well -/

@[simp] theorem text_ofDocument (d : Document) : (ofDocument d).text = d.text := rfl

@[simp] theorem text_exchange (d : Draft) (s : Span) (new : Text) :
    (d.exchange s new).text = Text.splice d.text s new := rfl

/-- A replacement in the text goes well. -/
theorem exists_replace?_eq_ok {d : Draft} {s : Span} (hs : s.start ≤ s.stop)
    (ht : s.stop ≤ d.text.length) (new : Text) :
    ∃ d', d.replace? s new = .ok d' ∧ d'.text = Text.splice d.text s new := by
  rw [replace?, if_neg (by omega)]
  split
  next hidle =>
    -- exchanging nothing for nothing is not noted, and splicing it in changes nothing
    obtain ⟨hempty, rfl⟩ := hidle
    have hpoint : s = .point s.start := by
      have : s.stop = s.start := Nat.le_antisymm hempty hs
      cases s
      simp_all [Span.point]
    refine ⟨d, rfl, ?_⟩
    rw [hpoint, Text.splice]
    simp
  next => exact ⟨_, rfl, rfl⟩

/-- A replacement that goes well changes nothing, or it is an exchange in the text. -/
theorem eq_of_replace?_eq_ok {d d' : Draft} {s : Span} {new : Text}
    (h : d.replace? s new = .ok d') :
    d' = d ∨ (s.start ≤ s.stop ∧ s.stop ≤ d.text.length ∧ d' = d.exchange s new) := by
  unfold replace? at h
  split at h
  next => cases h
  next hbounds =>
    split at h
    next => exact .inl (Except.ok.inj h).symm
    next => exact .inr ⟨by omega, by omega, (Except.ok.inj h).symm⟩

/-- Committing a block leaves the text that its edits made. -/
@[simp] theorem text_commit (d : Draft) : d.commit.text = d.text := by
  rw [commit]
  split <;> rfl

/-! ### Drafts of a document -/

/-- A draft of an edit block that began with a document: the exchanges made so far lead from its
text to the text as it stands, and the rest of it is as it was, up to the caret. -/
structure Follows (d : Draft) (start : Document) : Prop where
  /-- The caret to go back to is the one the block began with. -/
  before_eq : d.before = start.caret
  /-- The path does not change. -/
  path_eq : d.document.path = start.path
  /-- The revision is counted up when the block ends. -/
  revision_eq : d.document.revision = start.revision
  /-- A step is recorded when the block ends. -/
  history_eq : d.document.history = start.history
  /-- Each exchange fits the text that the ones before it leave. -/
  fits : Replacement.FitsEach start.text d.made.reverse
  /-- The exchanges lead to the text as it stands. -/
  replay_eq : Replacement.replay start.text d.made.reverse = d.text

theorem follows_ofDocument (d : Document) : (ofDocument d).Follows d :=
  ⟨rfl, rfl, rfl, rfl, trivial, rfl⟩

variable {d d' : Draft} {start : Document}

namespace Follows

/-- Moving the caret keeps a draft following. -/
theorem setCursor (h : d.Follows start) (o : Nat) :
    Follows { d with document := d.document.setCursor o } start :=
  ⟨h.before_eq, h.path_eq, h.revision_eq, h.history_eq, h.fits, h.replay_eq⟩

theorem setSelection (h : d.Follows start) (s : Option Span) :
    Follows { d with document := d.document.setSelection s } start :=
  ⟨h.before_eq, h.path_eq, h.revision_eq, h.history_eq, h.fits, h.replay_eq⟩

theorem exchange (h : d.Follows start) {s : Span} (hs : s.start ≤ s.stop)
    (ht : s.stop ≤ d.text.length) (new : Text) : (d.exchange s new).Follows start where
  before_eq := h.before_eq
  path_eq := h.path_eq
  revision_eq := h.revision_eq
  history_eq := h.history_eq
  fits := by
    rw [Draft.exchange, List.reverse_cons, Replacement.fitsEach_append, h.replay_eq]
    exact ⟨h.fits, Replacement.fits_splice hs ht new, trivial⟩
  replay_eq := by
    rw [Draft.exchange, List.reverse_cons, Replacement.replay_append, h.replay_eq]
    exact Replacement.make_splice hs ht new

theorem replace? (h : d.Follows start) {s : Span} {new : Text}
    (hok : d.replace? s new = .ok d') : d'.Follows start := by
  rcases eq_of_replace?_eq_ok hok with rfl | ⟨hs, ht, rfl⟩
  · exact h
  · exact h.exchange hs ht new

/-- Replacements keep a draft following, also when one of them is refused. -/
theorem replaceEach (h : d.Follows start) (rs : List (Span × Text)) :
    (d.replaceEach rs).1.Follows start := by
  induction rs generalizing d with
  | nil => exact h
  | cons r rs ih =>
    obtain ⟨s, new⟩ := r
    rw [Draft.replaceEach]
    split
    next d' hok => exact ih (h.replace? hok)
    next => exact h

/-- A delta keeps a draft following, be it made as a whole, in part, or not at all. -/
theorem applyDelta (h : d.Follows start) (δ : Delta) : (d.applyDelta δ).1.Follows start := by
  rw [Draft.applyDelta]
  split
  · exact h.replaceEach _
  · exact h

/-! ### The end of a block -/

/-- A block that is rolled back finds its text again. -/
theorem text_rollBack (h : d.Follows start) : d.rollBack.text = start.text := by
  rw [rollBack, ← h.replay_eq]
  exact Replacement.revert_replay h.fits

theorem history_rollBack (h : d.Follows start) : d.rollBack.history = start.history :=
  h.history_eq

/-- A block that failed leaves text and history alone. -/
theorem advance_rollBack (h : d.Follows start) : start.Advance d.rollBack :=
  .quiet h.text_rollBack h.history_rollBack

/-- **A block that is committed leaves at most one step**: it records what it exchanged, if it
exchanged anything. -/
theorem advance_commit (h : d.Follows start) : start.Advance d.commit := by
  have hreplay := h.replay_eq
  rw [Draft.commit]
  split
  next hmade =>
    rw [hmade] at hreplay
    exact .quiet hreplay.symm h.history_eq
  next =>
    refine .committed ⟨start.history.nextGroup, d.made.reverse, start.caret, d.document.caret⟩
      ⟨rfl, ?_⟩ h.fits hreplay.symm
    rw [← h.history_eq, ← h.before_eq]

end Follows

end Draft

end Mend
