import Mend.Edit.Delta

/-!
# Change sets

A *change* asks for one thing to be done to a text: put characters in, take them out, exchange
them, move or copy them elsewhere, or swap two pieces.  A *change set* collects changes that all
speak of the same, unchanged text, so their order only matters where two of them put text at the
same place.

The spans whose characters a set takes away must be pairwise disjoint, and no place at which it
puts text may lie inside such a span.  A change that would break this is left out of the set; the
set then remembers the first such conflict, and cannot be planned any more.

## Main definitions

* `Change` with `destroyed`, `anchors` and `extents` — what a change does to which places.
* `ChangeError` — why a change or a set is refused.
* `Change.Coherent` — changes that can be made together; every change set is coherent.
* `ChangeSet.check`, `ChangeSet.record` — testing a change against a set, and recording it.
* `ChangeSet.ofChanges` — the set of a list of changes that must all be accepted.
-/

namespace Mend

/-! ### Changes -/

/-- One thing to be done to a text. -/
inductive Change
  /-- Puts a text at an offset. -/
  | insert (offset : Nat) (text : Text)
  /-- Takes the characters of a span out. -/
  | remove (span : Span)
  /-- Exchanges the characters of a span for a text. -/
  | replace (span : Span) (text : Text)
  /-- Takes the characters of a span out and puts them at an offset. -/
  | move (span : Span) (target : Nat)
  /-- Puts the characters of a span at an offset as well. -/
  | copy (span : Span) (target : Nat)
  /-- Swaps the characters of two spans. -/
  | flip (first second : Span)
  deriving DecidableEq, Repr

namespace Change

/-- The spans whose characters the change takes from where they are. -/
def destroyed : Change → List Span
  | .remove s | .replace s _ | .move s _ => if s.IsEmpty then [] else [s]
  | .flip s t => [s, t].filter fun u => !decide u.IsEmpty
  | .insert _ _ | .copy _ _ => []

/-- The places between two characters at which the change puts text. -/
def anchors : Change → List Nat
  | .insert o _ | .move _ o | .copy _ o => [o]
  | .replace s _ => if s.IsEmpty then [s.start] else []
  | .remove _ | .flip _ _ => []

/-- Every span and place the change speaks of. -/
def extents : Change → List Span
  | .insert o _ => [.point o]
  | .remove s | .replace s _ => [s]
  | .move s o | .copy s o => [s, .point o]
  | .flip s t => [s, t]

end Change

/-! ### Refusals -/

/-- Why a change or a change set is refused. -/
inductive ChangeError
  /-- Two changes, or two parts of one, contradict each other. -/
  | overlap (existing incoming : Span)
  /-- A span ends before it starts. -/
  | invalidSpan (span : Span)
  /-- A span ends after the text does. -/
  | outOfBounds (span : Span) (length : Nat)
  deriving DecidableEq, Repr

/-- The error as told to the user. -/
def ChangeError.message : ChangeError → String
  | .overlap existing incoming =>
    "conflicting edits: " ++ existing.render ++ " overlaps " ++ incoming.render
  | .invalidSpan span => "invalid range " ++ span.render
  | .outOfBounds span length =>
    "range " ++ span.render ++ " is out of bounds for a document of " ++ toString length ++
      " characters"

/-! ### Conflicts -/

namespace Change

/-- The first span of a change that ends before it starts. -/
def misshapen? (c : Change) : Option ChangeError :=
  (c.extents.find? fun s => s.stop < s.start).map .invalidSpan

/-- A change that contradicts itself: swapped spans overlap, or a piece is moved into itself. -/
def selfConflict? : Change → Option ChangeError
  | .flip s t => if s.Overlaps t then some (.overlap s t) else none
  | .move s o => if s.StrictlyHolds o then some (.overlap s (.point o)) else none
  | _ => none

/-- How a change contradicts an earlier one: both take the same characters, or one puts text
inside a span that the other takes away. -/
def conflict? (earlier later : Change) : Option ChangeError :=
  (later.destroyed.findSome? fun taken =>
    (earlier.destroyed.find? (·.Overlaps taken)).map (.overlap · taken)) <|>
  (later.anchors.findSome? fun o =>
    (earlier.destroyed.find? (·.StrictlyHolds o)).map (.overlap · (.point o))) <|>
  (earlier.anchors.findSome? fun o =>
    (later.destroyed.find? (·.StrictlyHolds o)).map (.overlap (.point o) ·))

/-- Changes that can be made together: each makes sense by itself, and none contradicts an earlier
one. -/
structure Coherent (cs : List Change) : Prop where
  /-- No span is inside out, and no change contradicts itself. -/
  sound : ∀ c ∈ cs, c.misshapen? = none ∧ c.selfConflict? = none
  /-- No change contradicts an earlier one. -/
  compatible : cs.Pairwise fun earlier later => earlier.conflict? later = none

theorem Coherent.nil : Coherent [] := ⟨by simp, .nil⟩

/-- A change that contradicts nothing can join changes that are coherent. -/
theorem Coherent.concat {cs : List Change} {c : Change} (h : Coherent cs)
    (hc : c.misshapen? = none ∧ c.selfConflict? = none)
    (hcs : ∀ earlier ∈ cs, earlier.conflict? c = none) : Coherent (cs ++ [c]) where
  sound := by
    intro d hd
    rcases List.mem_append.1 hd with hd | hd
    · exact h.sound d hd
    · rw [List.mem_singleton.1 hd]
      exact hc
  compatible := List.pairwise_append.2 ⟨h.compatible, List.pairwise_singleton _ _,
    fun earlier he d hd => List.mem_singleton.1 hd ▸ hcs earlier he⟩

end Change

/-! ### Sets -/

/-- The changes accepted so far, and the first refusal if there was one. -/
structure ChangeSet where
  /-- The accepted changes, in the order they were recorded. -/
  changes : List Change
  /-- The first refusal. -/
  refusal : Option ChangeError
  /-- Changes only join a set one by one, each after it has been checked. -/
  coherent : Change.Coherent changes
  deriving DecidableEq, Repr

namespace ChangeSet

/-- The set without changes. -/
def empty : ChangeSet := ⟨[], none, .nil⟩

instance : Inhabited ChangeSet := ⟨empty⟩

/-- Why a change cannot join a set, if it cannot. -/
def check (s : ChangeSet) (c : Change) : Option ChangeError :=
  c.misshapen? <|> c.selfConflict? <|> s.changes.findSome? fun earlier => earlier.conflict? c

theorem check_eq_none_iff {s : ChangeSet} {c : Change} :
    s.check c = none ↔ (c.misshapen? = none ∧ c.selfConflict? = none) ∧
      ∀ earlier ∈ s.changes, earlier.conflict? c = none := by
  simp [check, and_assoc]

/-- Records a change.  One that cannot join leaves the changes as they are, and is remembered if
it is the first such. -/
def record (s : ChangeSet) (c : Change) : ChangeSet :=
  match h : s.check c with
  | none =>
    { changes := s.changes ++ [c]
      refusal := s.refusal
      coherent := s.coherent.concat (check_eq_none_iff.1 h).1 (check_eq_none_iff.1 h).2 }
  | some e => { s with refusal := s.refusal <|> some e }

/-- Records changes one after the other, refused ones included. -/
def recordAll (s : ChangeSet) (cs : List Change) : ChangeSet := cs.foldl record s

/-- Records changes one after the other until one is refused. -/
def extend (s : ChangeSet) : List Change → Except ChangeError ChangeSet
  | [] => .ok s
  | c :: rest =>
    match s.check c with
    | none => extend (s.record c) rest
    | some e => .error e

/-- The set of changes that must all be accepted. -/
def ofChanges (cs : List Change) : Except ChangeError ChangeSet := empty.extend cs

theorem changes_record_of_check_eq_none {s : ChangeSet} {c : Change} (h : s.check c = none) :
    (s.record c).changes = s.changes ++ [c] := by
  unfold record
  split <;> simp_all

theorem refusal_record_of_check_eq_none {s : ChangeSet} {c : Change} (h : s.check c = none) :
    (s.record c).refusal = s.refusal := by
  unfold record
  split <;> simp_all

theorem refusal_record_of_check_eq_some {s : ChangeSet} {c : Change} {e : ChangeError}
    (h : s.check c = some e) : (s.record c).refusal = (s.refusal <|> some e) := by
  unfold record
  split <;> simp_all

/-- A set remembers a refusal for good. -/
theorem refusal_record_of_refusal {s : ChangeSet} {c : Change} {e : ChangeError}
    (h : s.refusal = some e) : (s.record c).refusal = some e := by
  unfold record
  split <;> simp [h]

theorem refusal_recordAll_of_refusal {s : ChangeSet} {e : ChangeError} (cs : List Change)
    (h : s.refusal = some e) : (s.recordAll cs).refusal = some e := by
  induction cs generalizing s with
  | nil => exact h
  | cons c cs ih => exact ih (refusal_record_of_refusal h)

/-- A set that has refused no change holds all that were recorded, in order. -/
theorem changes_recordAll {s : ChangeSet} {cs : List Change}
    (h : (s.recordAll cs).refusal = none) : (s.recordAll cs).changes = s.changes ++ cs := by
  induction cs generalizing s with
  | nil => simp [recordAll]
  | cons c cs ih =>
    have hrec : s.recordAll (c :: cs) = (s.record c).recordAll cs := rfl
    rw [hrec] at h ⊢
    cases hc : s.check c with
    | none =>
      rw [ih h, changes_record_of_check_eq_none hc, List.append_assoc]
      rfl
    | some e =>
      -- a refused change would have been remembered
      exfalso
      cases hs : s.refusal with
      | none =>
        have := refusal_record_of_check_eq_some hc
        rw [hs] at this
        simp [refusal_recordAll_of_refusal cs this] at h
      | some e' => simp [refusal_recordAll_of_refusal cs (refusal_record_of_refusal hs)] at h

/-- A set made of accepted changes holds them all, in order, and remembers no refusal. -/
theorem extend_eq_ok {s s' : ChangeSet} {cs : List Change} (h : s.extend cs = .ok s') :
    s'.changes = s.changes ++ cs ∧ s'.refusal = s.refusal := by
  induction cs generalizing s with
  | nil => simp_all [extend]
  | cons c cs ih =>
    cases hc : s.check c with
    | none =>
      rw [extend, hc] at h
      obtain ⟨hchanges, hrefusal⟩ := ih h
      rw [changes_record_of_check_eq_none hc] at hchanges
      rw [refusal_record_of_check_eq_none hc] at hrefusal
      exact ⟨by simpa using hchanges, hrefusal⟩
    | some e => simp [extend, hc] at h

end ChangeSet

end Mend
