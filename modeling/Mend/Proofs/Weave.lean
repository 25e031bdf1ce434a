import Mathlib.Data.List.Basic
import Mathlib.Order.MinMax
import Mend.Proofs.Planned

/-!
# What a change set makes of a text

The delta of a change set is planned by sorting and spliced by a loop.  What the changes mean is
said here without either: walk the offsets of the text in order, put down at each one what the
changes place there, in the order in which they were recorded, and then the character that stands
there, unless a change takes it away.

## Main definitions

* `Text.weave` — a text with pieces put between its characters, and without some of them.
* `Change.placedAt`, `Change.Destroys` — what a change places at an offset, and what it takes away.
* `Change.weave` — the text that changes make of a text.

## Main results

* `Delta.applyFrom_eq_weave` — splicing sorted edits is weaving what they insert.
* `ChangeSet.applyTo_eq_weave` — a set whose changes were all accepted can be planned on every text
  that they fit, and makes of it what the changes say.
-/

namespace Mend

/-! ### Weaving -/

namespace Text

variable {put put' : Nat → Text} {gone gone' : Nat → Prop} [DecidablePred gone]
  [DecidablePred gone']

/-- What stands at an offset of a woven text: a piece, and the character unless it is gone. -/
def weaveAt (t : Text) (put : Nat → Text) (gone : Nat → Prop) [DecidablePred gone] (p : Nat) :
    Text :=
  put p ++ if gone p then [] else t[p]?.toList

/-- A text with a piece put before each of its characters and at its end, and without the
characters that are gone. -/
def weave (t : Text) (put : Nat → Text) (gone : Nat → Prop) [DecidablePred gone] : Text :=
  (List.range (t.length + 1)).flatMap (weaveAt t put gone)

/-- Where nothing is put and only the characters before an offset are gone, what is woven up to
another offset is the slice between the two. -/
theorem flatMap_range_weaveAt {done : Nat} (t : Text) (n : Nat)
    (hput : ∀ p < n, put p = []) (hgone : ∀ p < n, gone p ↔ p < done) :
    (List.range n).flatMap (weaveAt t put gone) = slice t ⟨done, n⟩ := by
  induction n with
  | zero => simp [slice]
  | succ n ih =>
    -- the character at `n` is gone just when `n` lies before `done`
    have hlast : weaveAt t put gone n = t[n]?.toList.drop (done - n) := by
      rw [weaveAt, hput n (by omega)]
      by_cases hn : n < done
      · have hdrop : t[n]?.toList.length ≤ done - n := by
          cases t[n]? <;> simp
          omega
        rw [if_pos ((hgone n (by omega)).2 hn), List.drop_eq_nil_of_le hdrop, List.append_nil]
      · rw [if_neg fun h => hn ((hgone n (by omega)).1 h), Nat.sub_eq_zero_of_le (by omega)]
        rfl
    rw [List.range_succ, List.flatMap_append, ih (fun p hp => hput p (by omega))
      fun p hp => hgone p (by omega), List.flatMap_singleton, hlast]
    simp only [slice, List.take_add_one, List.drop_append, List.length_take]
    rcases Nat.le_total n t.length with h | h
    · rw [Nat.min_eq_left h]
    · rw [List.getElem?_eq_none h]
      simp

theorem weaveAt_congr {t : Text} {p : Nat} (hput : put p = put' p)
    (hgone : p < t.length → (gone p ↔ gone' p)) : weaveAt t put gone p = weaveAt t put' gone' p := by
  rw [weaveAt, weaveAt, hput]
  rcases Nat.lt_or_ge p t.length with hp | hp
  · simp only [hgone hp]
  · simp [List.getElem?_eq_none hp]

theorem weave_congr {t : Text} (hput : ∀ p, put p = put' p)
    (hgone : ∀ p < t.length, gone p ↔ gone' p) : weave t put gone = weave t put' gone' :=
  List.flatMap_congr fun p _ => weaveAt_congr (hput p) (hgone p)

/-- A woven text falls into what is woven before an offset, at it, and after it. -/
theorem weave_eq_append {s : Nat} (t : Text) (hs : s ≤ t.length) :
    weave t put gone = (List.range s).flatMap (weaveAt t put gone) ++ (weaveAt t put gone s ++
      (List.range' (s + 1) (t.length - s)).flatMap (weaveAt t put gone)) := by
  have hrange : List.range (t.length + 1)
      = List.range s ++ s :: List.range' (s + 1) (t.length - s) := by
    have happend := @List.range'_append_1 0 s (t.length - s + 1)
    rw [Nat.zero_add, ← Nat.add_assoc, Nat.add_sub_cancel' hs] at happend
    rw [← List.range'_succ, List.range_eq_range', List.range_eq_range', happend]
  rw [weave, hrange, List.flatMap_append, List.flatMap_cons]

/-- Taking the first piece out of a weave: before the offset `s` where it is put nothing else is,
and what is gone from `s` on does not change, while of the text before `s` nothing is left. -/
theorem weave_eq_append_weave {t new : Text} {s done : Nat} (hs : s ≤ t.length)
    (hbefore : ∀ p < s, put p = [] ∧ (gone p ↔ p < done))
    (hbefore' : ∀ p < s, put' p = [] ∧ gone' p)
    (hat : put s = new ++ put' s) (hafter : ∀ p, s < p → put p = put' p)
    (hgone : ∀ p, s ≤ p → (gone p ↔ gone' p)) :
    weave t put gone = slice t ⟨done, s⟩ ++ (new ++ weave t put' gone') := by
  have hnone : (List.range s).flatMap (weaveAt t put' gone') = [] :=
    List.flatMap_eq_nil_iff.2 fun p hp => by
      obtain ⟨hput, hp⟩ := hbefore' p (List.mem_range.1 hp)
      rw [weaveAt, hput, if_pos hp, List.append_nil]
  have hfirst : weaveAt t put gone s = new ++ weaveAt t put' gone' s := by
    simp only [weaveAt, hat, hgone s (Nat.le_refl s), List.append_assoc]
  have hrest : (List.range' (s + 1) (t.length - s)).flatMap (weaveAt t put gone)
      = (List.range' (s + 1) (t.length - s)).flatMap (weaveAt t put' gone') :=
    List.flatMap_congr fun p hp => by
      have hlt : s < p := (List.mem_range'_1.1 hp).1
      exact weaveAt_congr (hafter p hlt) fun _ => hgone p (Nat.le_of_lt hlt)
  rw [weave_eq_append t hs, weave_eq_append t hs, hnone, hfirst, hrest,
    flatMap_range_weaveAt t s (fun p hp => (hbefore p hp).1) fun p hp => (hbefore p hp).2,
    List.nil_append, List.append_assoc]

end Text

/-! ### Edits -/

namespace Delta

/-- What edits insert at an offset, one after the other. -/
def insertedAt (es : List DeltaEdit) (p : Nat) : Text :=
  (es.filter fun e => e.start = p).flatMap (·.inserted)

/-- An edit takes the character at an offset away. -/
def Covers (es : List DeltaEdit) (p : Nat) : Prop := ∃ e ∈ es, e.start ≤ p ∧ p < e.reach

instance (es : List DeltaEdit) (p : Nat) : Decidable (Covers es p) :=
  inferInstanceAs (Decidable (∃ _ ∈ _, _))

theorem covers_cons {e : DeltaEdit} {es : List DeltaEdit} {p : Nat} :
    Covers (e :: es) p ↔ (e.start ≤ p ∧ p < e.reach) ∨ Covers es p := by
  simp [Covers]

theorem insertedAt_eq_nil {es : List DeltaEdit} {p : Nat} (h : ∀ e ∈ es, p < e.start) :
    insertedAt es p = [] := by
  have hnone : (es.filter fun e => e.start = p) = [] :=
    List.filter_eq_nil_iff.2 fun e he heq => by
      have := h e he
      simp only [decide_eq_true_eq] at heq
      omega
  rw [insertedAt, hnone, List.flatMap_nil]

/-- Splicing edits into a text whose characters before `done` are dealt with already.  The edits
only have to ascend: should one of them start before `done`, its text follows what is there. -/
theorem applyFrom_eq_weave (t : Text) {es : List DeltaEdit} (done : Nat)
    (hasc : es.Pairwise fun e f => e.start ≤ f.start) (hin : ∀ e ∈ es, e.start ≤ t.length) :
    applyFrom t done es = t.weave (insertedAt es) fun p => p < done ∨ Covers es p := by
  induction es generalizing done with
  | nil =>
    have hdrop : t.drop done = Text.slice t ⟨done, t.length + 1⟩ := by
      rw [Text.slice, List.take_of_length_le (Nat.le_succ _)]
    rw [applyFrom_nil, Text.weave, hdrop]
    exact (Text.flatMap_range_weaveAt t _ (fun _ _ => rfl) (by simp [Covers])).symm
  | cons e es ih =>
    obtain ⟨hfirst, hrest⟩ := List.pairwise_cons.1 hasc
    have hreach : e.start ≤ e.reach := Nat.le_add_right _ _
    rw [applyFrom, ih _ hrest fun f hf => hin f (List.mem_cons_of_mem _ hf)]
    refine (Text.weave_eq_append_weave (hin e List.mem_cons_self) (fun p hp => ?_) (fun p hp => ?_)
      ?_ (fun p hp => ?_) fun p hp => ?_).symm
    · -- no edit reaches a place before the first one
      have hlt : ∀ f ∈ e :: es, p < f.start := by
        intro f hf
        rcases List.mem_cons.1 hf with rfl | hf
        · exact hp
        · exact Nat.lt_of_lt_of_le hp (hfirst f hf)
      refine ⟨insertedAt_eq_nil hlt, ?_⟩
      have hcovers : ¬Covers (e :: es) p := by
        rintro ⟨f, hf, hle, -⟩
        exact Nat.not_lt.2 hle (hlt f hf)
      simp [hcovers]
    · -- and once the first edit is made, all that stands before it is dealt with
      exact ⟨insertedAt_eq_nil fun f hf => Nat.lt_of_lt_of_le hp (hfirst f hf),
        .inl (lt_max_iff.2 (.inr (Nat.lt_of_lt_of_le hp hreach)))⟩
    · simp [insertedAt]
    · simp [insertedAt, Nat.ne_of_lt hp]
    · rw [covers_cons, lt_max_iff]
      simp only [hp, true_and, or_assoc]

/-- What edits insert does not depend on the notes of moves, and neither does what they cover. -/
theorem applyFrom_map_unlink (t : Text) (done : Nat) (es : List DeltaEdit) :
    applyFrom t done (es.map DeltaEdit.unlink) = applyFrom t done es := by
  induction es generalizing done with
  | nil => rfl
  | cons e es ih => simp [applyFrom, ih]

end Delta

/-! ### Changes -/

namespace Change

/-- The text that a change places at an offset.  Swapped spans that start together place what the
first one gets before what the second one gets. -/
def placedAt (t : Text) (p : Nat) : Change → Text
  | .insert o text => if o = p then text else []
  | .remove _ => []
  | .replace s text => if s.start = p then text else []
  | .move s o | .copy s o => if o = p then Text.slice t s else []
  | .flip s u =>
    (if s.start = p then Text.slice t u else []) ++ if u.start = p then Text.slice t s else []

/-- A change takes the character at an offset from where it is. -/
def Destroys (p : Nat) : Change → Prop
  | .insert _ _ | .copy _ _ => False
  | .remove s | .replace s _ | .move s _ => s.Holds p
  | .flip s u => s.Holds p ∨ u.Holds p

instance (p : Nat) : (c : Change) → Decidable (c.Destroys p)
  | .insert _ _ | .copy _ _ => inferInstanceAs (Decidable False)
  | .remove s | .replace s _ | .move s _ => inferInstanceAs (Decidable (s.Holds p))
  | .flip s u => inferInstanceAs (Decidable (s.Holds p ∨ u.Holds p))

/-- The text that changes make of a text: at each offset what they place there, in their order, and
then the character that stands there, unless one of them destroys it. -/
def weave (cs : List Change) (t : Text) : Text :=
  t.weave (fun p => cs.flatMap (placedAt t p)) fun p => ∃ c ∈ cs, c.Destroys p

/-- The exchanges of a change put down what it places, and where. -/
theorem flatMap_exchanges (t : Text) (i p : Nat) (c : Change) :
    ((c.exchanges t i).filter fun x => x.span.start = p).flatMap (·.text) = c.placedAt t p := by
  cases c with
  | move s o => by_cases hs : s.start = p <;> by_cases ho : o = p <;> simp [exchanges, placedAt, *]
  | flip s u =>
    by_cases hs : s.start = p <;> by_cases hu : u.start = p <;> simp [exchanges, placedAt, *]
  | insert o text => by_cases ho : o = p <;> simp [exchanges, placedAt, ho]
  | remove s => by_cases hs : s.start = p <;> simp [exchanges, placedAt, hs]
  | replace s text => by_cases hs : s.start = p <;> simp [exchanges, placedAt, hs]
  | copy s o => by_cases ho : o = p <;> simp [exchanges, placedAt, ho]

/-- The exchanges of a change take away what it destroys. -/
theorem exists_holds_exchanges (t : Text) (i p : Nat) (c : Change) :
    (∃ x ∈ c.exchanges t i, x.span.Holds p) ↔ c.Destroys p := by
  have hpoint : ∀ o, ¬(Span.point o).Holds p := fun o h => Nat.not_lt.2 h.1 h.2
  cases c <;> simp [exchanges, Destroys, hpoint]

end Change

namespace Exchange

theorem flatMap_ofChanges (t : Text) (i p : Nat) (cs : List Change) :
    ((ofChanges t i cs).filter fun x => x.span.start = p).flatMap (·.text)
      = cs.flatMap (Change.placedAt t p) := by
  induction cs generalizing i with
  | nil => rfl
  | cons c cs ih =>
    rw [ofChanges, List.filter_append, List.flatMap_append, Change.flatMap_exchanges, ih,
      List.flatMap_cons]

theorem exists_holds_ofChanges (t : Text) (i p : Nat) (cs : List Change) :
    (∃ x ∈ ofChanges t i cs, x.span.Holds p) ↔ ∃ c ∈ cs, c.Destroys p := by
  induction cs generalizing i with
  | nil => simp [ofChanges]
  | cons c cs ih =>
    simp only [ofChanges, List.mem_append, or_and_right, exists_or, List.mem_cons, exists_eq_left]
    rw [Change.exists_holds_exchanges, ih]

/-- What sorted exchanges put down at an offset is what they put down there before they were
sorted: those that start together stay in order. -/
theorem flatMap_filter_sort (p : Nat) (xs : List Exchange) :
    ((sort xs).filter fun x => x.span.start = p).flatMap (·.text)
      = (xs.filter fun x => x.span.start = p).flatMap (·.text) := by
  rw [sort, filter_stableSort]
  intro x _ y _ hx hy
  simp only [decide_eq_true_eq] at hx hy ⊢
  omega

/-- Idle exchanges put nothing down. -/
theorem flatMap_filter_not_isIdle (xs : List Exchange) :
    (xs.filter fun x => !decide x.IsIdle).flatMap (·.text) = xs.flatMap (·.text) := by
  induction xs with
  | nil => rfl
  | cons x xs ih =>
    rw [List.filter_cons, List.flatMap_cons, ← ih]
    split
    next => rw [List.flatMap_cons]
    next hidle =>
      have hx : x.IsIdle := by simpa using hidle
      rw [hx.2, List.nil_append]

end Exchange

namespace ChangeSet

/-- The edits of a set insert at an offset what its changes place there, in their order. -/
theorem insertedAt_exchanges (s : ChangeSet) (t : Text) (p : Nat) :
    Delta.insertedAt ((s.exchanges t).map (Exchange.toEdit t)) p
      = s.changes.flatMap (Change.placedAt t p) := by
  have hmap : Delta.insertedAt ((s.exchanges t).map (Exchange.toEdit t)) p
      = ((s.exchanges t).filter fun x => x.span.start = p).flatMap (·.text) := by
    rw [Delta.insertedAt, List.filter_map, List.flatMap_map]
    rfl
  rw [hmap, exchanges, List.filter_comm, Exchange.flatMap_filter_not_isIdle,
    Exchange.flatMap_filter_sort, Exchange.flatMap_ofChanges]

/-- The edits of a set take away what its changes destroy. -/
theorem covers_exchanges {s : ChangeSet} {t : Text} {p : Nat} (hp : p < t.length) :
    Delta.Covers ((s.exchanges t).map (Exchange.toEdit t)) p ↔ ∃ c ∈ s.changes, c.Destroys p := by
  rw [← Exchange.exists_holds_ofChanges t 0]
  simp only [Delta.Covers, List.mem_map, exists_exists_and_eq_and]
  constructor
  · rintro ⟨x, hx, hstart, hreach⟩
    have hmem := (Exchange.sort_perm _).mem_iff.1 (List.mem_filter.1 hx).1
    simp only [Exchange.toEdit, DeltaEdit.reach, Text.length_slice] at hstart hreach
    exact ⟨x, hmem, hstart, by omega⟩
  · rintro ⟨x, hx, hstart, hstop⟩
    -- an exchange that takes a character away is not idle, so it is among the planned ones
    have hidle : ¬x.IsIdle := fun h => by
      have : x.span.stop ≤ x.span.start := h.1
      omega
    refine ⟨x, List.mem_filter.2 ⟨(Exchange.sort_perm _).mem_iff.2 hx, by simpa using hidle⟩,
      hstart, ?_⟩
    simp only [Exchange.toEdit, DeltaEdit.reach, Text.length_slice]
    omega

/-- A planned delta makes of its text what the changes of the set say. -/
theorem applyTo_eq_weave_of_plan_eq_ok {s : ChangeSet} {t : Text} {δ : Delta}
    (h : s.plan t = .ok δ) : δ.applyTo t = Change.weave s.changes t := by
  have hfits := fits_of_plan_eq_ok h
  have hstart : ∀ e ∈ δ.edits, e.start ≤ t.length := fun e he =>
    Nat.le_trans (Nat.le_add_right _ _) (hfits.within e he)
  have hedits : δ.edits.map DeltaEdit.unlink = (s.exchanges t).map (Exchange.toEdit t) := by
    rw [eq_ofExchanges_of_plan_eq_ok h, Delta.map_unlink_ofExchanges]
  rw [Delta.applyTo, ← Delta.applyFrom_map_unlink, Delta.applyFrom_eq_weave, hedits]
  · refine Text.weave_congr (insertedAt_exchanges s t) fun p hp => ?_
    rw [covers_exchanges hp]
    simp
  · exact List.pairwise_map.2 hfits.ascending
  · simpa using hstart

/-- A set without a refusal can be planned on every text that its changes fit. -/
theorem exists_plan_eq_ok {s : ChangeSet} {t : Text} (hs : s.refusal = none)
    (ht : ∀ c ∈ s.changes, ∀ u ∈ c.extents, u.stop ≤ t.length) : ∃ δ, s.plan t = .ok δ := by
  have hbounds : s.outOfBounds? t = none := by
    simp only [outOfBounds?, Option.map_eq_none_iff, List.find?_eq_none, List.mem_flatMap]
    rintro u ⟨c, hc, hu⟩
    simpa using ht c hc u hu
  exact ⟨.ofExchanges t (s.exchanges t), by simp [plan, hs, hbounds]⟩

/-- **A change set does what its changes say.**  When none of the changes recorded in a set was
refused, the set can be planned on every text that they fit, and what it makes of the text is the
text that its changes make of it. -/
theorem applyTo_eq_weave {cs : List Change} {t : Text}
    (hcs : (empty.recordAll cs).refusal = none)
    (ht : ∀ c ∈ cs, ∀ u ∈ c.extents, u.stop ≤ t.length) :
    (∃ δ, (empty.recordAll cs).plan t = .ok δ) ∧
      (empty.recordAll cs).applyTo t = .ok (Change.weave cs t) := by
  have hchanges : (empty.recordAll cs).changes = cs := changes_recordAll hcs
  obtain ⟨δ, hδ⟩ := exists_plan_eq_ok hcs (hchanges.symm ▸ ht)
  refine ⟨⟨δ, hδ⟩, ?_⟩
  have hweave := applyTo_eq_weave_of_plan_eq_ok hδ
  rw [hchanges] at hweave
  simp only [applyTo, hδ, hweave]

/-- A condition is moved to the front together with what stands around it there, while a name in it
is copied to where it stood. -/
theorem applyTo_eq_weave_hoist :
    let cs : List Change := [.copy ⟨4, 5⟩ 3, .insert 0 ['('], .move ⟨3, 6⟩ 0, .insert 0 [')', ' ']]
    let t : Text := ['d', 'o', ' ', '!', 'x', 'y']
    (empty.recordAll cs).refusal = none ∧ (∀ c ∈ cs, ∀ u ∈ c.extents, u.stop ≤ t.length) ∧
      (empty.recordAll cs).applyTo t
        = .ok ['(', '!', 'x', 'y', ')', ' ', 'd', 'o', ' ', 'x'] := by
  refine ⟨by decide, by decide, ?_⟩
  exact (applyTo_eq_weave (by decide) (by decide)).2.trans (by decide)

end ChangeSet

end Mend
