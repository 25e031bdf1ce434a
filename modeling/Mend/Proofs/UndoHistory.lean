import Mathlib.Data.List.Induction
import Mend.Proofs.DocumentRun

/-!
# The history of a run

The steps that can be undone and the steps that can be redone are the two halves of one timeline:
it leads from an early text of the document, over the text as it stands, to the text that redoing
everything would give.  Undoing and redoing move the place on the timeline and leave it as it is.
A new block cuts off what lies ahead, and the capacity of the history what lies too far back.

## Main definitions

* `Step.Lead` — steps that lead from one text to another.
* `History.timeline` — the steps of a history, the oldest first.
* `Document.Consistent` — the invariant of a run.
* `Document.redoTimes` — making several steps again.

## Main results

* `Document.Consistent.turn` — every turn keeps a document consistent.
* `Document.consistent_after` — so every run of a new document does.
* `Document.undoTimes_after` — **undoing finds the texts of the run, and redoing leads back.**
-/

namespace Mend

/-! ### Steps that lead from text to text -/

/-- Steps, the first one first, that lead from one text to another.  Each exchange fits the text it
was made on, and `P` holds of each step and the text it was made on. -/
def Step.Lead (P : Step → Text → Prop) : Text → List Step → Text → Prop
  | t, [], u => t = u
  | t, s :: rest, u => P s t ∧ Replacement.FitsEach t s.replacements ∧
      Lead P (Replacement.replay t s.replacements) rest u

namespace Step

variable {P Q : Step → Text → Prop} {t u : Text} {ss rest : List Step} {s : Step}

theorem lead_append :
    Lead P t (ss ++ rest) u ↔ ∃ v, Lead P t ss v ∧ Lead P v rest u := by
  induction ss generalizing t with
  | nil => simp [Lead]
  | cons s ss ih => simp only [List.cons_append, Lead, ih, exists_and_left, and_assoc]

theorem lead_concat : Lead P t (ss ++ [s]) u ↔ ∃ v, Lead P t ss v ∧ P s v ∧
    Replacement.FitsEach v s.replacements ∧ Replacement.replay v s.replacements = u := by
  simp only [lead_append, Lead]

theorem Lead.imp (h : Lead P t ss u) (hPQ : ∀ s v, P s v → Q s v) : Lead Q t ss u := by
  induction ss generalizing t with
  | nil => exact h
  | cons s ss ih => exact ⟨hPQ _ _ h.1, h.2.1, ih h.2.2⟩

/-- Later steps do not need the earlier ones. -/
theorem Lead.of_suffix (h : Lead P t ss u) (hsuffix : rest <:+ ss) : ∃ v, Lead P v rest u := by
  obtain ⟨front, rfl⟩ := hsuffix
  obtain ⟨v, -, hrest⟩ := lead_append.1 h
  exact ⟨v, hrest⟩

end Step

/-! ### The timeline of a history -/

namespace History

/-- The steps of a history, the oldest first, whether they are undone or not. -/
def timeline (h : History) : List Step := h.done.reverse ++ h.undone

/-- The steps of a history have ascending numbers, all below the next one. -/
structure Numbered (h : History) : Prop where
  /-- Later steps have larger numbers. -/
  ascending : h.timeline.Pairwise fun s s' => s.group < s'.group
  /-- No number is yet to come. -/
  below : ∀ s ∈ h.timeline, s.group < h.nextGroup

/-- A new step gets a place at the end of the timeline. -/
theorem Numbered.push {h : History} (hh : h.Numbered) (rs : List Replacement) (b a : Caret) :
    (h.push rs b a).Numbered := by
  have hkept : (h.push rs b a).timeline.Sublist (h.done.reverse ++ [⟨h.nextGroup, rs, b, a⟩]) := by
    simp only [timeline, undone_push, List.append_nil, ← List.reverse_cons]
    exact (List.take_sublist _ _).reverse
  have hbelow : ∀ s ∈ h.done.reverse, s.group < h.nextGroup := fun s hs =>
    hh.below s (List.mem_append_left _ hs)
  constructor
  · refine List.Pairwise.sublist hkept (List.pairwise_append.2 ⟨?_, List.pairwise_singleton _ _, ?_⟩)
    · exact (List.pairwise_append.1 hh.ascending).1
    · intro s hs s' hs'
      rw [List.mem_singleton.1 hs']
      exact hbelow s hs
  · intro s hs
    rcases List.mem_append.1 (hkept.subset hs) with hs | hs
    · exact Nat.lt_succ_of_lt (hbelow s hs)
    · rw [List.mem_singleton.1 hs]
      exact Nat.lt_succ_self _

/-- Steps with the same timeline and the same next number are numbered alike. -/
theorem Numbered.of_timeline_eq {h h' : History} (hh : h.Numbered)
    (htimeline : h'.timeline = h.timeline) (hnext : h'.nextGroup = h.nextGroup) : h'.Numbered :=
  ⟨htimeline ▸ hh.ascending, htimeline ▸ hnext ▸ hh.below⟩

end History

/-! ### The invariant of a run -/

namespace Document

/-- A document whose history has the text as it stands on its timeline; `P` holds of each step and
the text it was made on. -/
structure Consistent (P : Step → Text → Prop) (d : Document) : Prop where
  /-- The steps that can be undone lead to the text. -/
  back : ∃ t, Step.Lead P t d.history.done.reverse d.text
  /-- The steps that can be redone lead on from it. -/
  ahead : ∃ t, Step.Lead P d.text d.history.undone t
  /-- The steps are numbered in the order they were made. -/
  numbered : d.history.Numbered

theorem consistent_open (P : Step → Text → Prop) (path : String) (t : Text) :
    (Document.open path t).Consistent P :=
  ⟨⟨t, rfl⟩, ⟨t, rfl⟩, ⟨List.Pairwise.nil, by simp [Document.open, History.timeline]⟩⟩

namespace Consistent

variable {P Q : Step → Text → Prop} {d d' : Document}

theorem imp (h : d.Consistent P) (hPQ : ∀ s t, P s t → Q s t) : d.Consistent Q :=
  ⟨h.back.imp fun _ ht => ht.imp hPQ, h.ahead.imp fun _ ht => ht.imp hPQ, h.numbered⟩

theorem of_eq (h : d.Consistent P) (htext : d'.text = d.text) (hhistory : d'.history = d.history) :
    d'.Consistent P :=
  ⟨by rw [htext, hhistory]; exact h.back, by rw [htext, hhistory]; exact h.ahead,
    hhistory ▸ h.numbered⟩

/-- Undoing goes back on the timeline, to the text that the step was made on. -/
theorem undone (h : d.Consistent P) {s : Step} {rest : List Step}
    (hdone : d.history.done = s :: rest)
    (htext : d'.text = Replacement.revert d.text s.replacements)
    (hhistory : d'.history = { d.history with done := rest, undone := s :: d.history.undone }) :
    d'.Consistent P ∧ P s d'.text ∧ Replacement.replay d'.text s.replacements = d.text := by
  obtain ⟨t, ht⟩ := h.back
  obtain ⟨u, hu⟩ := h.ahead
  rw [hdone, List.reverse_cons, Step.lead_concat] at ht
  obtain ⟨v, hv, hP, hfits, hreplay⟩ := ht
  have hv' : d'.text = v := by rw [htext, ← hreplay, Replacement.revert_replay hfits]
  rw [← hv'] at hv hP hfits hreplay
  have htimeline : d'.history.timeline = d.history.timeline := by
    simp [hhistory, History.timeline, hdone]
  refine ⟨⟨⟨t, ?_⟩, ⟨u, ?_⟩, h.numbered.of_timeline_eq htimeline ?_⟩, hP, hreplay⟩
  · rw [hhistory]
    exact hv
  · rw [hhistory]
    exact ⟨hP, hfits, hreplay ▸ hu⟩
  · rw [hhistory]

/-- Redoing goes ahead on the timeline. -/
theorem redone (h : d.Consistent P) {s : Step} {rest : List Step}
    (hundone : d.history.undone = s :: rest)
    (htext : d'.text = Replacement.replay d.text s.replacements)
    (hhistory : d'.history = { d.history with done := s :: d.history.done, undone := rest }) :
    d'.Consistent P := by
  obtain ⟨t, ht⟩ := h.back
  obtain ⟨u, hu⟩ := h.ahead
  rw [hundone] at hu
  obtain ⟨hP, hfits, hrest⟩ := hu
  have htimeline : d'.history.timeline = d.history.timeline := by
    simp [hhistory, History.timeline, hundone]
  refine ⟨⟨t, ?_⟩, ⟨u, ?_⟩, h.numbered.of_timeline_eq htimeline ?_⟩
  · rw [hhistory, List.reverse_cons, Step.lead_concat]
    exact ⟨d.text, ht, hP, hfits, htext.symm⟩
  · rw [hhistory, htext]
    exact hrest
  · rw [hhistory]

/-- A new step gets its place after the text it was made on.  What was ahead is gone, and so may be
the oldest step. -/
theorem committed (h : d.Consistent P) {s : Step} (hrecords : d.Records d' s)
    (hfits : Replacement.FitsEach d.text s.replacements)
    (htext : d'.text = Replacement.replay d.text s.replacements) (hP : P s d.text) :
    d'.Consistent P := by
  obtain ⟨t, ht⟩ := h.back
  -- the history is pushed the parts of the step, which gets its number there
  have hstep : (⟨d.history.nextGroup, s.replacements, s.before, s.after⟩ : Step) = s := by
    rw [← hrecords.group_eq]
  have hall : Step.Lead P t (s :: d.history.done).reverse d'.text := by
    rw [List.reverse_cons, Step.lead_concat]
    exact ⟨d.text, ht, hP, hfits, htext.symm⟩
  refine ⟨?_, ⟨d'.text, ?_⟩, ?_⟩
  · -- dropping the oldest step drops the start of the timeline
    rw [hrecords.history_eq, History.push, hstep]
    exact hall.of_suffix (List.reverse_suffix.2 (List.take_prefix _ _))
  · rw [hrecords.history_eq]
    rfl
  · rw [hrecords.history_eq]
    exact h.numbered.push _ _ _

/-- **Every turn keeps a document consistent**, when what is to hold of the steps still holds of
the old ones, and holds of the one that is committed. -/
theorem turn (h : d.Consistent P) (hturn : d.Turn d') (hPQ : ∀ s t, P s t → Q s t)
    (hnew : ∀ s, d.Records d' s → Q s d.text) : d'.Consistent Q := by
  have h := h.imp hPQ
  cases hturn with
  | advance hadvance =>
    cases hadvance with
    | quiet htext hhistory => exact h.of_eq htext hhistory
    | committed s hrecords hfits htext => exact h.committed hrecords hfits htext (hnew s hrecords)
  | undone s rest hdone htext hhistory => exact (h.undone hdone htext hhistory).1
  | redone s rest hundone htext hhistory => exact h.redone hundone htext hhistory

end Consistent

/-! ### Where the steps of a run come from -/

/-- A step was committed in a run of a document, when its text was `t`. -/
def CommittedAt (start : Document) (es : List DocumentEvent) (s : Step) (t : Text) : Prop :=
  ∃ front e back, es = front ++ e :: back ∧
    (start.after front).Records ((start.after front).handle e) s ∧ (start.after front).text = t

/-- Every run of a new document leaves it consistent: its steps were committed in the run. -/
theorem consistent_after (path : String) (t : Text) (es : List DocumentEvent) :
    ((Document.open path t).after es).Consistent ((Document.open path t).CommittedAt es) := by
  -- on the last event, since the events before it are what later steps refer to
  induction es using List.reverseRecOn with
  | nil => exact consistent_open _ path t
  | append_singleton es e ih =>
    rw [after_concat]
    refine ih.turn (turn_handle _ e) ?_ ?_
    · rintro s u ⟨front, e', back, rfl, hrecords, htext⟩
      exact ⟨front, e', back ++ [e], by simp, hrecords, htext⟩
    · exact fun s hrecords => ⟨es, e, [], rfl, hrecords, rfl⟩

/-- The numbers of the steps only grow. -/
theorem nextGroup_le_of_turn {d d' : Document} (h : d.Turn d') :
    d.history.nextGroup ≤ d'.history.nextGroup := by
  cases h with
  | advance hadvance =>
    cases hadvance with
    | quiet _ hhistory => exact Nat.le_of_eq (by rw [hhistory])
    | committed s hrecords _ _ =>
      rw [hrecords.history_eq]
      exact Nat.le_succ _
  | undone s rest _ _ hhistory => exact Nat.le_of_eq (by rw [hhistory])
  | redone s rest _ _ hhistory => exact Nat.le_of_eq (by rw [hhistory])

theorem nextGroup_le_after (d : Document) (es : List DocumentEvent) :
    d.history.nextGroup ≤ (d.after es).history.nextGroup := by
  induction es generalizing d with
  | nil => exact Nat.le_refl _
  | cons e es ih => exact Nat.le_trans (nextGroup_le_of_turn (turn_handle d e)) (ih _)

/-- A step is not committed twice: of two events that record it, none comes after the other. -/
theorem length_le_of_records {start : Document} {front front' back back' : List DocumentEvent}
    {e e' : DocumentEvent} (heq : front ++ e :: back = front' ++ e' :: back') {s : Step}
    (h : (start.after front).Records ((start.after front).handle e) s)
    (h' : (start.after front').Records ((start.after front').handle e') s) :
    front'.length ≤ front.length := by
  -- otherwise the second event comes when the number is already given away
  by_contra hlt
  have hfirst : front ++ [e] <+: front ++ e :: back := ⟨back, by simp⟩
  have hsecond : front' <+: front ++ e :: back := ⟨e' :: back', heq.symm⟩
  obtain ⟨mid, hmid⟩ := List.prefix_of_prefix_length_le hfirst hsecond (by
    rw [List.length_append, List.length_singleton]
    omega)
  have hnext : s.group < ((start.after front).handle e).history.nextGroup := by
    rw [h.history_eq, h.group_eq]
    exact Nat.lt_succ_self _
  have hlater := nextGroup_le_after ((start.after front).handle e) mid
  rw [← after_concat, ← after_append, hmid, after_concat, ← h'.group_eq] at hlater
  omega

/-- The text a step was committed at is one. -/
theorem CommittedAt.text_eq {start : Document} {es : List DocumentEvent} {s : Step} {t u : Text}
    (ht : start.CommittedAt es s t) (hu : start.CommittedAt es s u) : t = u := by
  obtain ⟨front, e, back, rfl, hrecords, rfl⟩ := ht
  obtain ⟨front', e', back', heq, hrecords', rfl⟩ := hu
  have hlength : front.length = front'.length :=
    Nat.le_antisymm (length_le_of_records heq.symm hrecords' hrecords)
      (length_le_of_records heq hrecords hrecords')
  rw [(List.append_inj heq hlength).1]

/-! ### Undoing and redoing several steps -/

/-- Redoes the given number of steps, or all there are if there are fewer. -/
def redoTimes : Nat → Document → Document
  | 0, d => d
  | n + 1, d =>
    match d.redo? with
    | some d' => redoTimes n d'
    | none => d

section Cycle

variable {P : Step → Text → Prop} {d d' : Document}

theorem undoTimes_of_undo?_eq_some (h : d.undo? = some d') (n : Nat) :
    undoTimes (n + 1) d = undoTimes n d' := by
  rw [undoTimes, h]

theorem redoTimes_of_redo?_eq_some (h : d.redo? = some d') (n : Nat) :
    redoTimes (n + 1) d = redoTimes n d' := by
  rw [redoTimes, h]

/-- To redo one more step is to redo one step afterwards. -/
theorem redoTimes_succ (n : Nat) (d : Document) :
    redoTimes (n + 1) d = (redoTimes n d).redo?.getD (redoTimes n d) := by
  induction n generalizing d with
  | zero =>
    cases h : d.redo? with
    | none => simp only [redoTimes, h, Option.getD_none]
    | some d' => simp only [redoTimes, h, Option.getD_some]
  | succ n ih =>
    cases h : d.redo? with
    | none => simp only [redoTimes, h, Option.getD_none]
    | some d' => rw [redoTimes_of_redo?_eq_some h, redoTimes_of_redo?_eq_some h, ih]

/-- There is a step to undo as long as the depth is not zero. -/
theorem exists_undo?_eq_some (hd : 0 < d.undoDepth) : ∃ d', d.undo? = some d' :=
  Option.ne_none_iff_exists'.1 fun h =>
    List.ne_nil_of_length_pos hd ((undo?_eq_none_iff d).1 h)

theorem undoDepth_of_undo?_eq_some (h : d.undo? = some d') : d.undoDepth = d'.undoDepth + 1 := by
  obtain ⟨s, rest, hdone, -, hhistory⟩ := eq_of_undo?_eq_some h
  simp only [undoDepth, hhistory, hdone, List.length_cons]

/-- Where several steps of a consistent document have been undone, the last of them would be made
next, and the text is the one it was made on. -/
theorem Consistent.undoTimes (h : d.Consistent P) {k : Nat} (hk : k + 1 ≤ d.undoDepth) :
    ∃ s, d.history.done[k]? = some s ∧ P s (undoTimes (k + 1) d).text := by
  induction k generalizing d with
  | zero =>
    obtain ⟨d', hundo⟩ := exists_undo?_eq_some (Nat.lt_of_lt_of_le (Nat.succ_pos _) hk)
    obtain ⟨s, rest, hdone, htext, hhistory⟩ := eq_of_undo?_eq_some hundo
    refine ⟨s, by rw [hdone, List.getElem?_cons_zero], ?_⟩
    rw [undoTimes_of_undo?_eq_some hundo]
    exact (h.undone hdone htext hhistory).2.1
  | succ k ih =>
    obtain ⟨d', hundo⟩ := exists_undo?_eq_some (Nat.lt_of_lt_of_le (Nat.succ_pos _) hk)
    obtain ⟨s, rest, hdone, htext, hhistory⟩ := eq_of_undo?_eq_some hundo
    have hdepth := undoDepth_of_undo?_eq_some hundo
    obtain ⟨s', hs', hP⟩ := ih (h.undone hdone htext hhistory).1 (by omega)
    rw [hhistory] at hs'
    refine ⟨s', ?_, ?_⟩
    · rw [hdone, List.getElem?_cons_succ]
      exact hs'
    · rw [undoTimes_of_undo?_eq_some hundo]
      exact hP

/-- Redoing as many steps as were undone leads back. -/
theorem Consistent.redoTimes_undoTimes (h : d.Consistent P) {k : Nat} (hk : k ≤ d.undoDepth) :
    (redoTimes k (Document.undoTimes k d)).text = d.text ∧
      (redoTimes k (Document.undoTimes k d)).history = d.history := by
  induction k generalizing d with
  | zero => exact ⟨rfl, rfl⟩
  | succ k ih =>
    obtain ⟨d', hundo⟩ := exists_undo?_eq_some (Nat.lt_of_lt_of_le (Nat.succ_pos _) hk)
    obtain ⟨s, rest, hdone, htext, hhistory⟩ := eq_of_undo?_eq_some hundo
    obtain ⟨hconsistent, -, hreplay⟩ := h.undone hdone htext hhistory
    have hdepth := undoDepth_of_undo?_eq_some hundo
    obtain ⟨htext', hhistory'⟩ := ih hconsistent (by omega)
    -- the other `k` steps lead back to the text after the first undo
    rw [redoTimes_succ, undoTimes_of_undo?_eq_some hundo]
    simp only [redo?, hhistory', hhistory, htext', hreplay, Option.getD_some, ← hdone, and_self]

end Cycle

/-- **Undoing finds the texts of the run, and redoing leads back.**  After any run of a new
document, undoing `k` steps gives the text at which the last of them was committed, and redoing `k`
steps after that gives text and history again.  The steps that can be undone were committed in the
order of their numbers, and each of them at one moment of the run. -/
theorem undoTimes_after (path : String) (t : Text) (es : List DocumentEvent) {k : Nat}
    (hk : k ≤ ((Document.open path t).after es).undoDepth) :
    let start := Document.open path t
    let d := start.after es
    (0 < k → ∃ s, d.history.done[k - 1]? = some s ∧
      start.CommittedAt es s (undoTimes k d).text ∧
      ∀ u, start.CommittedAt es s u → u = (undoTimes k d).text) ∧
    (redoTimes k (undoTimes k d)).text = d.text ∧
    (redoTimes k (undoTimes k d)).history = d.history ∧
    d.history.done.Pairwise fun s s' => s'.group < s.group := by
  intro start d
  have hd : d.Consistent (start.CommittedAt es) := consistent_after path t es
  obtain ⟨htext, hhistory⟩ := hd.redoTimes_undoTimes hk
  refine ⟨fun hpos => ?_, htext, hhistory, ?_⟩
  · obtain ⟨k, rfl⟩ := Nat.exists_eq_add_of_lt hpos
    rw [Nat.zero_add] at hk ⊢
    obtain ⟨s, hs, hcommitted⟩ := hd.undoTimes hk
    exact ⟨s, hs, hcommitted, fun u hu => hu.text_eq hcommitted⟩
  · have hascending := (List.pairwise_append.1 hd.numbered.ascending).1
    exact List.pairwise_reverse.1 hascending

/-- A block, one that fails, one that changes nothing, an undo with a redo, and a block of two
exchanges. -/
theorem undoTimes_after_twoBlocks :
    let start := Document.open "a.cpp" ['a', 'b']
    let es : List DocumentEvent :=
      [.block (.ofCommands [.replace ⟨0, 1⟩ ['x']]),
        .block (.ofCommands [.replace ⟨0, 0⟩ ['y'], .cancel]), .block (.ofCommands [.setCursor 1]),
        .undo, .redo, .block (.ofCommands [.replace ⟨2, 2⟩ ['z'], .replace ⟨0, 1⟩ []])]
    let d := start.after es
    2 ≤ d.undoDepth ∧ d.text = ['b', 'z'] ∧ (redoTimes 2 (undoTimes 2 d)).text = ['b', 'z'] ∧
      ∃ s, d.history.done[1]? = some s ∧ start.CommittedAt es s ['a', 'b'] := by
  intro start es d
  have hdepth : 2 ≤ d.undoDepth := by decide
  obtain ⟨hundone, htext, -, -⟩ := undoTimes_after "a.cpp" ['a', 'b'] es hdepth
  obtain ⟨s, hs, hcommitted, -⟩ := hundone (Nat.succ_pos 1)
  have hlast : d.text = ['b', 'z'] := by decide
  have hfirst : (undoTimes 2 d).text = ['a', 'b'] := by decide
  rw [hfirst] at hcommitted
  refine ⟨hdepth, hlast, htext.trans hlast, s, ?_, hcommitted⟩
  simpa only [d, start] using hs

end Document

end Mend
