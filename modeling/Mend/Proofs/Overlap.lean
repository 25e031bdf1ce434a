import Mend.Proofs.OffsetMap

/-!
# Planned edits that keep out of each other's way

The edits of a planned delta ascend, and no character is taken away by two of them.  Whether an edit
may also start among the characters that another one takes away is decided when changes are
recorded: the check looks at the places at which a change puts text.  It knows the anchors of a
change, but a flip with an empty side puts text at that side too, and the check does not look there.
So the edits of a set keep apart just when none of its flips has an empty side inside characters
that are taken away.

## Main definitions

* `Change.bareSides` — the empty sides of a flip, at which it puts text.
* `Change.KeepsClear` — a change puts no text at an anchor inside what another one destroys.
* `Delta.Apart` — no edit starts inside what another one takes away.

## Main results

* `Change.Coherent.keepsClear` — changes that are made together keep clear of each other.
* `ChangeSet.edits_apart_iff` — **edits never take a character twice, and they keep apart when no
  empty side of a flip lies inside characters that are taken away.**
* `ChangeSet.exists_edits_not_apart` — a set that accepts such a flip.
-/

namespace Mend

/-! ### Places at which changes put text -/

namespace Change

/-- The empty sides of a flip whose other side holds something: it puts text there. -/
def bareSides : Change → List Nat
  | .flip s u =>
    if s.IsEmpty then if u.IsEmpty then [] else [s.start]
    else if u.IsEmpty then [u.start] else []
  | _ => []

/-- An exchange that takes nothing away puts text at an anchor of its change, or at a bare side. -/
theorem start_mem_anchors_or_bareSides {t : Text} {i : Nat} {c : Change} {x : Exchange}
    (hx : x ∈ c.exchanges t i) (hempty : x.span.IsEmpty) (hidle : ¬x.IsIdle) :
    x.span.start ∈ c.anchors ∨ x.span.start ∈ c.bareSides := by
  have htext : x.text ≠ [] := fun hnil => hidle ⟨hempty, hnil⟩
  cases c <;> simp only [exchanges, List.mem_cons, List.not_mem_nil, or_false] at hx
  case remove => exact absurd (congrArg Exchange.text hx) htext
  case move =>
    rcases hx with rfl | rfl
    · exact absurd rfl htext
    · simp [anchors]
  case flip s u =>
    -- the text comes from the other side, which is therefore not empty
    have hfull : ∀ v : Span, Text.slice t v ≠ [] → ¬v.IsEmpty := fun v hv hv' => hv <| by
      refine List.eq_nil_of_length_eq_zero ?_
      have : v.stop ≤ v.start := hv'
      rw [Text.length_slice]
      omega
    rcases hx with rfl | rfl
    · simp [bareSides, hfull u htext, show s.IsEmpty from hempty]
    · simp [bareSides, hfull s htext, show u.IsEmpty from hempty]
  all_goals
    subst hx
    simp_all [anchors]

/-- A flip puts the text of its other side at a bare side. -/
theorem exists_exchange_of_mem_bareSides (t : Text) (i : Nat) {c : Change} {o : Nat}
    (ho : o ∈ c.bareSides) : ∃ x ∈ c.exchanges t i, ∃ u ∈ c.extents,
      x.span.start = o ∧ ¬u.IsEmpty ∧ x.text = Text.slice t u := by
  cases c <;> simp only [bareSides, List.not_mem_nil] at ho
  case flip s u =>
    split at ho
    next hs =>
      split at ho
      next => simp at ho
      next hu =>
        exact ⟨_, List.mem_cons_self, u, by simp [extents], (List.mem_singleton.1 ho).symm, hu,
          rfl⟩
    next hs =>
      split at ho
      next hu =>
        exact ⟨_, List.mem_cons_of_mem _ List.mem_cons_self, s, by simp [extents],
          (List.mem_singleton.1 ho).symm, hs, rfl⟩
      next => simp at ho

/-- What a change destroys is taken away by an exchange. -/
theorem exists_exchange_of_mem_destroyed (t : Text) (i : Nat) {c : Change} {u : Span}
    (hu : u ∈ c.destroyed) : ∃ x ∈ c.exchanges t i, x.span = u ∧ ¬u.IsEmpty := by
  cases c <;> simp only [destroyed, List.not_mem_nil] at hu
  case flip =>
    obtain ⟨hmem, hne⟩ := List.mem_filter.1 hu
    have hne : ¬u.IsEmpty := by simpa using hne
    simp only [List.mem_cons, List.not_mem_nil, or_false] at hmem
    rcases hmem with rfl | rfl
    · exact ⟨_, List.mem_cons_self, rfl, hne⟩
    · exact ⟨_, List.mem_cons_of_mem _ List.mem_cons_self, rfl, hne⟩
  all_goals
    split at hu
    next => simp at hu
    next hne =>
      rw [List.mem_singleton] at hu
      subst hu
      exact ⟨_, List.mem_cons_self, rfl, hne⟩

/-! ### What the check looks at -/

/-- A change puts no text at an anchor inside what the other one destroys. -/
def KeepsClear (c d : Change) : Prop := ∀ o ∈ c.anchors, ∀ u ∈ d.destroyed, ¬u.StrictlyHolds o

/-- Changes that do not contradict each other keep clear of each other. -/
theorem keepsClear_of_conflict?_eq_none {c d : Change} (h : c.conflict? d = none) :
    d.KeepsClear c ∧ c.KeepsClear d := by
  simp only [conflict?, Option.orElse_eq_orElse, Option.orElse_eq_or, Option.or_eq_none_iff,
    List.findSome?_eq_none_iff, Option.map_eq_none_iff, List.find?_eq_none,
    decide_eq_true_eq] at h
  exact h.2

/-- A change that does not contradict itself keeps clear of itself. -/
theorem keepsClear_of_selfConflict?_eq_none {c : Change} (h : c.selfConflict? = none) :
    c.KeepsClear c := by
  cases c <;> simp_all [KeepsClear, anchors, destroyed, selfConflict?]

/-- **Coherent changes keep clear of each other**, in whatever order they were recorded. -/
theorem Coherent.keepsClear {cs : List Change} (h : Coherent cs) {c d : Change} (hc : c ∈ cs)
    (hd : d ∈ cs) : c.KeepsClear d :=
  List.Pairwise.forall_of_forall_of_flip
    (fun c hc => keepsClear_of_selfConflict?_eq_none (h.sound c hc).2)
    (h.compatible.imp fun hcd => (keepsClear_of_conflict?_eq_none hcd).2)
    (h.compatible.imp fun hcd => (keepsClear_of_conflict?_eq_none hcd).1) hc hd

end Change

/-! ### Planned edits -/

/-- No edit starts inside the characters that another one takes away. -/
def Delta.Apart (δ : Delta) : Prop :=
  ∀ e ∈ δ.edits, ∀ f ∈ δ.edits, ¬(e.start < f.start ∧ f.start < e.reach)

namespace ChangeSet

variable {s : ChangeSet} {t : Text} {δ : Delta}

/-- The edits of a planned delta start and stop where the exchanges do. -/
theorem exists_exchange_of_mem_edits (h : s.plan t = .ok δ) {e : DeltaEdit} (he : e ∈ δ.edits) :
    ∃ x ∈ s.exchanges t, e.start = x.span.start ∧ e.reach = x.span.stop := by
  rw [edits_eq h] at he
  obtain ⟨x, hx, rfl⟩ := List.mem_map.1 he
  exact ⟨x, hx, start_linkMove _ x, reach_linkMove h _ hx⟩

theorem exists_edit_of_mem_exchanges (h : s.plan t = .ok δ) {x : Exchange}
    (hx : x ∈ s.exchanges t) :
    ∃ e ∈ δ.edits, e.start = x.span.start ∧ e.reach = x.span.stop := by
  rw [edits_eq h]
  exact ⟨_, List.mem_map_of_mem hx, start_linkMove _ x, reach_linkMove h _ hx⟩

/-- Two exchanges of a set, one of which starts before the other, take no character twice. -/
theorem not_overlaps_of_start_lt {x y : Exchange} (hx : x ∈ s.exchanges t)
    (hy : y ∈ s.exchanges t) (hlt : x.span.start < y.span.start) (hxne : ¬x.span.IsEmpty)
    (hyne : ¬y.span.IsEmpty) : ¬x.span.Overlaps y.span := by
  have hpairs : (s.exchanges t).Pairwise fun x y => x.span.start < y.span.start →
      ¬x.span.IsEmpty → ¬y.span.IsEmpty → ¬x.span.Overlaps y.span := by
    refine (pairwise_not_overlaps_exchanges s t).imp ?_
    intro x y h _
    exact h
  -- the exchanges ascend, so none that starts before another comes after it
  exact hpairs.forall_of_forall_of_flip (fun x _ hlt => absurd hlt (Nat.lt_irrefl _))
    ((pairwise_start_exchanges s t).imp fun hle hlt => absurd hlt (Nat.not_lt.2 hle)) hx hy
    hlt hxne hyne

/-- An edit that starts inside what another one takes away is the bare side of a flip. -/
theorem exists_bareSide_of_inside (h : s.plan t = .ok δ) {e f : DeltaEdit} (he : e ∈ δ.edits)
    (hf : f ∈ δ.edits) (hlt : e.start < f.start) (hinside : f.start < e.reach) :
    ∃ c ∈ s.changes, ∃ d ∈ s.changes, ∃ u ∈ d.destroyed, u.StrictlyHolds f.start ∧
      f.start ∈ c.bareSides := by
  obtain ⟨x, hx, hstart, hreach⟩ := exists_exchange_of_mem_edits h he
  obtain ⟨y, hy, hstart', -⟩ := exists_exchange_of_mem_edits h hf
  rw [hstart, hstart'] at hlt
  rw [hreach, hstart'] at hinside
  have hxne : ¬x.span.IsEmpty := fun hempty => by
    have : x.span.stop ≤ x.span.start := hempty
    omega
  obtain ⟨⟨i, d, hi, hxd⟩, -⟩ := mem_exchanges_iff.1 hx
  obtain ⟨⟨j, c, hj, hyc⟩, hidle⟩ := mem_exchanges_iff.1 hy
  -- otherwise the two would share the character at the start of the later one
  have hyempty : y.span.IsEmpty := by
    by_contra hyne
    refine not_overlaps_of_start_lt hx hy hlt hxne hyne ⟨?_, hinside⟩
    simp only [Span.IsEmpty] at hyne
    omega
  have hc := List.mem_of_getElem? hj
  have hd := List.mem_of_getElem? hi
  have hu := Change.span_mem_destroyed hxd hxne
  rw [hstart']
  refine ⟨c, hc, d, hd, x.span, hu, ⟨hlt, hinside⟩, ?_⟩
  rcases Change.start_mem_anchors_or_bareSides hyc hyempty hidle with hanchor | hbare
  · exact absurd ⟨hlt, hinside⟩ (s.coherent.keepsClear hc hd _ hanchor _ hu)
  · exact hbare

/-- A bare side of a flip inside characters that are taken away makes an edit that starts there. -/
theorem exists_inside_of_bareSide (h : s.plan t = .ok δ) {c d : Change} (hc : c ∈ s.changes)
    (hd : d ∈ s.changes) {o : Nat} (ho : o ∈ c.bareSides) {u : Span} (hu : u ∈ d.destroyed)
    (hinside : u.StrictlyHolds o) :
    ∃ e ∈ δ.edits, ∃ f ∈ δ.edits, f.start = o ∧ e.start < f.start ∧ f.start < e.reach := by
  obtain ⟨i, hi⟩ := List.mem_iff_getElem?.1 hc
  obtain ⟨j, hj⟩ := List.mem_iff_getElem?.1 hd
  obtain ⟨y, hy, v, hv, hstart, hvne, htext⟩ := Change.exists_exchange_of_mem_bareSides t i ho
  obtain ⟨x, hx, hspan, hne⟩ := Change.exists_exchange_of_mem_destroyed t j hu
  -- the other side of the flip lies in the text, so what is put down is not nothing
  have hyidle : ¬y.IsIdle := by
    rintro ⟨-, hnil⟩
    have hin := stop_le_length h hc hv
    have hlen := Text.length_slice t v
    rw [← htext, hnil, List.length_nil] at hlen
    simp only [Span.IsEmpty] at hvne
    omega
  have hxidle : ¬x.IsIdle := fun hidle => hne (hspan ▸ hidle.1)
  obtain ⟨e, he, hes, her⟩ :=
    exists_edit_of_mem_exchanges h (mem_exchanges_iff.2 ⟨⟨j, d, hj, hx⟩, hxidle⟩)
  obtain ⟨f, hf, hfs, -⟩ :=
    exists_edit_of_mem_exchanges h (mem_exchanges_iff.2 ⟨⟨i, c, hi, hy⟩, hyidle⟩)
  refine ⟨e, he, f, hf, hfs.trans hstart, ?_, ?_⟩
  · rw [hes, hfs, hstart, hspan]
    exact hinside.1
  · rw [her, hfs, hstart, hspan]
    exact hinside.2

/-- **The edits of a planned delta ascend and take no character twice**, whatever was recorded,
refused or cleared before.  No anchor lies inside characters that are taken away, and the edits keep
apart just when no bare side of a flip does. -/
theorem edits_apart_iff (h : s.plan t = .ok δ) :
    (δ.edits.Pairwise fun e f => e.start ≤ f.start) ∧
    (δ.edits.Pairwise fun e f => e.deleted ≠ [] → f.deleted ≠ [] → e.reach ≤ f.start) ∧
    (∀ c ∈ s.changes, ∀ d ∈ s.changes, c.KeepsClear d) ∧
    (δ.Apart ↔ ∀ c ∈ s.changes, ∀ d ∈ s.changes, ∀ o ∈ c.bareSides, ∀ u ∈ d.destroyed,
      ¬u.StrictlyHolds o) := by
  have hfits := fits_of_plan_eq_ok h
  refine ⟨hfits.ascending, hfits.clear.imp fun hclear _ hdeleted => hclear hdeleted,
    fun c hc d hd => s.coherent.keepsClear hc hd, ?_, ?_⟩
  · intro hapart c hc d hd o ho u hu hinside
    obtain ⟨e, he, f, hf, -, hef⟩ := exists_inside_of_bareSide h hc hd ho hu hinside
    exact hapart e he f hf hef
  · rintro hbare e he f hf ⟨hlt, hinside⟩
    obtain ⟨c, hc, d, hd, u, hu, hstrict, hmem⟩ := exists_bareSide_of_inside h he hf hlt hinside
    exact hbare c hc d hd _ hmem u hu hstrict

/-- Two words swap places while the space between them goes: the edits touch and keep apart. -/
theorem edits_apart_iff_swap :
    let s := empty.recordAll [.flip ⟨0, 2⟩ ⟨3, 5⟩, .remove ⟨2, 3⟩]
    let t : Text := ['a', 'b', ' ', 'c', 'd']
    ∃ δ, s.plan t = .ok δ ∧ δ.Apart := by
  intro s t
  have hplan : s.plan t = .ok (.ofExchanges t (s.exchanges t)) := by decide
  exact ⟨_, hplan, (edits_apart_iff hplan).2.2.2.2 (by decide)⟩

/-- A flip with an empty side inside characters that are taken away is accepted, and its new text
then starts inside the deletion.  A replacement of the same empty span is refused. -/
theorem exists_edits_not_apart :
    let s := empty.recordAll [.remove ⟨1, 4⟩, .flip ⟨2, 2⟩ ⟨5, 6⟩]
    s.refusal = none ∧ (∃ δ, s.plan ['a', 'b', 'c', 'd', 'e', 'f'] = .ok δ ∧ ¬δ.Apart) ∧
      (empty.recordAll [.remove ⟨1, 4⟩, .replace ⟨2, 2⟩ ['f']]).refusal
        = some (.overlap ⟨1, 4⟩ (.point 2)) := by
  refine ⟨by decide, ⟨_, rfl, fun hapart => ?_⟩, by decide⟩
  exact hapart _ List.mem_cons_self _ (List.mem_cons_of_mem _ List.mem_cons_self) (by decide)

end ChangeSet

end Mend
