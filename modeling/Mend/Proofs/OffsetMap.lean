import Mend.Proofs.LiveDelta
import Mend.Proofs.Weave

/-!
# Offsets through a planned delta

An offset is mapped by a walk over the edits that adds up how much they grow the text.  The walk is
told here a second time, with the cursors of the loop that writes the text after: how far the text
before is dealt with, and how much has been written.  In this form it needs no signed numbers, and
what stands at the mapped offset is read off the text that the loop has written.

Offsets are 64-bit counts, so the two walks agree on texts that such offsets can address.

## Main definitions

* `Delta.placeFrom` — the walk with the cursors of the text after.
* `Change.HasMove` — a change that moves characters.

## Main results

* `Delta.mapFrom_eq_placeFrom` — both walks come to the same place.
* `Delta.getElem?_placeFrom` — a character that stays is found at its mapped offset.
* `Delta.placeFrom_of_mem_zip` — a character that goes is mapped to what took its place.
* `ChangeSet.mapOffset_exact` — **mapping an offset through a planned delta is exact.**
-/

namespace Mend

namespace Delta

/-! ### The walk in the text after -/

/-- Where an offset comes to lie, when `done` characters of the text before are accounted for and
`written` characters of the text after are there. -/
def placeFrom (done written o : Nat) : List DeltaEdit → Nat
  | [] => written + (o - done)
  | e :: rest =>
    if o < e.start then written + (o - done)
    else if o < e.reach then e.movedTo.getD (written + (e.start - done))
    else placeFrom (max done e.reach) (written + (e.start - done) + e.inserted.length) o rest

variable {t : Text} {done written o : Nat} {e : DeltaEdit} {es : List DeltaEdit}

/-- An offset moved by the difference of two cursors, when the largest offset is not passed. -/
theorem shiftOffset_eq (hdone : done ≤ o) (hlast : written + (o - done) ≤ lastOffset) :
    shiftOffset o ((written : Int) - done) = written + (o - done) := by
  rw [shiftOffset]
  omega

/-- The characters that edits leave before an offset are among those written. -/
theorem sub_le_length_applyFrom (ho : o ≤ t.length) (hstart : o ≤ e.start) :
    o - done ≤ (applyFrom t done (e :: es)).length := by
  simp only [applyFrom, List.length_append, Text.length_slice]
  omega

/-- What the edits up to the next one have added is the distance of the cursors behind it. -/
theorem ClearFrom.add_growth (h : ClearFrom t done (e :: es)) (written : Nat) :
    ((written : Int) - done) + e.growth
      = ((written + (e.start - done) + e.inserted.length : Nat) : Int)
        - (max done e.reach : Nat) := by
  have hpoint := h.head_ahead
  rw [DeltaEdit.growth, DeltaEdit.reach]
  omega

/-- **Both walks come to the same place**, on texts that offsets can address. -/
theorem mapFrom_eq_placeFrom (h : ClearFrom t done es) (hdone : done ≤ o) (ho : o ≤ t.length)
    (ht : t.length ≤ lastOffset) (hout : written + (applyFrom t done es).length ≤ lastOffset) :
    mapFrom o ((written : Int) - done) es = placeFrom done written o es := by
  induction es generalizing done written with
  | nil =>
    simp only [applyFrom_nil, List.length_drop] at hout
    rw [mapFrom_nil, placeFrom, shiftOffset_eq hdone (by omega)]
  | cons e es ih =>
    have hreach : e.reach ≤ t.length := h.reach_le
    have hstop : e.stop = e.reach := by
      rw [DeltaEdit.stop]
      omega
    rw [mapFrom, placeFrom, hstop]
    split
    next hlt =>
      have hgap : o - done ≤ (applyFrom t done (e :: es)).length :=
        sub_le_length_applyFrom ho (Nat.le_of_lt hlt)
      exact shiftOffset_eq hdone (by omega)
    next hge =>
      have hstart : e.start ≤ e.reach := Nat.le_add_right _ _
      split
      next hlt =>
        -- the edit takes a character away, so it does not start before the cursor
        have hahead : done ≤ e.start := by
          have hlen : e.reach = e.start + e.deleted.length := rfl
          have := h.head_ahead
          omega
        have hgap : e.start - done ≤ (applyFrom t done (e :: es)).length :=
          sub_le_length_applyFrom (Nat.le_trans hstart hreach) (Nat.le_refl e.start)
        rw [shiftOffset_eq hahead (by omega)]
      next hpast =>
        rw [h.add_growth written]
        refine ih h.tail (by omega) ?_
        simp only [applyFrom, List.length_append, Text.length_slice] at hout
        omega

/-! ### What stands at a mapped offset -/

/-- **A character that stays is found at its mapped offset.** -/
theorem getElem?_placeFrom {out : Text} (h : ClearFrom t done es) (hdone : done ≤ o)
    (ho : o < t.length) (hkept : ¬Covers es o) :
    (out ++ applyFrom t done es)[placeFrom done out.length o es]? = t[o]? := by
  induction es generalizing done out with
  | nil =>
    rw [applyFrom_nil, placeFrom, List.getElem?_append_right (Nat.le_add_right _ _),
      Nat.add_sub_cancel_left, List.getElem?_drop, Nat.add_sub_cancel' hdone]
  | cons e es ih =>
    rw [covers_cons, not_or] at hkept
    obtain ⟨hhead, hrest⟩ := hkept
    rw [placeFrom, applyFrom]
    split
    next hlt =>
      -- the character is copied with the gap before the edit
      have hgap : o - done < (Text.slice t ⟨done, e.start⟩).length := by
        rw [Text.length_slice]
        simp only
        omega
      rw [List.getElem?_append_right (Nat.le_add_right _ _), Nat.add_sub_cancel_left,
        List.getElem?_append_left hgap, Text.slice, List.getElem?_drop,
        Nat.add_sub_cancel' hdone, List.getElem?_take_of_lt hlt]
    next hge =>
      rw [if_neg (by omega), ← List.append_assoc, ← List.append_assoc]
      have hreach : e.reach ≤ t.length := h.reach_le
      have hlen : (out ++ Text.slice t ⟨done, e.start⟩ ++ e.inserted).length
          = out.length + (e.start - done) + e.inserted.length := by
        have hstart : e.start ≤ e.reach := Nat.le_add_right _ _
        simp only [List.length_append, Text.length_slice]
        omega
      rw [← hlen]
      exact ih h.tail (by omega) hrest

/-- **A character that goes is mapped to what took its place**, unless it was moved: then it is
mapped to the place noted at its edit. -/
theorem placeFrom_of_mem_zip (hasc : es.Pairwise fun e f => e.start ≤ f.start)
    (hclear : es.Pairwise fun e f => f.deleted ≠ [] → e.reach ≤ f.start) {p : DeltaEdit × Span}
    (hp : p ∈ es.zip (afterSpansFrom done written es)) (hstart : p.1.start ≤ o)
    (hreach : o < p.1.reach) : placeFrom done written o es = p.1.movedTo.getD p.2.start := by
  induction es generalizing done written with
  | nil => simp at hp
  | cons e es ih =>
    obtain ⟨hhead, htail⟩ := List.pairwise_cons.1 hasc
    obtain ⟨hbefore, hclear⟩ := List.pairwise_cons.1 hclear
    rw [afterSpansFrom, List.zip_cons_cons] at hp
    rcases List.mem_cons.1 hp with rfl | hp
    · rw [placeFrom, if_neg (Nat.not_lt.2 hstart), if_pos hreach]
    · -- the edits before it have stopped where it starts
      have hmem : p.1 ∈ es := (List.of_mem_zip hp).1
      have hne : p.1.deleted ≠ [] := by
        intro hnil
        have hlen : p.1.reach = p.1.start + p.1.deleted.length := rfl
        simp only [hnil, List.length_nil] at hlen
        omega
      have := hhead _ hmem
      have := hbefore _ hmem hne
      rw [placeFrom, if_neg (by omega), if_neg (by omega)]
      exact ih htail hclear hp

/-- The end of the text is mapped to the end of the text after. -/
theorem placeFrom_length (h : ClearFrom t done es) :
    placeFrom done written t.length es = written + (applyFrom t done es).length := by
  induction es generalizing done written with
  | nil => rw [placeFrom, applyFrom_nil, List.length_drop]
  | cons e es ih =>
    have hreach : e.reach ≤ t.length := h.reach_le
    have hstart : e.start ≤ e.reach := Nat.le_add_right _ _
    rw [placeFrom, if_neg (by omega), if_neg (by omega), ih h.tail]
    simp only [applyFrom, List.length_append, Text.length_slice]
    omega

/-! ### Order -/

/-- An offset that the edits have not passed lies behind what is written. -/
theorem le_placeFrom (hdone : done ≤ o) (hmoved : ∀ e ∈ es, e.movedTo = none) :
    written ≤ placeFrom done written o es := by
  induction es generalizing done written with
  | nil => exact Nat.le_add_right _ _
  | cons e es ih =>
    rw [placeFrom]
    split
    · exact Nat.le_add_right _ _
    · split
      · rw [hmoved e List.mem_cons_self]
        exact Nat.le_add_right _ _
      · have hbehind : written + (e.start - done) + e.inserted.length ≤ placeFrom
            (max done e.reach) (written + (e.start - done) + e.inserted.length) o es :=
          ih (by omega) fun f hf => hmoved f (List.mem_cons_of_mem _ hf)
        omega

/-- When nothing was moved, offsets keep their order. -/
theorem placeFrom_mono {o' : Nat} (hdone : done ≤ o) (ho : o ≤ o')
    (hmoved : ∀ e ∈ es, e.movedTo = none) :
    placeFrom done written o es ≤ placeFrom done written o' es := by
  induction es generalizing done written with
  | nil =>
    rw [placeFrom, placeFrom]
    omega
  | cons e es ih =>
    have hrest : ∀ f ∈ es, f.movedTo = none := fun f hf => hmoved f (List.mem_cons_of_mem _ hf)
    have hnone : e.movedTo = none := hmoved e List.mem_cons_self
    rw [placeFrom, placeFrom, hnone, Option.getD_none]
    have hstart : e.start ≤ e.reach := Nat.le_add_right _ _
    by_cases hpast : e.reach ≤ o
    · rw [if_neg (by omega), if_neg (by omega), if_neg (by omega), if_neg (by omega)]
      exact ih (by omega) hrest
    · -- the smaller offset is not past the edit, and one past it lies behind its new text
      have hbehind : e.reach ≤ o' → written + (e.start - done) + e.inserted.length
          ≤ placeFrom (max done e.reach) (written + (e.start - done) + e.inserted.length) o' es :=
        fun hpast' => le_placeFrom (by omega) hrest
      split_ifs <;> omega

end Delta

/-! ### Planned edits and their exchanges -/

/-- A change that moves characters. -/
def Change.HasMove : Change → Prop
  | .move _ _ => True
  | _ => False

/-- The exchanges of a change know its position in the set. -/
theorem Change.change_of_mem_exchanges {t : Text} {i : Nat} {c : Change} {x : Exchange}
    (hx : x ∈ c.exchanges t i) : x.change = i := by
  cases c <;> simp only [exchanges, List.mem_cons, List.not_mem_nil, or_false] at hx
  case move => rcases hx with rfl | rfl <;> rfl
  case flip => rcases hx with rfl | rfl <;> rfl
  all_goals subst hx; rfl

/-- The exchanges of changes are those of the change at each position. -/
theorem Exchange.mem_ofChanges_iff {t : Text} {i : Nat} {cs : List Change} {x : Exchange} :
    x ∈ ofChanges t i cs ↔
      ∃ (j : Nat) (c : Change), cs[j]? = some c ∧ x ∈ c.exchanges t (i + j) := by
  induction cs generalizing i with
  | nil => simp [ofChanges]
  | cons c cs ih =>
    rw [ofChanges, List.mem_append, ih]
    constructor
    · rintro (hx | ⟨j, d, hd, hx⟩)
      · exact ⟨0, c, rfl, hx⟩
      · exact ⟨j + 1, d, hd, by rwa [Nat.add_assoc, Nat.add_comm 1 j] at hx⟩
    · rintro ⟨j, d, hd, hx⟩
      cases j with
      | zero =>
        cases hd
        exact .inl hx
      | succ j => exact .inr ⟨j, d, hd, by rwa [Nat.add_assoc, Nat.add_comm 1 j]⟩

namespace Delta

/-- Where new characters lie does not depend on the notes of moves. -/
theorem afterSpansFrom_map_unlink (done written : Nat) (es : List DeltaEdit) :
    afterSpansFrom done written (es.map DeltaEdit.unlink) = afterSpansFrom done written es := by
  induction es generalizing done written with
  | nil => rfl
  | cons e es ih => simp [afterSpansFrom, ih]

/-- What edits take away does not depend on the notes of moves. -/
theorem covers_map_unlink {es : List DeltaEdit} {o : Nat} :
    Covers (es.map DeltaEdit.unlink) o ↔ Covers es o := by
  simp [Covers]

end Delta

namespace ChangeSet

variable {s : ChangeSet} {t : Text} {δ : Delta}

/-- An exchange of a set is one of the change at its position, unless that one is idle. -/
theorem mem_exchanges_iff {x : Exchange} :
    x ∈ s.exchanges t ↔
      (∃ (i : Nat) (c : Change), s.changes[i]? = some c ∧ x ∈ c.exchanges t i) ∧ ¬x.IsIdle := by
  rw [exchanges, List.mem_filter, (Exchange.sort_perm _).mem_iff, Exchange.mem_ofChanges_iff]
  simp

/-- The spans of a planned delta are those of its exchanges. -/
theorem afterSpans_eq (h : s.plan t = .ok δ) :
    δ.afterSpans = Delta.afterSpansFrom 0 0 ((s.exchanges t).map (Exchange.toEdit t)) := by
  rw [Delta.afterSpans, ← Delta.afterSpansFrom_map_unlink, eq_ofExchanges_of_plan_eq_ok h,
    Delta.map_unlink_ofExchanges]

/-- The edits of a planned delta are its exchanges, with the notes of moves. -/
theorem edits_eq (h : s.plan t = .ok δ) : δ.edits = (s.exchanges t).map fun x =>
    (x.toEdit t).linkMove ((s.exchanges t).zip δ.afterSpans) x := by
  have hzip : ∀ xs : List Exchange, xs.zip (xs.map (Exchange.toEdit t))
      = xs.map fun x => (x, x.toEdit t) := by
    intro xs
    rw [← List.map_prod_left_eq_zip]
  rw [afterSpans_eq h]
  conv_lhs => rw [eq_ofExchanges_of_plan_eq_ok h]
  rw [Delta.ofExchanges]
  dsimp only
  rw [hzip, List.map_map]
  rfl

/-- Every exchange of a planned delta has its span in the text after. -/
theorem exists_mem_zip_afterSpans (h : s.plan t = .ok δ) {x : Exchange} (hx : x ∈ s.exchanges t) :
    ∃ u, (x, u) ∈ (s.exchanges t).zip δ.afterSpans := by
  obtain ⟨k, hk, rfl⟩ := List.mem_iff_getElem.1 hx
  have hlen : δ.afterSpans.length = (s.exchanges t).length := by
    rw [afterSpans_eq h, Delta.length_afterSpansFrom, List.length_map]
  refine ⟨δ.afterSpans[k], List.mem_iff_getElem.2 ⟨k, ?_, ?_⟩⟩
  · rw [List.length_zip, hlen, Nat.min_self]
    exact hk
  · rw [List.getElem_zip]

/-- The edit of an exchange lies beside its span. -/
theorem mem_zip_edits (h : s.plan t = .ok δ) {p : Exchange × Span}
    (hp : p ∈ (s.exchanges t).zip δ.afterSpans) :
    ((p.1.toEdit t).linkMove ((s.exchanges t).zip δ.afterSpans) p.1, p.2)
      ∈ δ.edits.zip δ.afterSpans := by
  rw [edits_eq h, List.zip_map_left]
  exact List.mem_map.2 ⟨p, hp, rfl⟩

end ChangeSet

/-! ### Moved characters -/

/-- The exchange by which the change at a position of its set takes moved characters away. -/
def Exchange.takeMoved (i : Nat) (u : Span) : Exchange :=
  { change := i, span := u, text := [], part := some .source }

/-- The exchange by which the change at a position of its set puts moved characters down. -/
def Exchange.putMoved (t : Text) (i : Nat) (u : Span) (o : Nat) : Exchange :=
  { change := i, span := .point o, text := Text.slice t u, part := some .target }

namespace ChangeSet

variable {s : ChangeSet} {t : Text} {δ : Delta} {i : Nat} {u : Span} {o : Nat}

/-- Only the target of a move puts moved characters down. -/
theorem eq_putMoved (hi : s.changes[i]? = some (.move u o)) {x : Exchange}
    (hx : x ∈ s.exchanges t) (hchange : x.change = i) (hpart : x.part = some .target) :
    x = .putMoved t i u o := by
  obtain ⟨⟨j, c, hj, hxc⟩, -⟩ := mem_exchanges_iff.1 hx
  have hji : j = i := by rw [← hchange, Change.change_of_mem_exchanges hxc]
  subst hji
  rw [hi, Option.some.injEq] at hj
  subst hj
  simp only [Change.exchanges, List.mem_cons, List.not_mem_nil, or_false] at hxc
  rcases hxc with rfl | rfl
  · cases hpart
  · rfl

/-- Where moved characters are taken away, it is noted where they stand again. -/
theorem exists_movedTo_eq (h : s.plan t = .ok δ) (hi : s.changes[i]? = some (.move u o))
    (hu : ¬u.IsEmpty) : ∃ v, (.putMoved t i u o, v) ∈ (s.exchanges t).zip δ.afterSpans ∧
      (((Exchange.takeMoved i u).toEdit t).linkMove ((s.exchanges t).zip δ.afterSpans)
        (.takeMoved i u)).movedTo = some v.start := by
  have hmem : Exchange.putMoved t i u o ∈ s.exchanges t := by
    refine mem_exchanges_iff.2 ⟨⟨i, _, hi, List.mem_cons_of_mem _ List.mem_cons_self⟩, ?_⟩
    -- what is moved is in the text, so the target is not idle
    rintro ⟨-, hnil⟩
    have hin : u.stop ≤ t.length :=
      stop_le_length h (List.mem_of_getElem? hi) List.mem_cons_self
    have hlen := Text.length_slice t u
    rw [show Text.slice t u = [] from hnil, List.length_nil] at hlen
    simp only [Span.IsEmpty] at hu
    omega
  obtain ⟨v, hv⟩ := exists_mem_zip_afterSpans h hmem
  -- the search for the target finds an exchange of this change that puts characters down
  let isTarget (p : Exchange × Span) : Bool := p.1.change == i && p.1.part == some .target
  have hfound : (((s.exchanges t).zip δ.afterSpans).find? isTarget).isSome := by
    rw [List.find?_isSome]
    exact ⟨_, hv, by simp [isTarget, Exchange.putMoved]⟩
  obtain ⟨⟨x, w⟩, hxw⟩ := Option.isSome_iff_exists.1 hfound
  have hprop : x.change = i ∧ x.part = some .target := by
    simpa [isTarget] using List.find?_some hxw
  have hx := List.mem_of_find?_eq_some hxw
  have heq : x = .putMoved t i u o := eq_putMoved hi (List.of_mem_zip hx).1 hprop.1 hprop.2
  subst heq
  refine ⟨w, hx, ?_⟩
  rw [DeltaEdit.linkMove, if_pos (show (Exchange.takeMoved i u).part = some .source from rfl)]
  exact congrArg (Option.map (·.2.start)) hxw

/-- An exchange that takes no moved characters away has no note. -/
theorem movedTo_linkMove_eq_none {placed : List (Exchange × Span)} {x : Exchange}
    (hx : x.part ≠ some .source) : ((x.toEdit t).linkMove placed x).movedTo = none := by
  rw [DeltaEdit.linkMove, if_neg hx]
  rfl

/-- Only a move takes moved characters away. -/
theorem part_ne_source {c : Change} (hc : ¬c.HasMove) {x : Exchange}
    (hx : x ∈ c.exchanges t i) : x.part ≠ some .source := by
  cases c <;> simp only [Change.exchanges, List.mem_cons, List.not_mem_nil, or_false] at hx
  case move => exact absurd trivial hc
  case flip => rcases hx with rfl | rfl <;> simp
  all_goals subst hx; simp

/-! ### Mapped offsets -/

/-- On texts that offsets can address, the offset mapped through a planned delta is told by the
cursors of the text after. -/
theorem mapOffset_eq (h : s.plan t = .ok δ) (ht : t.length ≤ lastOffset)
    (hout : (δ.applyTo t).length ≤ lastOffset) (ho : o ≤ t.length) :
    δ.mapOffset o = Delta.placeFrom 0 0 o δ.edits :=
  Delta.mapFrom_eq_placeFrom (fits_of_plan_eq_ok h).clearFrom (Nat.zero_le _) ho ht
    (by rwa [Nat.zero_add])

/-- The edit of an exchange starts where the exchange does, and goes as far. -/
theorem start_linkMove (placed : List (Exchange × Span)) (x : Exchange) :
    ((x.toEdit t).linkMove placed x).start = x.span.start := by
  rw [← DeltaEdit.start_unlink, DeltaEdit.unlink_linkMove]
  rfl

theorem reach_linkMove (h : s.plan t = .ok δ) (placed : List (Exchange × Span)) {x : Exchange}
    (hx : x ∈ s.exchanges t) : ((x.toEdit t).linkMove placed x).reach = x.span.stop := by
  obtain ⟨c, hc, hext⟩ := exists_span_mem_extents hx
  rw [← DeltaEdit.reach_unlink, DeltaEdit.unlink_linkMove, DeltaEdit.reach_unlink,
    Exchange.reach_toEdit (s.coherent.start_le_stop hc hext) (stop_le_length h hc hext)]

/-- An offset among the characters that an exchange takes away is mapped to the new characters of
the exchange, unless the characters were moved. -/
theorem mapOffset_of_holds (h : s.plan t = .ok δ) (ht : t.length ≤ lastOffset)
    (hout : (δ.applyTo t).length ≤ lastOffset) {p : Exchange × Span}
    (hp : p ∈ (s.exchanges t).zip δ.afterSpans) (ho : p.1.span.Holds o) :
    δ.mapOffset o = ((p.1.toEdit t).linkMove ((s.exchanges t).zip δ.afterSpans) p.1).movedTo.getD
      p.2.start := by
  have hfits := fits_of_plan_eq_ok h
  have hx := (List.of_mem_zip hp).1
  obtain ⟨c, hc, hext⟩ := exists_span_mem_extents hx
  have hin := stop_le_length h hc hext
  obtain ⟨hstart, hstop⟩ := ho
  rw [mapOffset_eq h ht hout (by omega)]
  refine Delta.placeFrom_of_mem_zip hfits.ascending hfits.clear (mem_zip_edits h hp) ?_ ?_
  · rwa [start_linkMove]
  · rwa [reach_linkMove h _ hx]

/-- The new characters of an exchange stand in its span of the text after. -/
theorem slice_applyTo (h : s.plan t = .ok δ) {p : Exchange × Span}
    (hp : p ∈ (s.exchanges t).zip δ.afterSpans) : Text.slice (δ.applyTo t) p.2 = p.1.text := by
  have hfits := fits_of_plan_eq_ok h
  have hin : ∀ e ∈ δ.edits, e.start ≤ t.length := fun e he =>
    Nat.le_trans (Nat.le_add_right _ _) (hfits.within e he)
  obtain ⟨front, back, happly, hspan⟩ :=
    Delta.exists_applyFrom_eq_append t [] 0 hin (mem_zip_edits h hp)
  have hinserted : ((p.1.toEdit t).linkMove ((s.exchanges t).zip δ.afterSpans) p.1).inserted
      = p.1.text := by
    rw [← DeltaEdit.inserted_unlink, DeltaEdit.unlink_linkMove]
    rfl
  rw [hinserted] at happly hspan
  rw [Delta.applyTo, ← List.nil_append (Delta.applyFrom t 0 δ.edits), happly,
    show p.2 = _ from hspan, Text.slice, ← List.append_assoc, ← List.length_append,
    List.take_left, List.drop_left]

/-- **Mapping an offset through a planned delta is exact.**  A character that stays is found at its
mapped offset.  An offset among moved characters is mapped to the start of the moved copy, and one
among other characters that go to the start of what took their place.  The end is mapped to the
end.  When nothing is moved, offsets keep their order.  The texts are such that 64-bit offsets can
address them. -/
theorem mapOffset_exact (h : s.plan t = .ok δ) (ht : t.length ≤ lastOffset)
    (hout : (δ.applyTo t).length ≤ lastOffset) :
    (∀ o (ho : o < t.length), (¬∃ c ∈ s.changes, c.Destroys o) →
      (δ.applyTo t)[δ.mapOffset o]? = some t[o]) ∧
    (∀ (i : Nat) (u : Span) (target o : Nat), s.changes[i]? = some (.move u target) → u.Holds o →
      ∃ v, (.putMoved t i u target, v) ∈ (s.exchanges t).zip δ.afterSpans ∧
        δ.mapOffset o = v.start ∧ Text.slice (δ.applyTo t) v = Text.slice t u) ∧
    (∀ (i : Nat) (c : Change) (o : Nat), s.changes[i]? = some c → ¬c.HasMove → c.Destroys o →
      ∃ x ∈ c.exchanges t i, ∃ v, (x, v) ∈ (s.exchanges t).zip δ.afterSpans ∧ x.span.Holds o ∧
        δ.mapOffset o = v.start ∧ Text.slice (δ.applyTo t) v = x.text) ∧
    δ.mapOffset t.length = δ.after ∧
    ((∀ c ∈ s.changes, ¬c.HasMove) →
      ∀ o o', o ≤ o' → o' ≤ t.length → δ.mapOffset o ≤ δ.mapOffset o') := by
  have hfits := fits_of_plan_eq_ok h
  refine ⟨?_, ?_, ?_, ?_, ?_⟩
  · intro o ho hkept
    have huncovered : ¬Delta.Covers δ.edits o := by
      rw [← Delta.covers_map_unlink, eq_ofExchanges_of_plan_eq_ok h,
        Delta.map_unlink_ofExchanges, covers_exchanges ho]
      exact hkept
    rw [mapOffset_eq h ht hout (Nat.le_of_lt ho), ← List.getElem?_eq_getElem ho]
    rw [Delta.applyTo, ← List.nil_append (Delta.applyFrom t 0 δ.edits)]
    exact Delta.getElem?_placeFrom hfits.clearFrom (Nat.zero_le _) ho huncovered
  · intro i u target o hi ho
    have hne : ¬u.IsEmpty := fun hempty => Nat.not_lt.2 hempty (Nat.lt_of_le_of_lt ho.1 ho.2)
    obtain ⟨v, hv, hmoved⟩ := exists_movedTo_eq h hi hne
    have hsource : Exchange.takeMoved i u ∈ s.exchanges t :=
      mem_exchanges_iff.2 ⟨⟨i, _, hi, List.mem_cons_self⟩, fun hidle => hne hidle.1⟩
    obtain ⟨w, hw⟩ := exists_mem_zip_afterSpans h hsource
    refine ⟨v, hv, ?_, slice_applyTo h hv⟩
    rw [mapOffset_of_holds h ht hout hw ho, hmoved, Option.getD_some]
  · intro i c o hi hc ho
    obtain ⟨x, hx, hholds⟩ := (Change.exists_holds_exchanges t i o c).2 ho
    have hidle : ¬x.IsIdle := fun hidle =>
      Nat.not_lt.2 hidle.1 (Nat.lt_of_le_of_lt hholds.1 hholds.2)
    obtain ⟨v, hv⟩ := exists_mem_zip_afterSpans h (mem_exchanges_iff.2 ⟨⟨i, c, hi, hx⟩, hidle⟩)
    refine ⟨x, hx, v, hv, hholds, ?_, slice_applyTo h hv⟩
    rw [mapOffset_of_holds h ht hout hv hholds, movedTo_linkMove_eq_none (part_ne_source hc hx),
      Option.getD_none]
  · rw [mapOffset_eq h ht hout (Nat.le_refl _), Delta.placeFrom_length hfits.clearFrom,
      Nat.zero_add, (after_eq_length_applyTo h).1, Delta.applyTo]
  · intro hstay o o' hle ho'
    rw [mapOffset_eq h ht hout (Nat.le_trans hle ho'), mapOffset_eq h ht hout ho']
    refine Delta.placeFrom_mono (Nat.zero_le _) hle fun e he => ?_
    rw [edits_eq h] at he
    obtain ⟨x, hx, rfl⟩ := List.mem_map.1 he
    obtain ⟨⟨i, c, hi, hxc⟩, -⟩ := mem_exchanges_iff.1 hx
    exact movedTo_linkMove_eq_none (part_ne_source (hstay c (List.mem_of_getElem? hi)) hxc)

/-- A word is moved behind another one, and what stood between them is replaced. -/
theorem mapOffset_exact_moved :
    let s := empty.recordAll [.move ⟨0, 2⟩ 6, .insert 6 ['!'], .replace ⟨2, 4⟩ ['-']]
    let t : Text := ['a', 'b', ' ', ' ', 'c', 'd', 'e']
    ∃ δ, s.plan t = .ok δ ∧ t.length ≤ lastOffset ∧ (δ.applyTo t).length ≤ lastOffset ∧
      δ.applyTo t = ['-', 'c', 'd', 'a', 'b', '!', 'e'] ∧
      (δ.applyTo t)[δ.mapOffset 5]? = some 'd' ∧
      (∃ v, (.putMoved t 0 ⟨0, 2⟩ 6, v) ∈ (s.exchanges t).zip δ.afterSpans ∧
        δ.mapOffset 1 = v.start ∧ Text.slice (δ.applyTo t) v = ['a', 'b']) ∧
      (∃ x v, (x, v) ∈ (s.exchanges t).zip δ.afterSpans ∧ δ.mapOffset 3 = v.start ∧
        Text.slice (δ.applyTo t) v = x.text) ∧
      δ.mapOffset 7 = 7 := by
  intro s t
  have hplan : s.plan t = .ok (.ofExchanges t (s.exchanges t)) := by decide
  obtain ⟨hstays, hmoves, hgoes, hend, -⟩ := mapOffset_exact hplan (by decide) (by decide)
  refine ⟨_, hplan, by decide, by decide, by decide, ?_, ?_, ?_, ?_⟩
  · exact hstays 5 (by decide) (by decide)
  · exact hmoves 0 ⟨0, 2⟩ 6 1 (by decide) (by decide)
  · have hdestroys : (Change.replace ⟨2, 4⟩ ['-']).Destroys 3 := by decide
    obtain ⟨x, -, v, hv, -, hmap, hslice⟩ := hgoes 2 _ 3 rfl id hdestroys
    exact ⟨x, v, hv, hmap, hslice⟩
  · exact hend.trans (by decide)

end ChangeSet

end Mend
