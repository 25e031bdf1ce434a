import Mend.Proofs.Draft
import Mend.Proofs.Planned

/-!
# Making a delta on a live text

A delta can be applied to a text that is left alone: what lies between the edits is copied, in
offsets of the text before.  On a live text it is made by one replacement after the other, each in
offsets of the text as it stands by then.  For a delta that fits its text both come to the same.

The loops are tied together by what stands in the live text after some edits: first everything that
was written so far, then the rest of the text before, from the offset that the edits have reached.

## Main definitions

* `Delta.ClearFrom` — edits that can be made on the rest of a text.
* `Draft.replacementsFrom` — the replacements that make edits from a point of the text on.

## Main results

* `Delta.exists_applyFrom_eq_append` — the new characters of an edit lie in its span of the text
  after.
* `Delta.length_applyFrom` — how long the text after is.
* `Draft.replaceEach_replacementsFrom` — the invariant of the live text, over any number of edits.
* `Draft.applyDelta_eq_applyTo` — **the live text and the copied one agree.**
-/

namespace Mend

/-! ### The text after a delta -/

namespace Delta

/-- Edits that can be made on a text when those before have reached the offset `done`. -/
structure ClearFrom (t : Text) (done : Nat) (es : List DeltaEdit) : Prop where
  /-- The offset lies in the text. -/
  done_le : done ≤ t.length
  /-- Every edit stops in the text. -/
  within : ∀ e ∈ es, e.reach ≤ t.length
  /-- An edit that takes characters away does not start before the offset. -/
  ahead : ∀ e ∈ es, e.deleted ≠ [] → done ≤ e.start
  /-- Nor does it start before an earlier edit has stopped. -/
  clear : es.Pairwise fun e f => f.deleted ≠ [] → e.reach ≤ f.start

namespace ClearFrom

variable {t : Text} {done : Nat} {e : DeltaEdit} {es : List DeltaEdit}

theorem reach_le (h : ClearFrom t done (e :: es)) : e.reach ≤ t.length :=
  h.within e List.mem_cons_self

/-- Only an edit that takes nothing away may start before the offset. -/
theorem head_ahead (h : ClearFrom t done (e :: es)) : e.deleted.length = 0 ∨ done ≤ e.start := by
  rcases Nat.eq_zero_or_pos e.deleted.length with hlen | hlen
  · exact .inl hlen
  · exact .inr (h.ahead e List.mem_cons_self (List.ne_nil_of_length_pos hlen))

/-- Making the first edit leaves the others clear. -/
theorem tail (h : ClearFrom t done (e :: es)) : ClearFrom t (max done e.reach) es where
  done_le := Nat.max_le.2 ⟨h.done_le, h.reach_le⟩
  within f hf := h.within f (List.mem_cons_of_mem _ hf)
  ahead f hf hne := Nat.max_le.2
    ⟨h.ahead f (List.mem_cons_of_mem _ hf) hne, (List.pairwise_cons.1 h.clear).1 f hf hne⟩
  clear := (List.pairwise_cons.1 h.clear).2

end ClearFrom

/-- The edits of a delta that fits a text are clear from its start on. -/
theorem Fits.clearFrom {δ : Delta} {t : Text} (h : δ.Fits t) : ClearFrom t 0 δ.edits :=
  ⟨Nat.zero_le _, h.within, fun _ _ _ => Nat.zero_le _, h.clear⟩

/-- The characters that edits take away. -/
def deletedLength (es : List DeltaEdit) : Nat := (es.flatMap (·.deleted)).length

/-- The characters that edits bring. -/
def insertedLength (es : List DeltaEdit) : Nat := (es.flatMap (·.inserted)).length

/-- The new characters of each edit lie in its span of the text after.  This is so wherever the
edits start in the text. -/
theorem exists_applyFrom_eq_append (t out : Text) (done : Nat) {es : List DeltaEdit}
    (hin : ∀ e ∈ es, e.start ≤ t.length) {p : DeltaEdit × Span}
    (hp : p ∈ es.zip (afterSpansFrom done out.length es)) :
    ∃ front back, out ++ applyFrom t done es = front ++ (p.1.inserted ++ back) ∧
      p.2 = ⟨front.length, front.length + p.1.inserted.length⟩ := by
  induction es generalizing done out with
  | nil => simp at hp
  | cons e es ih =>
    -- an edit that starts before `done` copies nothing: the difference is cut off at zero
    have hgap : (out ++ Text.slice t ⟨done, e.start⟩).length = out.length + (e.start - done) := by
      rw [List.length_append, Text.length_slice, Nat.min_eq_left (hin e List.mem_cons_self)]
    rw [afterSpansFrom, List.zip_cons_cons] at hp
    rcases List.mem_cons.1 hp with rfl | hp
    · refine ⟨out ++ Text.slice t ⟨done, e.start⟩, applyFrom t (max done e.reach) es, ?_, ?_⟩
      · rw [applyFrom, List.append_assoc]
      · rw [hgap]
    · have hlen : (out ++ Text.slice t ⟨done, e.start⟩ ++ e.inserted).length
          = out.length + (e.start - done) + e.inserted.length := by
        rw [List.length_append, hgap]
      obtain ⟨front, back, happly, hspan⟩ := ih (out ++ Text.slice t ⟨done, e.start⟩ ++ e.inserted)
        (max done e.reach) (fun f hf => hin f (List.mem_cons_of_mem _ hf)) (hlen.symm ▸ hp)
      refine ⟨front, back, ?_, hspan⟩
      rw [applyFrom, ← happly]
      simp only [List.append_assoc]

/-- How long the text after clear edits is. -/
theorem length_applyFrom {t : Text} {done : Nat} {es : List DeltaEdit} (h : ClearFrom t done es) :
    done + (applyFrom t done es).length + deletedLength es = t.length + insertedLength es := by
  induction es generalizing done with
  | nil =>
    have := h.done_le
    simp only [applyFrom_nil, List.length_drop, deletedLength, insertedLength, List.flatMap_nil,
      List.length_nil]
    omega
  | cons e es ih =>
    have hrest := ih h.tail
    have hpoint := h.head_ahead
    have hreach := h.reach_le
    simp only [applyFrom, List.length_append, Text.length_slice, deletedLength, insertedLength,
      List.flatMap_cons, DeltaEdit.reach] at hrest hreach ⊢
    omega

end Delta

/-! ### The live text -/

namespace Draft

/-- The replacements that make edits, when the edits before have reached the offset `done` and have
written `written` characters. -/
def replacementsFrom (done written : Nat) (es : List DeltaEdit) : List (Span × Text) :=
  (es.zip (Delta.afterSpansFrom done written es)).map fun p =>
    (⟨p.2.start, p.2.start + p.1.deleted.length⟩, p.1.inserted)

theorem replacementsFrom_cons (done written : Nat) (e : DeltaEdit) (es : List DeltaEdit) :
    replacementsFrom done written (e :: es)
      = (⟨written + (e.start - done), written + (e.start - done) + e.deleted.length⟩, e.inserted) ::
        replacementsFrom (max done e.reach) (written + (e.start - done) + e.inserted.length) es :=
  rfl

/-- Making one edit on a live text: the written part grows, and the rest starts where the edit has
stopped. -/
theorem splice_written {t out : Text} {done : Nat} {e : DeltaEdit}
    (hpoint : e.deleted.length = 0 ∨ done ≤ e.start) :
    Text.splice (out ++ t.drop done)
        ⟨out.length + (e.start - done), out.length + (e.start - done) + e.deleted.length⟩ e.inserted
      = out ++ (Text.slice t ⟨done, e.start⟩ ++ e.inserted) ++ t.drop (max done e.reach) := by
  have hreach : done + (e.start - done + e.deleted.length) = max done e.reach := by
    rw [DeltaEdit.reach]
    omega
  rw [Text.splice, Nat.add_assoc, List.take_length_add_append, List.drop_length_add_append,
    List.drop_drop, hreach, ← List.drop_take]
  simp only [Text.slice, List.append_assoc]

/-- **The invariant of the live text.**  After some edits it holds what they have written, and then
the rest of the text before. -/
theorem replaceEach_replacementsFrom {t out : Text} {done : Nat} {es : List DeltaEdit}
    (h : Delta.ClearFrom t done es) {d : Draft} (hd : d.text = out ++ t.drop done) :
    ∃ d', d.replaceEach (replacementsFrom done out.length es) = (d', none) ∧
      d'.text = out ++ Delta.applyFrom t done es := by
  -- on the edits; what is written, the offset reached and the draft all change from edit to edit
  induction es generalizing done out d with
  | nil => exact ⟨d, rfl, hd⟩
  | cons e es ih =>
    -- in the live text the edit is made after what is written and the gap before it
    let place : Span := ⟨out.length + (e.start - done),
      out.length + (e.start - done) + e.deleted.length⟩
    have hstop : place.stop ≤ d.text.length := by
      have hpoint := h.head_ahead
      have hreach : e.start + e.deleted.length ≤ t.length := h.reach_le
      have hdone := h.done_le
      rw [hd, List.length_append, List.length_drop]
      simp only [place]
      omega
    obtain ⟨d', hd', htext⟩ :=
      exists_replace?_eq_ok (s := place) (Nat.le_add_right _ _) hstop e.inserted
    rw [hd, splice_written h.head_ahead] at htext
    have hwritten : (out ++ (Text.slice t ⟨done, e.start⟩ ++ e.inserted)).length
        = out.length + (e.start - done) + e.inserted.length := by
      have hreach : e.start + e.deleted.length ≤ t.length := h.reach_le
      simp only [List.length_append, Text.length_slice]
      omega
    obtain ⟨d'', hd'', htext'⟩ := ih h.tail htext
    refine ⟨d'', ?_, ?_⟩
    · rw [replacementsFrom_cons, replaceEach, hd', ← hwritten]
      exact hd''
    · rw [htext', Delta.applyFrom]
      simp only [List.append_assoc]

/-- A delta that fits the text of a draft can be made on it. -/
theorem exists_applyDelta_eq {δ : Delta} {d : Draft} (h : δ.Fits d.text) :
    ∃ d', d.applyDelta δ = (d', none) ∧ d'.text = δ.applyTo d.text := by
  have hmade := @replaceEach_replacementsFrom _ [] 0 _ h.clearFrom d rfl
  rw [applyDelta, if_pos h.before_eq]
  exact hmade

end Draft

/-! ### Planned deltas -/

/-- A planned delta says how long the text after it is, and what it subtracts for this is there. -/
theorem ChangeSet.after_eq_length_applyTo {s : ChangeSet} {t : Text} {δ : Delta}
    (h : s.plan t = .ok δ) : δ.after = (δ.applyTo t).length ∧
      Delta.deletedLength δ.edits ≤ t.length + Delta.insertedLength δ.edits := by
  have hlen := Delta.length_applyFrom (fits_of_plan_eq_ok h).clearFrom
  -- the planned length sums over the exchanges, and linking moves changes no length
  have hafter : δ.after
      = t.length + Delta.insertedLength δ.edits - Delta.deletedLength δ.edits := by
    have hedits : δ.edits.map DeltaEdit.unlink = (s.exchanges t).map (Exchange.toEdit t) := by
      rw [eq_ofExchanges_of_plan_eq_ok h, Delta.map_unlink_ofExchanges]
    have hdeleted : Delta.deletedLength δ.edits
        = Delta.deletedLength (δ.edits.map DeltaEdit.unlink) := by
      simp only [Delta.deletedLength, List.flatMap_map, DeltaEdit.deleted_unlink]
    have hinserted : Delta.insertedLength δ.edits
        = Delta.insertedLength (δ.edits.map DeltaEdit.unlink) := by
      simp only [Delta.insertedLength, List.flatMap_map, DeltaEdit.inserted_unlink]
    rw [hdeleted, hinserted, hedits, eq_ofExchanges_of_plan_eq_ok h]
    rfl
  rw [hafter, Delta.applyTo]
  omega

/-- **The live text and the copied one agree.**  A delta that fits a text can be made on every draft
that holds it, and leaves there what it makes of the text; the new characters of each edit then lie
in its span.  Every planned delta is of this kind, and foretells the length of the text after. -/
theorem Draft.applyDelta_eq_applyTo (t : Text) :
    (∀ δ : Delta, δ.Fits t →
      (∀ d : Draft, d.text = t → ∃ d', d.applyDelta δ = (d', none) ∧ d'.text = δ.applyTo t) ∧
      δ.afterSpans.length = δ.edits.length ∧
      ∀ p ∈ δ.edits.zip δ.afterSpans, ∃ front back,
        δ.applyTo t = front ++ (p.1.inserted ++ back) ∧
          p.2 = ⟨front.length, front.length + p.1.inserted.length⟩) ∧
    ∀ (s : ChangeSet) (δ : Delta), s.plan t = .ok δ →
      δ.Fits t ∧ δ.after = (δ.applyTo t).length ∧
        Delta.deletedLength δ.edits ≤ t.length + Delta.insertedLength δ.edits := by
  refine ⟨fun δ hδ => ⟨?_, Delta.length_afterSpansFrom 0 0 δ.edits, ?_⟩, fun s δ h =>
    ⟨ChangeSet.fits_of_plan_eq_ok h, ChangeSet.after_eq_length_applyTo h⟩⟩
  · rintro d rfl
    exact exists_applyDelta_eq hδ
  · have hin : ∀ e ∈ δ.edits, e.start ≤ t.length := fun e he =>
      Nat.le_trans (Nat.le_add_right _ _) (hδ.within e he)
    exact fun p hp => Delta.exists_applyFrom_eq_append t [] 0 hin hp

/-- Two edits insert where a third one has replaced, and one more inserts inside what it took
away. -/
theorem Draft.applyDelta_eq_applyTo_sharedStart :
    let t : Text := ['a', 'b', 'c', 'd']
    let δ : Delta := { before := 4, after := 6, edits :=
      [⟨1, ['b', 'c'], ['x'], none⟩, ⟨1, [], ['y'], none⟩, ⟨2, [], ['z'], none⟩,
        ⟨3, [], ['w'], none⟩] }
    δ.Fits t ∧
      (∃ d', (ofDocument (.open "a.cpp" t)).applyDelta δ = (d', none) ∧
        d'.text = ['a', 'x', 'y', 'z', 'w', 'd']) ∧
      ∃ δ', (ChangeSet.empty.recordAll [.move ⟨0, 1⟩ 3, .insert 3 ['x']]).plan t = .ok δ' ∧
        δ'.Fits t ∧ δ'.after = 5 := by
  intro t δ
  have hδ : δ.Fits t := ⟨by decide, by decide, by decide, by decide⟩
  refine ⟨hδ, ((applyDelta_eq_applyTo t).1 δ hδ).1 _ rfl, _, rfl, ?_⟩
  have hplan := (applyDelta_eq_applyTo t).2
    (ChangeSet.empty.recordAll [.move ⟨0, 1⟩ 3, .insert 3 ['x']]) _ rfl
  exact ⟨hplan.1, hplan.2.1⟩

end Mend
