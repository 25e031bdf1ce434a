import Mend.Proofs.CaretThroughChange

/-!
# The outcome that is reported

The outcome of a change is put together from the caret that was mapped through it, before the
document cuts that caret to its text and drops a selection of nothing.  The cut never does anything:
no offset of a text is mapped past the end of the text after, neither by a planned delta nor by new
indentation.  So the reported cursor is the one of the document, and so is the reported selection
unless it is one of nothing.

The undo group is noted at a delta that has edits.  New indentation alone is a step of the history
as well, and then the note is missing.

## Main definitions

* `Caret.StaysWithin` — a caret no offset of which is past the end of a text.
* `Draft.commitAt` — ending a block with the caret at a place.

## Main results

* `Delta.mapFrom_le`, `ChangeSet.mapOffset_le` — a planned delta maps no offset past the end.
* `IndentStyle.mapOffset_le`, `Draft.mapOffsetAll_reindent_le` — nor does new indentation.
* `Document.caret_of_commit_eq_ok` — the caret of the document is the reported one, cut to the text.
* `Document.outcome_reports_document` — **what is reported of a change is what it leaves behind**,
  just when no selection of nothing is reported and the delta has edits;
  `Document.exists_outcome_apart` — a change of which something else is reported.
-/

namespace Mend

/-! ### Offsets through a planned delta -/

namespace Delta

variable {t : Text} {done written o : Nat} {e : DeltaEdit} {es : List DeltaEdit}

/-- **Clear edits map no offset past the end of the text after**, when no note of a move points
there. -/
theorem mapFrom_le (h : ClearFrom t done es) (ho : o ≤ t.length)
    (hmoved : ∀ e ∈ es, ∀ m, e.movedTo = some m → m ≤ written + (applyFrom t done es).length) :
    mapFrom o ((written : Int) - done) es ≤ written + (applyFrom t done es).length := by
  induction es generalizing done written with
  | nil =>
    rw [mapFrom_nil, applyFrom_nil, List.length_drop, shiftOffset]
    omega
  | cons e es ih =>
    have hreach : e.reach ≤ t.length := h.reach_le
    have hstart : e.start ≤ e.reach := Nat.le_add_right _ _
    have hlength : (applyFrom t done (e :: es)).length = (e.start - done)
        + (e.inserted.length + (applyFrom t (max done e.reach) es).length) := by
      simp only [applyFrom, List.length_append, Text.length_slice]
      omega
    obtain ⟨hhead, htail⟩ := List.forall_mem_cons.1 hmoved
    rw [mapFrom]
    split
    case isTrue hbefore =>
      rw [shiftOffset]
      omega
    case isFalse hge =>
      split
      case isTrue hamong =>
        cases hto : e.movedTo with
        | some m => exact hhead m hto
        | none =>
          -- the edit takes a character away, so it does not start before the cursor
          have hstop : e.stop ≤ e.reach := Nat.min_le_left _ _
          have hlen : e.reach = e.start + e.deleted.length := rfl
          have hahead := h.head_ahead
          rw [Option.getD_none, shiftOffset]
          omega
      case isFalse hpast =>
        have hend : written + (applyFrom t done (e :: es)).length
            = written + (e.start - done) + e.inserted.length
              + (applyFrom t (max done e.reach) es).length := by omega
        rw [hend] at htail ⊢
        rw [h.add_growth written]
        exact ih h.tail htail

end Delta

namespace ChangeSet

variable {s : ChangeSet} {t : Text} {δ : Delta}

/-- Where moved characters are noted to stand again is a place of the text after. -/
theorem movedTo_le (h : s.plan t = .ok δ) {e : DeltaEdit} (he : e ∈ δ.edits) {m : Nat}
    (hm : e.movedTo = some m) : m ≤ (δ.applyTo t).length := by
  have hfits := fits_of_plan_eq_ok h
  rw [edits_eq h] at he
  obtain ⟨x, -, rfl⟩ := List.mem_map.1 he
  by_cases hpart : x.part = some .source
  · -- the note is the start of the span of an exchange
    rw [DeltaEdit.linkMove, if_pos hpart] at hm
    obtain ⟨p, hfound, rfl⟩ := Option.map_eq_some_iff.1 hm
    have hp := mem_zip_edits h (List.mem_of_find?_eq_some hfound)
    obtain ⟨front, back, happly, hspan⟩ := Delta.exists_applyFrom_eq_append t [] 0
      (fun e he => Nat.le_trans (Nat.le_add_right _ _) (hfits.within e he)) hp
    dsimp only at hspan
    rw [hspan, Delta.applyTo, ← List.nil_append (Delta.applyFrom t 0 δ.edits), happly,
      List.length_append]
    exact Nat.le_add_right _ _
  · rw [movedTo_linkMove_eq_none hpart] at hm
    cases hm

/-- **A planned delta maps no offset past the end of the text after.** -/
theorem mapOffset_le (h : s.plan t = .ok δ) {o : Nat} (ho : o ≤ t.length) :
    δ.mapOffset o ≤ (δ.applyTo t).length := by
  have hle : δ.mapOffset o ≤ 0 + (δ.applyTo t).length :=
    Delta.mapFrom_le (fits_of_plan_eq_ok h).clearFrom ho fun e he m hm =>
      Nat.le_trans (movedTo_le h he hm) (Nat.le_add_left _ _)
  rwa [Nat.zero_add] at hle

end ChangeSet

/-! ### Offsets under new indentation -/

theorem Text.length_splice (t new : Text) (s : Span) :
    (splice t s new).length = min s.start t.length + new.length + (t.length - s.stop) := by
  simp only [splice, List.length_append, List.length_take, List.length_drop]

/-- A line that gets its indentation moves no offset past the end of the text. -/
theorem IndentStyle.mapOffset_le {indenter style : IndentStyle} {t new : Text} {line o : Nat}
    {ch : IndentChange} (h : indenter.changeFor? style t line = some (ch, new))
    (ho : o ≤ t.length) :
    ch.mapOffset o ≤ (Text.splice t ⟨ch.start, ch.start + ch.oldLength⟩ new).length := by
  have hin := (changeFor?_inText h).1
  obtain ⟨ws, c, rest, columns, -, -, -, -, -, -, rfl⟩ := changeFor?_eq_some h
  dsimp only at hin
  rw [Text.length_splice, IndentChange.mapOffset]
  dsimp only
  split_ifs <;> omega

/-- **New indentation moves no offset past the end of the text.**  The induction is on the lines;
the text and the offset change with every line that is given new blanks. -/
theorem Draft.mapOffsetAll_reindent_le (indenter style : IndentStyle) (b : Draft) (lines : List Nat)
    {o : Nat} (ho : o ≤ b.text.length) :
    IndentChange.mapOffsetAll (b.reindent indenter style lines).2 o
      ≤ (b.reindent indenter style lines).1.text.length := by
  induction lines generalizing b o with
  | nil => exact ho
  | cons line lines ih =>
    rw [reindent]
    split
    case isTrue => exact ho
    case isFalse =>
      rcases hchange : indenter.changeFor? style b.text line with _ | ⟨ch, new⟩
      case none => exact ih b ho
      case some =>
        rw [IndentChange.mapOffsetAll, List.foldl_cons]
        refine ih (b.exchange _ new) ?_
        rw [text_exchange]
        exact IndentStyle.mapOffset_le hchange ho

/-! ### Carets that are cut to a text -/

namespace Caret

/-- A caret no offset of which is past the end of a text of the given length. -/
structure StaysWithin (length : Nat) (c : Caret) : Prop where
  /-- The cursor is not past the end. -/
  cursor_le : c.cursor ≤ length
  /-- Neither end of the selection is, if there is one. -/
  selection_le : ∀ s, c.selection = some s → s.start ≤ length ∧ s.stop ≤ length

/-- Cutting a caret to a text that it stays within does no more than to drop a selection of
nothing. -/
theorem StaysWithin.clamp_eq {length : Nat} {c : Caret} (h : c.StaysWithin length) :
    c.clamp length = ⟨c.cursor, c.selection.filter fun s => !decide s.IsEmpty⟩ := by
  obtain ⟨cursor, selection⟩ := c
  have hcursor : min cursor length = cursor := Nat.min_eq_left h.cursor_le
  cases selection with
  | none => rw [clamp, hcursor, Option.map_none]
  | some s =>
    obtain ⟨hstart, hstop⟩ := h.selection_le s rfl
    rw [clamp, hcursor, Option.map_some, Nat.min_eq_left hstart, Nat.min_eq_left hstop]

end Caret

/-- The document that a draft becomes when its caret is placed and its block ends well. -/
def Draft.commitAt (b : Draft) (c : Caret) : Document :=
  commit { b with document := (b.document.setCursor c.cursor).setSelection c.selection }

theorem Draft.text_commitAt (b : Draft) (c : Caret) : (b.commitAt c).text = b.text :=
  text_commit _

/-- Placing the cursor and then the selection cuts the caret to the text. -/
theorem Draft.caret_commitAt (b : Draft) (c : Caret) :
    (b.commitAt c).caret = c.clamp b.text.length :=
  caret_commit _

namespace Document

variable {d d' : Document} {δ : Delta} {c : FileChange} {indenter : IndentStyle} {s : Settings}
  {out : Outcome}

/-- New indentation after a delta moves no offset past the end of the text. -/
theorem mapOffsetAll_reindentAfter_le {b b' : Draft} {cs : List IndentChange}
    (h : reindentAfter b δ c indenter s = (b', .ok cs)) {o : Nat} (ho : o ≤ b.text.length) :
    IndentChange.mapOffsetAll cs o ≤ b'.text.length := by
  rw [reindentAfter] at h
  split at h
  · rw [Draft.reindent?_eq_reindent] at h
    cases h
    exact Draft.mapOffsetAll_reindent_le _ _ _ _ ho
  · cases h
    exact ho

/-- A caret stays within the text when its offsets are mapped through a planned delta and then
through new indentation. -/
theorem staysWithin_mapCaret {changes : ChangeSet} (hplan : changes.plan d.text = .ok δ)
    {b b' : Draft} {cs : List IndentChange} (htext : b.text = δ.applyTo d.text)
    (hre : reindentAfter b δ c indenter s = (b', .ok cs))
    (hcaret : d.caret.StaysWithin d.text.length) :
    (mapCaret δ cs d.caret).StaysWithin b'.text.length := by
  have hmapped {o : Nat} (ho : o ≤ d.text.length) :
      IndentChange.mapOffsetAll cs (δ.mapOffset o) ≤ b'.text.length := by
    refine mapOffsetAll_reindentAfter_le hre ?_
    rw [htext]
    exact ChangeSet.mapOffset_le hplan ho
  refine ⟨hmapped hcaret.cursor_le, fun sel hsel => ?_⟩
  obtain ⟨old, hold, rfl⟩ := Option.map_eq_some_iff.1 hsel
  obtain ⟨hstart, hstop⟩ := hcaret.selection_le old hold
  exact ⟨hmapped hstart, Nat.max_le.2 ⟨hmapped hstop, hmapped hstart⟩⟩

/-! ### What a commit reports -/

/-- A delta that was planned for a document can be committed with any request for new
indentation. -/
theorem exists_commit_eq_ok {planned : FileChange} (hplan : d.plan planned = .ok δ)
    (c : FileChange) (indenter : IndentStyle) (s : Settings) :
    ∃ d' out, d.commit δ c indenter s = (d', .ok out) := by
  obtain ⟨b, b', cs, hdelta, hre, -⟩ := exists_drafts_of_fits
    (ChangeSet.fits_of_plan_eq_ok (plan_changes_of_plan_eq_ok hplan)) c indenter s
  rw [commit, hdelta]
  dsimp only
  rw [hre]
  exact ⟨_, _, rfl⟩

/-- A delta that is committed is made on a draft, lines of the draft get their indentation, and it
is left with the mapped caret. -/
theorem exists_drafts_of_commit_eq_ok (h : d.commit δ c indenter s = (d', .ok out)) :
    ∃ b b' cs, (Draft.ofDocument d).applyDelta δ = (b, none) ∧
      reindentAfter b δ c indenter s = (b', .ok cs) ∧
      d' = b'.commitAt (mapCaret δ cs d.caret) ∧
      out.cursor = (mapCaret δ cs d.caret).cursor ∧
      out.selection = (mapCaret δ cs d.caret).selection ∧
      out.delta = if δ.edits = [] then δ else { δ with group := d'.history.lastGroup? } := by
  rw [commit] at h
  split at h
  next => cases h
  next b hdelta =>
    split at h
    next => cases h
    next b' cs hre =>
      cases h
      exact ⟨b, b', cs, hdelta, hre, rfl, rfl, rfl, rfl⟩

/-- Whatever delta is committed, the caret of the document is the reported one, cut to the text. -/
theorem caret_of_commit_eq_ok (h : d.commit δ c indenter s = (d', .ok out)) :
    d'.caret = (Caret.mk out.cursor out.selection).clamp d'.text.length := by
  obtain ⟨b, b', cs, -, -, rfl, hcursor, hselection, -⟩ := exists_drafts_of_commit_eq_ok h
  rw [hcursor, hselection, Draft.caret_commitAt, Draft.text_commitAt]

/-- The reported caret of a planned delta stays within the text. -/
theorem staysWithin_of_commit_eq_ok {planned : FileChange} (hplan : d.plan planned = .ok δ)
    (hcaret : d.caret.StaysWithin d.text.length)
    (h : d.commit δ c indenter s = (d', .ok out)) :
    (Caret.mk out.cursor out.selection).StaysWithin d'.text.length := by
  have hchanges := plan_changes_of_plan_eq_ok hplan
  obtain ⟨b, b', cs, hdelta, hre, rfl, hcursor, hselection, -⟩ := exists_drafts_of_commit_eq_ok h
  obtain ⟨made, -, -, hmade, -, htext, -⟩ := exists_drafts_of_fits
    (ChangeSet.fits_of_plan_eq_ok hchanges) c indenter s
  obtain rfl : made = b := congrArg Prod.fst (hmade.symm.trans hdelta)
  rw [hcursor, hselection, Draft.text_commitAt]
  exact staysWithin_mapCaret hchanges htext hre hcaret

/-- The step that was recorded last is the one that can be undone. -/
theorem Records.lastGroup?_eq {step : Step} (h : d.Records d' step) :
    d'.history.lastGroup? = some step.group := by
  rw [h.history_eq, History.lastGroup?_push, h.group_eq]

/-- The undo group is noted at a delta that has edits, and at no other. -/
theorem group_of_commit_eq_ok {planned : FileChange} (hplan : d.plan planned = .ok δ)
    (h : d.commit δ c indenter s = (d', .ok out)) {step : Step} (hstep : d.Records d' step) :
    out.delta.group = some step.group ↔ δ.edits ≠ [] := by
  obtain ⟨b, b', cs, -, -, -, -, -, hdelta⟩ := exists_drafts_of_commit_eq_ok h
  rw [hdelta]
  split
  next hnil =>
    have hgroup : δ.group = none := by
      rw [ChangeSet.eq_ofExchanges_of_plan_eq_ok (plan_changes_of_plan_eq_ok hplan)]
      rfl
    rw [hgroup]
    exact iff_of_false (Option.some_ne_none _).symm fun hne => hne hnil
  next hne => exact iff_of_true hstep.lastGroup?_eq hne

/-- **What is reported of a change is what it leaves behind.**  A delta was planned for a document
whose caret stays within its text, for the change that is applied or for another one.  Then it can
be committed with any request for new indentation.  The cursor that is reported is the one of the
document; the reported selection is the one of the document just when it is not one of nothing; and
when a step was recorded, which is then the one to be undone, the delta is noted to belong to it
just when it has edits. -/
theorem outcome_reports_document {planned : FileChange}
    (hcaret : d.caret.StaysWithin d.text.length) (hplan : d.plan planned = .ok δ) (c : FileChange)
    (indenter : IndentStyle) (s : Settings) :
    d.apply planned indenter s = d.commit δ planned indenter s ∧
    ∃ d' out, d.commit δ c indenter s = (d', .ok out) ∧
      out.cursor = d'.cursor ∧
      (out.selection = d'.selection ↔ ∀ sel, out.selection = some sel → ¬sel.IsEmpty) ∧
      ∀ step, d.Records d' step → d'.history.lastGroup? = some step.group ∧
        (out.delta.group = some step.group ↔ δ.edits ≠ []) := by
  obtain ⟨d', out, hcommit⟩ := exists_commit_eq_ok hplan c indenter s
  have hcut : d'.caret = ⟨out.cursor, out.selection.filter fun sel => !decide sel.IsEmpty⟩ := by
    rw [caret_of_commit_eq_ok hcommit]
    exact (staysWithin_of_commit_eq_ok hplan hcaret hcommit).clamp_eq
  refine ⟨by rw [apply, hplan], d', out, hcommit, ?_, ?_, fun step hstep =>
    ⟨hstep.lastGroup?_eq, group_of_commit_eq_ok hplan hcommit hstep⟩⟩
  · rw [cursor, hcut]
  · rw [selection, hcut]
    cases out.selection with
    | none => simp
    | some sel => by_cases hempty : sel.IsEmpty <;> simp [Option.filter_some, hempty]

/-- A name is exchanged and the line below loses its blanks; the selected name on it moves twice. -/
theorem outcome_reports_document_selectedName :
    let d := (Document.open "a.c" "a;\n  b;".toList).after
      [.setSelection (some ⟨5, 6⟩), .setCursor 6]
    let c : FileChange :=
      { changes := ChangeSet.empty.recordAll [.replace ⟨0, 1⟩ "xy".toList], reindent := [⟨3, 7⟩] }
    ∃ d' out step, d.apply c {} {} = (d', .ok out) ∧ d'.text = "xy;\nb;".toList ∧
      out.cursor = 5 ∧ d'.cursor = 5 ∧ out.selection = some ⟨4, 5⟩ ∧ d'.selection = some ⟨4, 5⟩ ∧
      d.Records d' step ∧ out.delta.group = some step.group := by
  intro d c
  have hplan : d.plan c = .ok (.ofExchanges d.text (c.changes.exchanges d.text)) := by
    decide +kernel
  obtain ⟨happly, d', out, hcommit, hcursor, hselection, hgroup⟩ :=
    outcome_reports_document ⟨by decide +kernel, by decide +kernel⟩ hplan c {} {}
  rw [← happly] at hcommit
  have htext : (d.apply c {} {}).1.text = "xy;\nb;".toList := by decide +kernel
  have hreported : (d.apply c {} {}).2.toOption.map (fun out => (out.cursor, out.selection))
      = some (5, some ⟨4, 5⟩) := by decide +kernel
  have hadvance := advance_apply d c {} {}
  rw [hcommit] at htext hreported hadvance
  obtain ⟨hfive, hname⟩ := Prod.mk.inj (Option.some.inj hreported)
  have hsame : out.selection = d'.selection := by
    refine hselection.2 fun sel hsel => ?_
    obtain rfl : ⟨4, 5⟩ = sel := Option.some.inj (hname.symm.trans hsel)
    decide
  cases hadvance with
  | quiet hquiet _ => exact absurd (hquiet.symm.trans htext) (by decide +kernel)
  | committed step hstep _ _ =>
    exact ⟨d', out, step, hcommit, htext, hfive, hcursor ▸ hfive, hname, hsame ▸ hname, hstep,
      (hgroup step hstep).2.2 (by decide +kernel)⟩

/-- New indentation alone, of a line the blanks of which are selected: reported is a selection of
nothing where the document has none, and the delta is not noted to belong to the step that was
recorded. -/
theorem exists_outcome_apart :
    let d := (Document.open "a.c" "   x".toList).after [.setSelection (some ⟨1, 2⟩)]
    let c : FileChange := { reindent := [⟨0, 4⟩] }
    ∃ d' out step, d.caret.StaysWithin d.text.length ∧ d.apply c {} {} = (d', .ok out) ∧
      out.selection = some ⟨0, 0⟩ ∧ d'.selection = none ∧
      d.Records d' step ∧ d'.history.lastGroup? = some step.group ∧ out.delta.group = none := by
  intro d c
  let before : Caret := ⟨0, some ⟨1, 2⟩⟩
  let after : Caret := ⟨0, none⟩
  let step : Step := ⟨0, [⟨0, "   ".toList, []⟩], before, after⟩
  let d' : Document := ⟨"a.c", "x".toList, 1, after, ⟨[step], [], 1⟩⟩
  let out : Outcome := ⟨0, some ⟨0, 0⟩, ⟨4, 4, [], none⟩, [0]⟩
  refine ⟨d', out, step, ⟨by decide +kernel, by decide +kernel⟩, by decide +kernel, rfl, rfl,
    ⟨rfl, rfl⟩, rfl, rfl⟩

end Document

end Mend
