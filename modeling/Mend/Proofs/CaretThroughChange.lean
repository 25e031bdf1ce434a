import Mend.Proofs.Atomicity
import Mend.Proofs.IndentedLines
import Mend.Proofs.OffsetMap

/-!
# The caret through a change

A change moves the cursor twice: through the delta, and then through the new blanks of every line
that got its indentation, one line after the other.  Each of these steps tells offsets of the text
as it stands by then.  A line is changed below all lines that were changed before, so whether the
cursor stands among its old blanks can be read off the text right after the delta.

A block that is undone finds the caret that it began with.  Carets that are put back are cut to the
text and lose a selection of nothing, so this needs that no document has such a selection.

## Main definitions

* `Text.IsAtIndentation` — an offset at the start of a line, or among the blanks that open it.
* `Caret.IsProper` — a caret that does not select nothing.

## Main results

* `Draft.getElem?_reindent` — a character that stands after the blanks of its line is found where
  new indentation has moved it.
* `Document.isProper_after` — no run of a document leaves a selection of nothing.
* `Draft.Follows.exists_undo?_commit` — undoing a block brings text and caret back.
* `Document.apply_keeps_caret` — **the cursor follows its character through a change, and undoing
  the change puts the caret back.**
-/

namespace Mend

/-! ### Characters of a text with other blanks -/

namespace Text

/-- An offset at the start of a line, or among the blanks that open it. -/
def IsAtIndentation (t : Text) (line o : Nat) : Prop :=
  o = lineStart t line ∨ (lineStart t line ≤ o ∧
    o < lineStart t line + (indentation ((lineContent? t line).getD [])).length)

instance (t : Text) (line o : Nat) : Decidable (IsAtIndentation t line o) :=
  inferInstanceAs (Decidable (_ ∨ _))

variable {t new : Text} {s : Span} {o : Nat}

theorem getElem?_splice_of_lt (hs : s.start ≤ t.length) (ho : o < s.start) :
    (splice t s new)[o]? = t[o]? := by
  have hfront : o < (t.take s.start).length := by
    rw [List.length_take]
    omega
  rw [splice, List.append_assoc, List.getElem?_append_left hfront, List.getElem?_take_of_lt ho]

theorem getElem?_splice_of_le (hs : s.start ≤ t.length) (ho : s.stop ≤ o) :
    (splice t s new)[s.start + new.length + (o - s.stop)]? = t[o]? := by
  have hfront : (t.take s.start ++ new).length = s.start + new.length := by
    rw [List.length_append, List.length_take, Nat.min_eq_left hs]
  rw [splice, ← hfront, List.getElem?_append_right (Nat.le_add_right _ _), Nat.add_sub_cancel_left,
    List.getElem?_drop, Nat.add_sub_cancel' ho]

/-- A line starts after the lines above it. -/
theorem lineStart_add_length_le_lineStart {l : Text} {line line' : Nat}
    (h : (lines t)[line]? = some l) (hlt : line < line') :
    lineStart t line + l.length ≤ lineStart t line' := by
  have hsplit : (lines t).take line' = (lines t).take (line + 1)
      ++ ((lines t).drop (line + 1)).take (line' - (line + 1)) := by
    rw [← List.take_add, Nat.add_sub_cancel' hlt]
  rw [lineStart, lineStart, hsplit, List.take_add_one, h, Option.toList_some, List.flatten_append,
    List.flatten_append, List.flatten_singleton, List.length_append, List.length_append]
  exact Nat.le_add_right _ _

end Text

/-! ### Characters under new indentation -/

namespace IndentStyle

open Text

variable {indenter style : IndentStyle} {t new : Text} {line line' o : Nat} {ch : IndentChange}

/-- A change of a line is read off the text: it exchanges the blanks that open the line. -/
theorem isAtIndentation_of_changeFor? (h : indenter.changeFor? style t line = some (ch, new)) :
    IsAtIndentation t line o ↔
      o = ch.start ∨ (ch.start ≤ o ∧ o < ch.start + ch.oldLength) := by
  obtain ⟨ws, c, rest, columns, hl, hws, hc, -, -, -, rfl⟩ := changeFor?_eq_some h
  have hcontent : lineContent? t line = some (stripNewline (ws ++ c :: rest)) := by
    rw [lineContent?, hl, Option.map_some]
  rw [IsAtIndentation, hcontent, Option.getD_some, indentation_stripNewline_append_cons hws hc]

/-- A character that stands after the blanks of its line is found where the change of a line moves
it. -/
theorem getElem?_mapOffset (h : indenter.changeFor? style t line = some (ch, new))
    (ho : ¬IsAtIndentation t line o) :
    (splice t ⟨ch.start, ch.start + ch.oldLength⟩ new)[ch.mapOffset o]? = t[o]? := by
  have hin := (changeFor?_inText h).1
  rw [isAtIndentation_of_changeFor? h, not_or, not_and_or] at ho
  obtain ⟨ws, c, rest, columns, -, -, -, -, -, -, rfl⟩ := changeFor?_eq_some h
  dsimp only at hin ho ⊢
  rw [IndentChange.mapOffset]
  dsimp only
  split
  next hle => exact getElem?_splice_of_lt (by dsimp only; omega) (by dsimp only; omega)
  next hgt =>
    have hbehind : lineStart t line + ws.length ≤ o := by omega
    have hplace : o + new.length - ws.length
        = lineStart t line + new.length + (o - (lineStart t line + ws.length)) := by omega
    rw [if_neg (Nat.not_lt.2 hbehind), hplace]
    exact getElem?_splice_of_le (s := ⟨_, _⟩) (by dsimp only; omega) hbehind

/-- Below a line that is changed, an offset stays at the blanks of its line or away from them. -/
theorem isAtIndentation_mapOffset (h : indenter.changeFor? style t line = some (ch, new))
    (ho : ¬IsAtIndentation t line o) (hlt : line < line')
    (hat : IsAtIndentation (splice t ⟨ch.start, ch.start + ch.oldLength⟩ new) line'
      (ch.mapOffset o)) : IsAtIndentation t line' o := by
  rw [isAtIndentation_of_changeFor? h, not_or, not_and_or] at ho
  obtain ⟨ws, c, rest, hl, -, -, -, -, rfl, hset⟩ := lines_splice_of_changeFor? h
  dsimp only at ho hat hset ⊢
  have hstart := lineStart_of_lines_eq_set hl hset hlt
  have hbelow := lineStart_add_length_le_lineStart hl hlt
  have hcontent : lineContent? (splice t ⟨lineStart t line, lineStart t line + ws.length⟩ new) line'
      = lineContent? t line' := by
    rw [lineContent?, lineContent?, hset, List.getElem?_set_ne (Nat.ne_of_lt hlt)]
  simp only [List.length_append, List.length_cons] at hstart hbelow
  rw [IsAtIndentation, hcontent, IndentChange.mapOffset] at hat
  rw [IsAtIndentation]
  dsimp only at hat
  -- an offset above the line does not reach down to the line below, others move along with it
  split at hat
  · omega
  · rw [if_neg (by omega)] at hat
    omega

end IndentStyle

namespace Draft

open Text

/-- The changes of a run are changes of the lines that it was told. -/
theorem line_mem_of_mem_reindent {indenter style : IndentStyle} {d : Draft} {lines : List Nat}
    {ch : IndentChange} (h : ch ∈ (d.reindent indenter style lines).2) : ch.line ∈ lines := by
  induction lines generalizing d with
  | nil => exact absurd h List.not_mem_nil
  | cons line lines ih =>
    rw [reindent] at h
    split at h
    · exact absurd h List.not_mem_nil
    · rcases hchange : indenter.changeFor? style d.text line with _ | ⟨ch', new⟩
      · rw [hchange] at h
        exact List.mem_cons_of_mem _ (ih h)
      · rw [hchange] at h
        rcases List.mem_cons.1 h with rfl | h
        · rw [IndentStyle.line_of_changeFor? hchange]
          exact List.mem_cons_self
        · exact List.mem_cons_of_mem _ (ih h)

/-- **New indentation moves a character along**, when it does not stand at the blanks of a line that
is changed. -/
theorem getElem?_reindent {indenter style : IndentStyle} {d : Draft} {lines : List Nat} {o : Nat}
    (hlines : lines.Pairwise (· < ·))
    (ho : ∀ ch ∈ (d.reindent indenter style lines).2, ¬IsAtIndentation d.text ch.line o) :
    (d.reindent indenter style lines).1.text[IndentChange.mapOffsetAll
      (d.reindent indenter style lines).2 o]? = d.text[o]? := by
  -- on the lines; the text and the offset change with every line that is given new blanks
  induction lines generalizing d o with
  | nil => rfl
  | cons line lines ih =>
    obtain ⟨hbelow, hrest⟩ := List.pairwise_cons.1 hlines
    rw [reindent] at ho ⊢
    split at ho
    · rw [if_pos ‹_›]
      rfl
    · rw [if_neg ‹_›]
      rcases hchange : indenter.changeFor? style d.text line with _ | ⟨ch, new⟩
      · rw [hchange] at ho
        exact ih hrest ho
      · rw [hchange] at ho
        dsimp only at ho ⊢
        obtain ⟨hhead, htail⟩ := List.forall_mem_cons.1 ho
        rw [IndentStyle.line_of_changeFor? hchange] at hhead
        have hmoved := IndentStyle.getElem?_mapOffset hchange hhead
        rw [IndentChange.mapOffsetAll, List.foldl_cons, ← hmoved]
        refine ih hrest fun ch' hmem hat => htail ch' hmem ?_
        exact IndentStyle.isAtIndentation_mapOffset hchange hhead
          (hbelow _ (line_mem_of_mem_reindent hmem)) hat

end Draft

/-! ### Carets that select something or nothing -/

namespace Caret

/-- A caret that does not select nothing: it has no selection, or one of some characters. -/
def IsProper (c : Caret) : Prop := ∀ s, c.selection = some s → ¬s.IsEmpty

theorem isProper_clamp (length : Nat) (c : Caret) : (c.clamp length).IsProper := by
  intro s hs
  have hfilter := (Option.filter_eq_some_iff.1 hs).2
  simpa using hfilter

/-- A caret in the text is not cut. -/
theorem clamp_eq_self {length : Nat} {c : Caret} (hc : c.IsProper) (hcursor : c.cursor ≤ length)
    (hselection : ∀ s, c.selection = some s → s.stop ≤ length) : c.clamp length = c := by
  obtain ⟨cursor, selection⟩ := c
  have hcut : min cursor length = cursor := Nat.min_eq_left hcursor
  cases selection with
  | none => rw [clamp, hcut, Option.map_none, Option.filter_none]
  | some s =>
    have hproper : ¬s.stop ≤ s.start := hc s rfl
    have hstop : min s.stop length = s.stop := Nat.min_eq_left (hselection s rfl)
    have hstart : min s.start length = s.start :=
      Nat.min_eq_left (Nat.le_trans (Nat.le_of_not_le hproper) (hselection s rfl))
    rw [clamp, hcut, Option.map_some, hstart, hstop, Option.filter_some]
    simp [Span.IsEmpty, hproper]

end Caret

namespace Draft

/-- Replacements leave the caret alone. -/
theorem caret_of_replace?_eq_ok {d d' : Draft} {s : Span} {new : Text}
    (h : d.replace? s new = .ok d') : d'.document.caret = d.document.caret := by
  rcases eq_of_replace?_eq_ok h with rfl | ⟨-, -, rfl⟩ <;> rfl

theorem caret_replaceEach (d : Draft) (rs : List (Span × Text)) :
    (d.replaceEach rs).1.document.caret = d.document.caret := by
  induction rs generalizing d with
  | nil => rfl
  | cons r rs ih =>
    obtain ⟨s, new⟩ := r
    rw [replaceEach]
    split
    next d' hok => rw [ih d', caret_of_replace?_eq_ok hok]
    next => rfl

theorem caret_applyDelta (d : Draft) (δ : Delta) :
    (d.applyDelta δ).1.document.caret = d.document.caret := by
  rw [applyDelta]
  split
  · exact caret_replaceEach d _
  · rfl

/-- No edit leaves a selection of nothing. -/
theorem isProper_run {d : Draft} (h : d.document.caret.IsProper) (c : EditCommand) :
    (d.run c).1.document.caret.IsProper := by
  cases c with
  | replace s new =>
    rw [run]
    split
    next d' hok => rwa [caret_of_replace?_eq_ok hok]
    next => exact h
  | applyDelta δ =>
    rw [run]
    dsimp only
    rwa [caret_applyDelta]
  | setCursor o => exact h
  | setSelection s => exact Caret.isProper_clamp _ ⟨0, s⟩
  | cancel => exact h

theorem isProper_runProgram {d : Draft} (h : d.document.caret.IsProper) (p : EditProgram) :
    (p.run d).1.document.caret.IsProper := by
  induction p generalizing d with
  | finish ok => exact h
  | perform c next ih => exact ih _ _ (isProper_run h c)

theorem caret_commit (d : Draft) : d.commit.caret = d.document.caret := by
  rw [commit]
  split <;> rfl

end Draft

namespace Document

/-- No event leaves a selection of nothing. -/
theorem isProper_handle {d : Document} (h : d.caret.IsProper) (e : DocumentEvent) :
    (d.handle e).caret.IsProper := by
  cases e with
  | block p =>
    have hrun := Draft.isProper_runProgram (d := .ofDocument d) h p
    rw [handle, block]
    dsimp only
    split
    · rwa [Draft.caret_commit]
    · exact Caret.isProper_clamp _ _
  | change c indenter s =>
    rw [handle, apply]
    split
    next δ hplan =>
      obtain ⟨draft, draft', cs, happly, hre, -⟩ := exists_drafts_eq hplan indenter s
      rw [commit, happly]
      dsimp only
      rw [hre]
      dsimp only
      rw [Draft.caret_commit]
      exact Caret.isProper_clamp _ ⟨0, _⟩
    next => exact h
  | undo =>
    rw [handle, undo?]
    split
    · exact h
    · exact Caret.isProper_clamp _ _
  | redo =>
    rw [handle, redo?]
    split
    · exact h
    · exact Caret.isProper_clamp _ _
  | setCursor o => exact h
  | setSelection s => exact Caret.isProper_clamp _ ⟨0, s⟩

/-- **No run of a document leaves a selection of nothing.** -/
theorem isProper_after {d : Document} (h : d.caret.IsProper) (es : List DocumentEvent) :
    (d.after es).caret.IsProper := by
  induction es generalizing d with
  | nil => exact h
  | cons e es ih => exact ih (isProper_handle h e)

theorem isProper_open (path : String) (t : Text) : (Document.open path t).caret.IsProper := by
  intro s hs
  cases hs

end Document

/-! ### Undoing a block -/

/-- **Undoing a block brings text and caret back**, the caret as far as it lies in the text. -/
theorem Draft.Follows.exists_undo?_commit {d : Draft} {start : Document} (h : d.Follows start)
    (hmade : d.made ≠ []) : ∃ d', d.commit.undo? = some d' ∧ d'.text = start.text ∧
      d'.caret = start.caret.clamp start.text.length := by
  have htext : Replacement.revert d.text d.made.reverse = start.text := by
    rw [← h.replay_eq]
    exact Replacement.revert_replay h.fits
  rw [Draft.commit, if_neg hmade, Document.undo?, History.push]
  refine ⟨_, rfl, htext, ?_⟩
  rw [← h.before_eq, ← htext]
  rfl

/-! ### The caret through a whole change -/

namespace Document

variable {d d' : Document} {c : FileChange} {δ : Delta} {indenter : IndentStyle} {s : Settings}
  {out : Outcome}

/-- A character that a change set does not destroy is found where its delta has moved it. -/
theorem getElem?_applyTo (hplan : d.plan c = .ok δ) (ht : d.text.length ≤ lastOffset)
    (hout : (δ.applyTo d.text).length ≤ lastOffset) {o : Nat} (ho : o < d.text.length)
    (hkept : ¬∃ ch ∈ c.changes.changes, ch.Destroys o) :
    (δ.applyTo d.text)[δ.mapOffset o]? = d.text[o]? := by
  have hchanges := plan_changes_of_plan_eq_ok hplan
  have hfits := ChangeSet.fits_of_plan_eq_ok hchanges
  have huncovered : ¬Delta.Covers δ.edits o := by
    rw [← Delta.covers_map_unlink, ChangeSet.eq_ofExchanges_of_plan_eq_ok hchanges,
      Delta.map_unlink_ofExchanges, ChangeSet.covers_exchanges ho]
    exact hkept
  rw [ChangeSet.mapOffset_eq hchanges ht hout (Nat.le_of_lt ho), Delta.applyTo,
    ← List.nil_append (Delta.applyFrom d.text 0 δ.edits)]
  exact Delta.getElem?_placeFrom hfits.clearFrom (Nat.zero_le _) ho huncovered

/-- Lines get their indentation from the top of the text down. -/
theorem pairwise_linesToReindent (t : Text) (δ : Delta) (requested : List Span) :
    (linesToReindent t δ requested).Pairwise (· < ·) :=
  List.pairwise_lt_range.filter _

/-- New indentation after a delta moves a character along, when it does not stand at the blanks of a
line that is changed. -/
theorem getElem?_reindentAfter {draft draft' : Draft} {cs : List IndentChange} {o : Nat}
    (h : reindentAfter draft δ c indenter s = (draft', .ok cs))
    (ho : ∀ ch ∈ cs, ¬Text.IsAtIndentation draft.text ch.line o) :
    draft'.text[IndentChange.mapOffsetAll cs o]? = draft.text[o]? := by
  rw [reindentAfter] at h
  split at h
  · rw [Draft.reindent?_eq_reindent] at h
    cases h
    exact Draft.getElem?_reindent (pairwise_linesToReindent _ _ _) ho
  · cases h
    rfl

/-- **The cursor follows its character through a change, and undoing the change puts the caret
back.**  The character at the cursor is one that the change set does not destroy, and right after
the delta it stands neither at the start of a line whose indentation changes then nor among the
blanks that open one.  The texts are such that 64-bit offsets can address them.  The caret comes
back when the change was recorded and the selection lay in the text. -/
theorem apply_keeps_caret {path : String} {t : Text} {es : List DocumentEvent}
    (hrun : d = (Document.open path t).after es) (hcursor : d.cursor < d.text.length)
    (hplan : d.plan c = .ok δ) (happly : d.apply c indenter s = (d', .ok out)) :
    (d.text.length ≤ lastOffset → (δ.applyTo d.text).length ≤ lastOffset →
      (¬∃ ch ∈ c.changes.changes, ch.Destroys d.cursor) →
      (∀ line ∈ out.reindentedLines,
        ¬Text.IsAtIndentation (δ.applyTo d.text) line (δ.mapOffset d.cursor)) →
      d'.text[out.cursor]? = some d.text[d.cursor] ∧ d'.cursor = out.cursor) ∧
    ((∀ sel, d.selection = some sel → sel.stop ≤ d.text.length) → d'.history ≠ d.history →
      ∃ d'', d'.undo? = some d'' ∧ d''.text = d.text ∧ d''.cursor = d.cursor ∧
        d''.selection = d.selection) := by
  obtain ⟨draft, draft', cs, hdelta, hre, htext, -, hfollows⟩ := exists_drafts_eq hplan indenter s
  -- what the change leaves is a draft with the mapped caret, committed
  rw [apply, hplan] at happly
  dsimp only at happly
  rw [commit, hdelta] at happly
  dsimp only at happly
  rw [hre] at happly
  dsimp only at happly
  obtain ⟨rfl, hok⟩ := Prod.mk.inj happly
  obtain rfl := Except.ok.inj hok
  constructor
  · intro ht hout hkept haway
    dsimp only at haway ⊢
    have hmapped : draft.text[δ.mapOffset d.cursor]? = some d.text[d.cursor] := by
      rw [htext, getElem?_applyTo hplan ht hout hcursor hkept, List.getElem?_eq_getElem hcursor]
    have hmoved : draft'.text[IndentChange.mapOffsetAll cs (δ.mapOffset d.cursor)]?
        = some d.text[d.cursor] := by
      rw [← hmapped]
      refine getElem?_reindentAfter hre fun ch hch => ?_
      rw [htext]
      exact haway ch.line (List.mem_map_of_mem hch)
    have hin := (List.getElem?_eq_some_iff.1 hmoved).1
    refine ⟨?_, ?_⟩
    · rw [Draft.text_commit]
      exact hmoved
    · rw [cursor, Draft.caret_commit]
      exact Nat.min_eq_left (Nat.le_of_lt hin)
  · intro hselection hrecorded
    have hend := (hfollows.setCursor (mapCaret δ cs d.caret).cursor).setSelection
      (mapCaret δ cs d.caret).selection
    have hmade : draft'.made ≠ [] := by
      intro hnil
      refine hrecorded ?_
      rw [Draft.commit, if_pos hnil]
      exact hfollows.history_eq
    have hproper : d.caret.IsProper := by
      rw [hrun]
      exact isProper_after (isProper_open path t) es
    obtain ⟨d'', hundo, htext', hcaret⟩ := hend.exists_undo?_commit hmade
    rw [Caret.clamp_eq_self hproper (Nat.le_of_lt hcursor) hselection] at hcaret
    exact ⟨d'', hundo, htext', congrArg Caret.cursor hcaret, congrArg Caret.selection hcaret⟩

/-- Braces are put around a statement, which is indented then; the cursor stays at its end. -/
theorem apply_keeps_caret_of_braces :
    let d := (Document.open "a.c" "if (a)\nb;\nc;".toList).after
      [.setSelection (some ⟨7, 9⟩), .setCursor 8]
    let braces := [.insert 6 " \x7b".toList, .insert 9 "\n\x7d".toList]
    let c : FileChange := { changes := ChangeSet.empty.recordAll braces, reindent := [⟨7, 9⟩] }
    ∃ d' out d'', d.apply c {} {} = (d', .ok out) ∧ out.reindentedLines = [1] ∧
      d'.text = "if (a) \x7b\n    b;\n\x7d\nc;".toList ∧ d'.text[out.cursor]? = some ';' ∧
      d'.undo? = some d'' ∧ d''.text = d.text ∧ d''.cursor = 8 ∧
      d''.selection = some ⟨7, 9⟩ := by
  intro d braces c
  have hplan : d.plan c = .ok (.ofExchanges d.text (c.changes.exchanges d.text)) := by decide
  obtain ⟨d', out, happly⟩ : ∃ d' out, d.apply c {} {} = (d', .ok out) := by
    obtain ⟨d', out, hcommit, -⟩ := exists_commit_eq hplan {} {}
    refine ⟨d', out, ?_⟩
    rw [apply, hplan]
    exact hcommit
  have hlines : (d.apply c {} {}).2.toOption.map (·.reindentedLines) = some [1] := by
    decide +kernel
  have htext : (d.apply c {} {}).1.text = "if (a) \x7b\n    b;\n\x7d\nc;".toList := by
    decide +kernel
  have hrecorded : (d.apply c {} {}).1.history ≠ d.history := by decide +kernel
  rw [happly] at hlines htext hrecorded
  have hlines : out.reindentedLines = [1] := Option.some.inj hlines
  obtain ⟨hfollows, hback⟩ := apply_keeps_caret rfl (by decide +kernel) hplan happly
  have haway : ∀ line ∈ out.reindentedLines, ¬Text.IsAtIndentation
      (Delta.applyTo (.ofExchanges d.text (c.changes.exchanges d.text)) d.text) line
      (Delta.mapOffset (.ofExchanges d.text (c.changes.exchanges d.text)) d.cursor) := by
    rw [hlines]
    decide +kernel
  have hcharacter := (hfollows (by decide +kernel) (by decide +kernel) (by decide +kernel) haway).1
  obtain ⟨d'', hundo, htext'', hcursor, hselection⟩ := hback (by decide +kernel) hrecorded
  exact ⟨d', out, d'', happly, hlines, htext, hcharacter, hundo, htext'', hcursor, hselection⟩

end Document

end Mend
