import Mend.Proofs.DocumentRun

/-!
# Giving lines their indentation

The blanks that open a line lie in the text, so exchanging them is never refused.  New indentation
is therefore always given, and what it makes of a text can be told without a draft.

## Main definitions

* `IndentStyle.reindentText` — a text after lines of it got their indentation.

## Main results

* `IndentStyle.changeFor?_inText` — the blanks that a change exchanges lie in the text.
* `Draft.exists_reindent?_eq` — **giving lines their indentation goes well.**
* `Draft.reindent?_eq_reindent` — it is made of exchanges alone.
-/

namespace Mend

/-! ### Lines in their text -/

namespace Text

/-- A line without its newline opens the line. -/
theorem stripNewline_isPrefix (l : Text) : stripNewline l <+: l := by
  unfold stripNewline
  split
  next front hrev =>
    refine ⟨['\r', '\n'], ?_⟩
    rw [← List.reverse_reverse l, hrev]
    simp
  next front _ hrev =>
    refine ⟨['\n'], ?_⟩
    rw [← List.reverse_reverse l, hrev]
    simp
  next => exact List.prefix_refl l

/-- A line lies in its text. -/
theorem lineStart_add_length_le {t l : Text} {line : Nat} (h : (lines t)[line]? = some l) :
    lineStart t line + l.length ≤ t.length := by
  have hline : line < (lines t).length := (List.getElem?_eq_some_iff.1 h).1
  have hget : (lines t)[line] = l := (List.getElem?_eq_some_iff.1 h).2
  have hsplit : ((lines t).take line).flatten ++ (l ++ ((lines t).drop (line + 1)).flatten) = t := by
    rw [← List.flatten_cons, ← hget, List.getElem_cons_drop, ← List.flatten_append,
      List.take_append_drop, flatten_lines]
  have hlength := congrArg List.length hsplit
  simp only [List.length_append] at hlength
  rw [lineStart]
  omega

/-- The blanks that open a line lie in its text. -/
theorem lineStart_add_indentation_le {t content : Text} {line : Nat}
    (h : lineContent? t line = some content) :
    lineStart t line + (indentation content).length ≤ t.length := by
  obtain ⟨l, hl, rfl⟩ := Option.map_eq_some_iff.1 h
  have hline := lineStart_add_length_le hl
  have hblanks : (indentation (stripNewline l)).length ≤ (stripNewline l).length :=
    (List.takeWhile_prefix _).length_le
  have hcontent := (stripNewline_isPrefix l).length_le
  omega

end Text

/-! ### Indentation of a text -/

namespace IndentStyle

/-- What is known of the change that gives a line its indentation: the blanks it exchanges lie in
the text, and it does exchange something. -/
theorem changeFor?_inText {indenter style : IndentStyle} {t new : Text} {line : Nat}
    {c : IndentChange} (h : indenter.changeFor? style t line = some (c, new)) :
    c.start + c.oldLength ≤ t.length ∧ (c.oldLength = 0 → new ≠ []) := by
  unfold changeFor? at h
  split at h
  next => cases h
  next content hcontent =>
    split at h
    next => cases h
    next =>
      split at h
      next => cases h
      next columns =>
        simp only [Option.ite_none_left_eq_some, Option.some.injEq, Prod.mk.injEq] at h
        obtain ⟨hne, rfl, rfl⟩ := h
        -- the new blanks differ from the old ones, so not both are missing
        refine ⟨Text.lineStart_add_indentation_le hcontent, fun hzero hnew => hne ?_⟩
        rw [hnew]
        exact List.eq_nil_of_length_eq_zero hzero

/-- A text after lines of it got their indentation, one after the other.  The first line that does
not exist ends the run. -/
def reindentText (indenter style : IndentStyle) (t : Text) : List Nat → Text
  | [] => t
  | line :: rest =>
    if Text.lineCount t ≤ line then t
    else
      match indenter.changeFor? style t line with
      | none => reindentText indenter style t rest
      | some (c, new) =>
        reindentText indenter style (Text.splice t ⟨c.start, c.start + c.oldLength⟩ new) rest

end IndentStyle

/-! ### Indentation of a draft -/

namespace Draft

/-- The replacement that gives a line its indentation is an exchange. -/
theorem replace?_changeFor? {indenter style : IndentStyle} {d : Draft} {line : Nat}
    {c : IndentChange} {new : Text} (h : indenter.changeFor? style d.text line = some (c, new)) :
    d.replace? ⟨c.start, c.start + c.oldLength⟩ new
      = .ok (d.exchange ⟨c.start, c.start + c.oldLength⟩ new) := by
  obtain ⟨hin, hbusy⟩ := IndentStyle.changeFor?_inText h
  have hidle : ¬(Span.IsEmpty ⟨c.start, c.start + c.oldLength⟩ ∧ new = []) := by
    rintro ⟨hempty, hnew⟩
    have : c.start + c.oldLength ≤ c.start := hempty
    exact hbusy (by omega) hnew
  rw [replace?, if_neg (by simp only; omega), if_neg hidle]

/-- Giving lines their indentation is made of exchanges alone. -/
theorem reindent?_eq_reindent (indenter style : IndentStyle) (d : Draft) (lines : List Nat) :
    d.reindent? indenter style lines
      = ((d.reindent indenter style lines).1, .ok (d.reindent indenter style lines).2) := by
  induction lines generalizing d with
  | nil => rfl
  | cons line lines ih =>
    rw [reindent?, reindent]
    split
    · rfl
    · rcases hchange : indenter.changeFor? style d.text line with _ | ⟨c, new⟩
      · exact ih d
      · simp only [replace?_changeFor? hchange, ih]

theorem text_reindent (indenter style : IndentStyle) (d : Draft) (lines : List Nat) :
    (d.reindent indenter style lines).1.text = indenter.reindentText style d.text lines := by
  induction lines generalizing d with
  | nil => rfl
  | cons line lines ih =>
    rw [reindent, IndentStyle.reindentText]
    split
    · rfl
    · rcases indenter.changeFor? style d.text line with _ | ⟨c, new⟩
      · exact ih d
      · exact ih _

/-- **Giving lines their indentation goes well**, and leaves the text that it should. -/
theorem exists_reindent?_eq (indenter style : IndentStyle) (d : Draft) (lines : List Nat) :
    ∃ d' cs, d.reindent? indenter style lines = (d', .ok cs) ∧
      d'.text = indenter.reindentText style d.text lines :=
  ⟨_, _, reindent?_eq_reindent indenter style d lines, text_reindent indenter style d lines⟩

end Draft

end Mend
