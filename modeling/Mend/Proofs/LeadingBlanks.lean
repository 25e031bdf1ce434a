import Mend.Proofs.IndentedLines

/-!
# What new indentation leaves alone

A run that gives lines their indentation looks lines up by their numbers while it changes the text
under them.  This goes well because every change keeps the lines: it puts other blanks before the
code of one of them, no break is lost, and no carriage return comes to stand before a line feed.

## Main definitions

* `Text.terminator` — the break that ends a line.
* `IndentStyle.Reblanks` — one line is another with blanks of a style before its code.

## Main results

* `IndentStyle.Reblanks.trans` — blanks that are exchanged twice are exchanged.
* `Draft.getElem?_lines_reindent` — what a run makes of each line.
* `Draft.reindent?_changes_leading_blanks_only` — **new indentation goes well, and changes the
  blanks that open the lines it was asked for, and nothing else.**
-/

namespace Mend

namespace Text

/-! ### The break that ends a line -/

/-- The break that ends a line: a carriage return with a line feed, or one of the characters that
end a line by themselves.  The last line of a text has none. -/
def terminator (l : Text) : Text :=
  if ['\r', '\n'] <:+ l then ['\r', '\n'] else l.getLast?.toList.filter isLineBreak

/-- Code does not stand within a carriage return and a line feed. -/
theorem suffix_append_cons_iff (ws rest : Text) {c : Char} (hc : isBlank c = false) :
    ['\r', '\n'] <:+ ws ++ c :: rest ↔ ['\r', '\n'] <:+ c :: rest := by
  refine ⟨fun h => ?_, fun h => h.trans (List.suffix_append ws _)⟩
  cases rest with
  | cons d rest => exact List.suffix_of_suffix_length_le h (List.suffix_append ws _) (by simp)
  | nil =>
    -- then the code would be the line feed
    exfalso
    obtain ⟨front, hfront⟩ := h
    have hlast := congrArg List.getLast? hfront
    rw [List.getLast?_append_of_ne_nil _ (List.cons_ne_nil _ _), List.getLast?_concat] at hlast
    obtain rfl : '\n' = c := Option.some.inj hlast
    exact absurd hc (by decide)

/-- The blanks before the code of a line have no part in the break after it. -/
theorem terminator_append_cons (ws rest : Text) {c : Char} (hc : isBlank c = false) :
    terminator (ws ++ c :: rest) = terminator (c :: rest) := by
  simp only [terminator, suffix_append_cons_iff ws rest hc,
    List.getLast?_append_of_ne_nil ws (List.cons_ne_nil c rest)]

end Text

open Text

namespace IndentStyle

variable {indenter style : IndentStyle} {t new : Text} {line : Nat} {ch : IndentChange}

/-! ### Lines that differ in the blanks before their code -/

/-- The second of two lines is the first with blanks of a style before its code. -/
structure Reblanks (style : IndentStyle) (l l' : Text) : Prop where
  /-- The line has code. -/
  body_ne_nil : body l ≠ []
  /-- From the code on, the line is what it was. -/
  body_eq : body l' = body l
  /-- It ends with the break that it had. -/
  terminator_eq : terminator l' = terminator l
  /-- The blanks are those of a number of columns. -/
  exists_columns : ∃ columns, indentation l' = style.render columns

/-- Blanks that are exchanged twice are exchanged. -/
theorem Reblanks.trans {l l' l'' : Text} (h : style.Reblanks l l') (h' : style.Reblanks l' l'') :
    style.Reblanks l l'' where
  body_ne_nil := h.body_ne_nil
  body_eq := h'.body_eq.trans h.body_eq
  terminator_eq := h'.terminator_eq.trans h.terminator_eq
  exists_columns := h'.exists_columns

/-- The change of a line puts blanks of the style before its code. -/
theorem exists_reblanks_of_changeFor? (h : indenter.changeFor? style t line = some (ch, new)) :
    ∃ l l', (lines t)[line]? = some l ∧ style.Reblanks l l' ∧
      lines (splice t ⟨ch.start, ch.start + ch.oldLength⟩ new) = (lines t).set line l' := by
  obtain ⟨ws, c, rest, columns, hl, hws, hc, -, rfl, -, rfl⟩ := changeFor?_eq_some h
  have hpad := isPadding_render style columns
  have hnew : ∀ d ∈ style.render columns, isBlank d = true := fun d hd => (hpad d hd).1
  refine ⟨_, _, hl, ?_, lines_splice_indentation hl hws hc hpad⟩
  constructor
  case body_ne_nil => rw [body_append_cons hws hc]; exact List.cons_ne_nil _ _
  case body_eq => rw [body_append_cons hnew hc, body_append_cons hws hc]
  case terminator_eq => rw [terminator_append_cons _ _ hc, terminator_append_cons _ _ hc]
  case exists_columns => exact ⟨columns, indentation_append_cons hnew hc⟩

/-- What the change of a line makes of each line. -/
theorem getElem?_lines_splice_of_changeFor?
    (h : indenter.changeFor? style t line = some (ch, new)) {i : Nat} {l : Text}
    (hl : (lines t)[i]? = some l) :
    ∃ l', (lines (splice t ⟨ch.start, ch.start + ch.oldLength⟩ new))[i]? = some l' ∧
      (l' = l ∨ i = line ∧ style.Reblanks l l') := by
  obtain ⟨l₀, l₁, hl₀, hblanks, hlines⟩ := exists_reblanks_of_changeFor? h
  rw [hlines]
  by_cases hi : i = line
  · subst hi
    obtain rfl : l₀ = l := Option.some.inj (hl₀.symm.trans hl)
    exact ⟨l₁, List.getElem?_set_self (List.getElem?_eq_some_iff.1 hl).1, .inr ⟨rfl, hblanks⟩⟩
  · exact ⟨l, (List.getElem?_set_ne (Ne.symm hi)).trans hl, .inl rfl⟩

end IndentStyle

namespace Draft

variable (indenter style : IndentStyle)

/-! ### What a run makes of each line -/

/-- New indentation keeps the number of lines. -/
theorem lineCount_reindent (d : Draft) (ns : List Nat) :
    lineCount (d.reindent indenter style ns).1.text = lineCount d.text := by
  rw [text_reindent]
  exact IndentStyle.lineCount_reindentText ns

/-- A line is what it was, or it was asked for, is told to be changed, and has blanks of the style
before its code.  The induction is on the lines that are asked for; those that are still to come
find every line under its number. -/
theorem getElem?_lines_reindent (d : Draft) (ns : List Nat) {i : Nat} {l : Text}
    (h : (lines d.text)[i]? = some l) :
    ∃ l', (lines (d.reindent indenter style ns).1.text)[i]? = some l' ∧
      (l' = l ∨ i ∈ ns ∧ i ∈ (d.reindent indenter style ns).2.map IndentChange.line ∧
        style.Reblanks l l') := by
  induction ns generalizing d l with
  | nil => exact ⟨l, h, .inl rfl⟩
  | cons n ns ih =>
    rw [reindent]
    split
    case isTrue => exact ⟨l, h, .inl rfl⟩
    case isFalse =>
      rcases hchange : indenter.changeFor? style d.text n with _ | ⟨ch, new⟩
      case none =>
        obtain ⟨l', hl', hkeeps⟩ := ih d h
        exact ⟨l', hl', hkeeps.imp_right fun hmem => ⟨List.mem_cons_of_mem n hmem.1, hmem.2⟩⟩
      case some =>
        have hline : ch.line = n := IndentStyle.line_of_changeFor? hchange
        obtain ⟨m, hm, hstep⟩ := IndentStyle.getElem?_lines_splice_of_changeFor? hchange h
        rw [← text_exchange] at hm
        obtain ⟨l', hl', hrun⟩ := ih _ hm
        refine ⟨l', hl', ?_⟩
        simp only [List.map_cons, List.mem_cons, hline]
        rcases hstep with rfl | ⟨hi, hfirst⟩
        · exact hrun.imp_right fun hmem => ⟨.inr hmem.1, .inr hmem.2.1, hmem.2.2⟩
        · refine .inr ⟨.inl hi, .inl hi, ?_⟩
          rcases hrun with rfl | ⟨-, -, hagain⟩
          · exact hfirst
          · exact hfirst.trans hagain

/-- **New indentation changes leading blanks only.**  It goes well for every text and all line
numbers, in any order and as often as one likes, and keeps the number of lines.  A line that was
not asked for, or that is blank, stays what it is.  Every line keeps what follows the blanks that
open it, and the break that ends it; if it does change, then it is reported and opens with the
blanks that the style has for a number of columns. -/
theorem reindent?_changes_leading_blanks_only (d : Draft) (ns : List Nat) :
    ∃ d' cs, d.reindent? indenter style ns = (d', .ok cs) ∧
      lineCount d'.text = lineCount d.text ∧
      ∀ i l, (lines d.text)[i]? = some l → ∃ l', (lines d'.text)[i]? = some l' ∧
        (i ∉ ns → l' = l) ∧ (body l = [] → l' = l) ∧
        body l' = body l ∧ terminator l' = terminator l ∧
        (l' ≠ l → i ∈ cs.map IndentChange.line ∧
          ∃ columns, indentation l' = style.render columns) := by
  refine ⟨_, _, reindent?_eq_reindent indenter style d ns,
    lineCount_reindent indenter style d ns, ?_⟩
  intro i l hl
  obtain ⟨l', hl', rfl | ⟨hasked, htold, hblanks⟩⟩ :=
    getElem?_lines_reindent indenter style d ns hl
  case inl =>
    exact ⟨l', hl', fun _ => rfl, fun _ => rfl, rfl, rfl, fun hne => absurd rfl hne⟩
  case inr =>
    refine ⟨l', hl', ?_, ?_, hblanks.body_eq, hblanks.terminator_eq, ?_⟩
    · exact fun hnot => absurd hasked hnot
    · exact fun hnil => absurd hnil hblanks.body_ne_nil
    · exact fun _ => ⟨htold, hblanks.exists_columns⟩

-- a line tabulation ends a line although it is blank, so what follows it is a line of its own
example : IndentStyle.reindentText {} {} "\x7b\r\n\x0b\t\u2003g();\r\n\x7d".toList [2, 1, 0, 2]
    = "\x7b\r\n\x0b    g();\r\n\x7d".toList := by decide +kernel

end Draft

end Mend
