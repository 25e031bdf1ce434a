import Mend.Proofs.SettledIndentation

/-!
# Measured indentation

Indentation is written as tabs and spaces, and the scan of the lines above a line measures it again.
It finds the columns that were asked for: from column zero on, as many tabs as fit lead from one tab
stop to the next, and spaces lead on from there.

So after a run down a whole text the scan does not have to measure.  It could as well be told, for
every line, what the indenter had answered when the run came to it.

## Main definitions

* `IndentStyle.answer?` — what the indenter answers for a line when a run down the text comes to it.
* `Nesting.scanLineAt`, `Nesting.scanAnswered` — reading lines whose indentation is told.

## Main results

* `IndentStyle.columnsOf_render` — **blanks for a number of columns take up that number.**
* `IndentStyle.columnsOf_reindentText` — after a run a line takes up the columns of its answer.
* `Draft.indentation_is_measured_as_answered` — **the scan reads off what the indenter answered.**
-/

namespace Mend

/-! ### Blanks and columns -/

namespace IndentStyle

variable (s : IndentStyle)

/-- A space leads to the next column. -/
theorem foldl_advance_spaces (n column : Nat) :
    (List.replicate n ' ').foldl s.advance column = column + n := by
  induction n generalizing column with
  | zero => rfl
  | succ n ih =>
    rw [List.replicate_succ, List.foldl_cons, ih, advance, if_neg (by decide)]
    omega

/-- A tab leads from one tab stop to the next. -/
theorem foldl_advance_tabs (h : 0 < s.tabWidth) (n stop : Nat) :
    (List.replicate n '\t').foldl s.advance (stop * s.tabWidth) = (stop + n) * s.tabWidth := by
  induction n generalizing stop with
  | zero => rfl
  | succ n ih =>
    have hnext : s.advance (stop * s.tabWidth) '\t' = (stop + 1) * s.tabWidth := by
      rw [advance, if_pos rfl, nextTabStop, Nat.max_eq_left h, Nat.mul_div_cancel stop h]
    rw [List.replicate_succ, List.foldl_cons, hnext, ih]
    congr 1
    omega

/-- **Blanks for a number of columns take up that number**, whatever the style. -/
theorem columnsOf_render (columns : Nat) : s.columnsOf (s.render columns) = columns := by
  unfold columnsOf render
  split
  case isTrue htabs =>
    have hstops := s.foldl_advance_tabs htabs.2 (columns / s.tabWidth) 0
    rw [Nat.zero_mul, Nat.zero_add] at hstops
    rw [List.foldl_append, hstops, foldl_advance_spaces]
    exact Nat.div_add_mod' columns s.tabWidth
  case isFalse => rw [foldl_advance_spaces, Nat.zero_add]

end IndentStyle

/-! ### Runs in two parts -/

namespace IndentStyle

open Text

variable {indenter style : IndentStyle} {t : Text} {line : Nat}

/-- A run over lines that exist goes on with the lines that follow. -/
theorem reindentText_append {ns ns' : List Nat} (h : ∀ line ∈ ns, line < lineCount t) :
    indenter.reindentText style t (ns ++ ns') =
      indenter.reindentText style (indenter.reindentText style t ns) ns' := by
  induction ns generalizing t with
  | nil => rfl
  | cons line ns ih =>
    obtain ⟨hline, hrest⟩ := List.forall_mem_cons.1 h
    rw [List.cons_append, reindentText, reindentText, if_neg (Nat.not_le.2 hline),
      if_neg (Nat.not_le.2 hline)]
    rcases hchange : indenter.changeFor? style t line with _ | ⟨ch, new⟩
    · exact ih hrest
    · refine ih ?_
      rw [lineCount_splice_of_changeFor? hchange]
      exact hrest

/-- What a run does to a line and to lines below it does not change the indentation of the line. -/
theorem lineIndent?_reindentText {ns : List Nat} (hle : ∀ line' ∈ ns, line ≤ line') :
    indenter.lineIndent? (indenter.reindentText style t ns) line = indenter.lineIndent? t line := by
  induction ns generalizing t with
  | nil => rfl
  | cons line' ns ih =>
    obtain ⟨hline, hrest⟩ := List.forall_mem_cons.1 hle
    rw [reindentText]
    split
    · rfl
    · rcases hchange : indenter.changeFor? style t line' with _ | ⟨ch, new⟩
      · exact ih hrest
      · exact (ih hrest).trans (lineIndent?_splice hchange hline)

/-! ### What the indenter answers -/

/-- What the indenter answers for a line when a run down the text comes to it: the lines above have
their indentation by then. -/
def answer? (indenter style : IndentStyle) (t : Text) (line : Nat) : Option Nat :=
  indenter.lineIndent? (indenter.reindentText style t (List.range line)) line

/-- The answer still holds when the run is over. -/
theorem answer?_eq (h : line < lineCount t) : indenter.answer? style t line =
    indenter.lineIndent? (indenter.reindentText style t (List.range (lineCount t))) line := by
  obtain ⟨n, hn⟩ := Nat.exists_eq_add_of_le (Nat.le_of_lt h)
  rw [hn, List.range_add, reindentText_append]
  · refine (lineIndent?_reindentText ?_).symm
    intro line' hmem
    obtain ⟨i, -, rfl⟩ := List.mem_map.1 hmem
    exact Nat.le_add_right line i
  · intro line' hmem
    exact Nat.lt_trans (List.mem_range.1 hmem) h

/-- After a run down the text, in the style that its indentation is measured in, a line with code
takes up the columns that the indenter answered for it. -/
theorem columnsOf_reindentText {s : IndentStyle} {content : Text} {columns : Nat}
    (hcontent : lineContent? (s.reindentText s t (List.range (lineCount t))) line = some content)
    (hcode : body content ≠ []) (hline : line < lineCount t)
    (hanswer : s.answer? s t line = some columns) :
    s.columnsOf (indentation content) = columns := by
  have hsettled : Settled s s (s.reindentText s t (List.range (lineCount t))) line :=
    settled_reindentText (List.pairwise_lt_range.imp Nat.le_of_lt) line (List.mem_range.2 hline)
  rw [answer?_eq hline] at hanswer
  rw [hsettled.indentation_eq hcontent hcode hanswer, columnsOf_render]

end IndentStyle

/-! ### Reading lines whose indentation is told -/

namespace Nesting

open Text

/-- Reads a line that is indented by a number of columns, whatever its blanks are. -/
def scanLineAt (style : IndentStyle) (lineIndent : Nat) (n : Nesting) (line : Text) : Nesting :=
  let code := line.body
  if (!n.inComment && code.head? == some '#') || code.isEmpty then n
  else
    let after := readChars style lineIndent (if n.inComment then .comment else .code) 0 n line
    if after.inComment && n.inComment then after
    else
      let after := after.extend ' '
      { after with
        lastIndent := lineIndent
        pendingHeader := after.parens.isEmpty && after.head.trim.isControlHeader }

/-- A line is read with the indentation that is measured off its blanks. -/
theorem scanLine_eq (style : IndentStyle) (n : Nesting) (line : Text) :
    scanLine style n line = scanLineAt style (style.columnsOf line.indentation) n line := rfl

/-- The indentation of a blank line is not looked at. -/
theorem scanLineAt_of_blank {style : IndentStyle} {line : Text} (h : body line = [])
    (lineIndent : Nat) (n : Nesting) : scanLineAt style lineIndent n line = n := by
  unfold scanLineAt
  rw [h]
  simp

/-- Reads lines from the top of a text, each with the columns that are answered for its number.  A
line without an answer is measured. -/
def scanAnswered (style : IndentStyle) (answers : Nat → Option Nat) (ls : List Text) : Nesting :=
  ls.zipIdx.foldl (fun n l =>
    scanLineAt style ((answers l.2).getD (style.columnsOf l.1.indentation)) n l.1) {}

/-- Lines that take up the columns of their answers are read as if they were measured. -/
theorem scanLines_eq_scanAnswered {style : IndentStyle} {answers : Nat → Option Nat}
    {ls : List Text} (h : ∀ i line columns, ls[i]? = some line → body line ≠ [] →
      answers i = some columns → style.columnsOf (indentation line) = columns) :
    scanLines style ls = scanAnswered style answers ls := by
  unfold scanLines scanAnswered
  conv_lhs => rw [← List.zipIdx_map_fst 0 ls, List.foldl_map]
  refine List.foldl_ext _ _ _ ?_
  rintro n ⟨line, i⟩ hmem
  have hline : ls[i]? = some line := List.mk_mem_zipIdx_iff_getElem?.1 hmem
  rw [scanLine_eq]
  by_cases hblank : body line = []
  · rw [scanLineAt_of_blank hblank, scanLineAt_of_blank hblank]
  · cases hanswer : answers i with
    | none => rfl
    | some columns => rw [h i line columns hline hblank hanswer, Option.getD_some]

end Nesting

/-! ### Measured indentation after a run -/

namespace Draft

open Text

/-- **The scan reads off what the indenter answered.**  Blanks for a number of columns take up that
number, in every style.  So when all lines of a text have got their indentation in the style that it
is measured in, a line with code takes up the columns that the indenter answered for it, and the lines
above any line are read as if the answers had been told. -/
theorem indentation_is_measured_as_answered (s : IndentStyle) (d : Draft) :
    (∀ columns, s.columnsOf (s.render columns) = columns) ∧
      ∃ d' cs, d.reindent? s s (List.range (lineCount d.text)) = (d', .ok cs) ∧
        (∀ line content columns, lineContent? d'.text line = some content → body content ≠ [] →
          s.answer? s d.text line = some columns → s.columnsOf (indentation content) = columns) ∧
        ∀ line, Nesting.scanLines s (((lines d'.text).take line).map stripNewline) =
          Nesting.scanAnswered s (s.answer? s d.text)
            (((lines d'.text).take line).map stripNewline) := by
  obtain ⟨d', cs, hrun, htext⟩ := exists_reindent?_eq s s d (List.range (lineCount d.text))
  have hmeasured : ∀ line content columns, lineContent? d'.text line = some content →
      body content ≠ [] → s.answer? s d.text line = some columns →
      s.columnsOf (indentation content) = columns := by
    intro line content columns hcontent hcode hanswer
    have hline : line < lineCount d'.text := by
      obtain ⟨l, hl, -⟩ := Option.map_eq_some_iff.1 hcontent
      exact (List.getElem?_eq_some_iff.1 hl).1
    rw [htext] at hcontent
    rw [htext, IndentStyle.lineCount_reindentText] at hline
    exact IndentStyle.columnsOf_reindentText hcontent hcode hline hanswer
  refine ⟨s.columnsOf_render, d', cs, hrun, hmeasured, ?_⟩
  intro line
  refine Nesting.scanLines_eq_scanAnswered ?_
  intro i content columns hget
  refine hmeasured i content columns ?_
  rw [List.getElem?_map, List.getElem?_take] at hget
  split at hget
  · exact hget
  · cases hget

/-- A body two levels deep, indented with tabs that are narrower than a level. -/
theorem indentation_is_measured_as_answered_nested :
    let s : IndentStyle := { useTabs := true, tabWidth := 3 }
    let d := ofDocument (.open "a.c" "\x7b\nif (a)\nb;\n\x7d".toList)
    s.render 8 = "\t\t  ".toList ∧ s.answer? s d.text 2 = some 8 ∧
      ∃ d' cs, d.reindent? s s (List.range (lineCount d.text)) = (d', .ok cs) ∧
        (∀ content, lineContent? d'.text 2 = some content → body content ≠ [] →
          s.columnsOf (indentation content) = 8) ∧
        Nesting.scanLines s (((lines d'.text).take 3).map stripNewline) =
          Nesting.scanAnswered s (s.answer? s d.text)
            (((lines d'.text).take 3).map stripNewline) := by
  intro s d
  have hanswer : s.answer? s d.text 2 = some 8 := by decide +kernel
  obtain ⟨-, d', cs, hrun, hmeasured, hread⟩ := indentation_is_measured_as_answered s d
  refine ⟨by decide, hanswer, d', cs, hrun, ?_, hread 3⟩
  intro content hcontent hcode
  exact hmeasured 2 content 8 hcontent hcode hanswer

end Draft

end Mend
