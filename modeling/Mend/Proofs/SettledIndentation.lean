import Mend.Proofs.IndentedLines

/-!
# Indentation that has come to rest

A run that goes down a text gives every line its indentation and never returns to a line above.
What it does to a line is seen by the lines below it only, so a line keeps what it was given until
the run is over.  A second run finds nothing left to do.

## Main definitions

* `IndentStyle.Settled` — a line to which nothing is left to do.

## Main results

* `IndentStyle.settled_reindentText` — a run down a text settles every line it was told to.
* `Draft.reindent?_reaches_fixpoint` — **lines that got their indentation have it, and giving it to
  them again changes nothing.**
-/

namespace Mend

namespace IndentStyle

open Text

/-- A line to which nothing is left to do. -/
def Settled (indenter style : IndentStyle) (t : Text) (line : Nat) : Prop :=
  indenter.changeFor? style t line = none

instance (indenter style : IndentStyle) (t : Text) (line : Nat) :
    Decidable (Settled indenter style t line) :=
  inferInstanceAs (Decidable (_ = _))

variable {indenter style : IndentStyle} {t : Text} {line : Nat}

/-- Nothing is done to a line that does not exist. -/
theorem settled_of_lineCount_le (h : lineCount t ≤ line) : Settled indenter style t line := by
  have hcontent : lineContent? t line = none := by
    rw [lineContent?, List.getElem?_eq_none h, Option.map_none]
  rw [Settled, changeFor?, hcontent]

/-- A settled line with code has the indentation that it should have. -/
theorem Settled.indentation_eq {content : Text} {columns : Nat}
    (h : Settled indenter style t line) (hcontent : lineContent? t line = some content)
    (hcode : body content ≠ []) (hcolumns : indenter.lineIndent? t line = some columns) :
    indentation content = style.render columns := by
  by_contra hne
  have hfull : ¬(body content).isEmpty = true := by
    rw [List.isEmpty_iff]
    exact hcode
  rw [Settled, changeFor?, hcontent] at h
  dsimp only at h
  rw [if_neg hfull, hcolumns] at h
  dsimp only at h
  rw [if_neg hne] at h
  cases h

/-! ### Runs down a text -/

/-- Lines that the run has passed, and the one it has come to, stay settled. -/
theorem Settled.reindentText {lines : List Nat} (h : Settled indenter style t line)
    (hle : ∀ line' ∈ lines, line ≤ line') :
    Settled indenter style (indenter.reindentText style t lines) line := by
  induction lines generalizing t with
  | nil => exact h
  | cons line' lines ih =>
    have hrest : ∀ line'' ∈ lines, line ≤ line'' := fun l hl => hle l (List.mem_cons_of_mem _ hl)
    rw [IndentStyle.reindentText]
    split
    · exact h
    · rcases hchange : indenter.changeFor? style t line' with _ | ⟨ch, new⟩
      · exact ih h hrest
      · -- nothing is left to do to this line, so it is one below that changes
        have hlt : line < line' := by
          refine Nat.lt_of_le_of_ne (hle line' List.mem_cons_self) ?_
          rintro rfl
          rw [Settled, hchange] at h
          cases h
        refine ih ?_ hrest
        rw [Settled, changeFor?_of_lt hchange hlt]
        exact h

/-- A run down a text settles every line it was told to. -/
theorem settled_reindentText {lines : List Nat} (hlines : lines.Pairwise (· ≤ ·)) :
    ∀ line ∈ lines, Settled indenter style (indenter.reindentText style t lines) line := by
  induction lines generalizing t with
  | nil => exact fun _ h => absurd h List.not_mem_nil
  | cons line lines ih =>
    obtain ⟨hle, hrest⟩ := List.pairwise_cons.1 hlines
    rw [IndentStyle.reindentText]
    split
    next hpast =>
      -- the lines that follow do not exist either
      intro line' hmem
      refine settled_of_lineCount_le (Nat.le_trans hpast ?_)
      rcases List.mem_cons.1 hmem with rfl | hmem
      · exact Nat.le_refl _
      · exact hle line' hmem
    next =>
      rcases hchange : indenter.changeFor? style t line with _ | ⟨ch, new⟩
      · exact List.forall_mem_cons.2 ⟨Settled.reindentText hchange hle, ih hrest⟩
      · exact List.forall_mem_cons.2
          ⟨Settled.reindentText (changeFor?_self hchange) hle, ih hrest⟩

end IndentStyle

namespace Draft

/-- A run over settled lines does nothing. -/
theorem reindent?_of_settled {indenter style : IndentStyle} {d : Draft} {lines : List Nat}
    (h : ∀ line ∈ lines, IndentStyle.Settled indenter style d.text line) :
    d.reindent? indenter style lines = (d, .ok []) := by
  induction lines with
  | nil => rfl
  | cons line lines ih =>
    obtain ⟨hline, hrest⟩ := List.forall_mem_cons.1 h
    rw [reindent?]
    split
    · rfl
    · rw [show indenter.changeFor? style d.text line = none from hline]
      exact ih hrest

/-- **Lines that got their indentation have it, and giving it to them again changes nothing**, be
the style they are indented in the one their nesting is measured with or another. -/
theorem reindent?_reaches_fixpoint (indenter style : IndentStyle) (d : Draft) (lines : List Nat)
    (hlines : lines.Pairwise (· ≤ ·)) :
    ∃ d' cs, d.reindent? indenter style lines = (d', .ok cs) ∧
      (∀ line ∈ lines, ∀ content columns, Text.lineContent? d'.text line = some content →
        Text.body content ≠ [] → indenter.lineIndent? d'.text line = some columns →
        Text.indentation content = style.render columns) ∧
      ∀ again : Draft, again.text = d'.text →
        again.reindent? indenter style lines = (again, .ok []) := by
  obtain ⟨d', cs, hrun, htext⟩ := exists_reindent?_eq indenter style d lines
  have hsettled : ∀ line ∈ lines, IndentStyle.Settled indenter style d'.text line := by
    rw [htext]
    exact IndentStyle.settled_reindentText hlines
  refine ⟨d', cs, hrun, ?_, ?_⟩
  · intro line hmem content columns hcontent hcode hcolumns
    exact (hsettled line hmem).indentation_eq hcontent hcode hcolumns
  · intro again hagain
    refine reindent?_of_settled ?_
    rw [hagain]
    exact hsettled

/-- A block is indented, and its second line again after that. -/
theorem reindent?_reaches_fixpoint_of_block :
    [0, 1, 1, 2].Pairwise (· ≤ ·) ∧
      ∃ d' cs, (ofDocument (.open "a.c" "if (a)\x7b\nb;\n  \x7d".toList)).reindent? {}
          { useTabs := true, tabWidth := 4 } [0, 1, 1, 2] = (d', .ok cs) ∧
        (∀ line ∈ [0, 1, 1, 2], ∀ content columns, Text.lineContent? d'.text line = some content →
          Text.body content ≠ [] →
          IndentStyle.lineIndent? {} d'.text line = some columns →
          Text.indentation content
            = IndentStyle.render { useTabs := true, tabWidth := 4 } columns) ∧
        ∀ again : Draft, again.text = d'.text →
          again.reindent? {} { useTabs := true, tabWidth := 4 } [0, 1, 1, 2] = (again, .ok []) :=
  ⟨by decide, reindent?_reaches_fixpoint _ _ _ _ (by decide)⟩

end Draft

end Mend
