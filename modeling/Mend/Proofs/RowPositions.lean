import Mend.Proofs.IncludeLines

/-!
# Offsets and their rows

An offset of a text lies on a row: between its start and its end, where the newline stands.  So the
row and the column of an offset lead back to it.  The other way round, a column that points past the
end of its row leads to the end.  But the column is added to the start of the row before the sum is
cut to the row.  A column so large that the sum passes the largest offset leads to a row before.

Places for generated code count rows and columns from one, and are turned into offsets the same way.

## Main results

* `Text.rowStart_succ`, `Text.rowStart_eq_iff` — rows start behind newlines.
* `Text.rowOf_bounds` — **an offset lies on its row.**
* `Text.rowOffset_rowPosition` — **the row and the column of an offset lead back to it.**
* `Text.rowPosition_rowOffset`, `Text.rowPosition_rowOffset_lt` — what the offset of a row and a
  column leads back to, with a sum that is an offset and with one that is not.
* `ParsedFile.rows_hold_offsets` — **rows and columns stand for offsets** just if their sum is an
  offset, and so do the places for generated code.
-/

namespace Mend

namespace Text

variable {t : Text} {row o o' : Nat}

/-- Behind the last row no newline stands. -/
theorem flatMap_append_last (separator : Text) {rs : List Text} {r : Text} :
    rs.flatMap (· ++ separator) ++ r = join separator (rs ++ [r]) := by
  induction rs with
  | nil => rfl
  | cons s rs ih =>
    have hjoin : join separator (s :: (rs ++ [r])) =
        s ++ separator ++ join separator (rs ++ [r]) := by
      cases rs <;> rfl
    rw [List.flatMap_cons, List.append_assoc, ih, List.cons_append, hjoin]

/-- The first row starts with the text. -/
@[simp] theorem rowStart_zero (t : Text) : rowStart t 0 = 0 := rfl

/-- A row starts behind the newline of the row before it. -/
theorem rowStart_succ (h : row + 1 < rowCount t) :
    rowStart t (row + 1) = rowStart t row + rowLength t row + 1 := by
  have hlt : row < rowCount t := Nat.lt_of_succ_lt h
  rw [rowStart_of_lt h, rowStart_of_lt hlt, rowLength, rowsBefore, rowsBefore, List.take_add_one,
    List.flatMap_append, List.getElem?_eq_getElem (rowCount_eq_length t ▸ hlt), Option.toList_some,
    List.flatMap_singleton]
  simp only [List.length_append, List.length_singleton, Option.getD_some]
  omega

/-- Rows stand in the order of their starts. -/
theorem rowStart_mono {row' : Nat} (hle : row ≤ row') (h : row' < rowCount t) :
    rowStart t row ≤ rowStart t row' := by
  induction row', hle using Nat.le_induction with
  | base => exact Nat.le_refl _
  | succ row' _ ih =>
    rw [rowStart_succ h]
    exact Nat.le_trans (ih (Nat.lt_of_succ_lt h)) (by omega)

/-- The last row ends with the text. -/
theorem rowEnd_of_last (h : row + 1 = rowCount t) :
    rowStart t row + rowLength t row = t.length := by
  have hrow : row < rowCount t := Nat.lt_of_succ_le (Nat.le_of_eq h)
  rw [rowCount_eq_length] at h
  have hlt : row < (rows t).length := Nat.lt_of_succ_le (Nat.le_of_eq h)
  have hsplit : (rows t).take row ++ [(rows t)[row]] = rows t := by
    rw [List.take_append_getElem]
    exact List.take_of_length_le (Nat.le_of_eq h.symm)
  have htext : ((rows t).take row).flatMap (· ++ ['\n']) ++ (rows t)[row] = t := by
    rw [flatMap_append_last, hsplit, join_rows]
  rw [rowStart_of_lt hrow, rowLength, List.getElem?_eq_getElem hlt, Option.getD_some, rowsBefore,
    ← List.length_append, htext]

/-- As many newlines stand before the end of a row as before its start. -/
theorem rowOf_rowEnd (h : row < rowCount t) :
    rowOf t (rowStart t row + rowLength t row) = row := by
  have hlt : row < (rows t).length := rowCount_eq_length t ▸ h
  have hprefix := prefix_join ['\n'] hlt
  rw [join_rows, ← rowsBefore] at hprefix
  have htake : t.take (rowStart t row + rowLength t row) = rowsBefore t row ++ (rows t)[row] := by
    rw [rowStart_of_lt h, rowLength, List.getElem?_eq_getElem hlt, Option.getD_some,
      ← List.length_append]
    exact (List.prefix_iff_eq_take.1 hprefix).symm
  have hrow : (rows t)[row].count '\n' = 0 :=
    List.count_eq_zero.2 (newline_not_mem_of_mem_rows (List.getElem_mem hlt))
  have hstart : (rowsBefore t row).count '\n' = row := by
    rw [← take_rowStart h, ← rowOf_eq]
    exact rowOf_rowStart h
  rw [rowOf_eq, htake, List.count_append, hrow, hstart, Nat.add_zero]

/-- **An offset lies on its row.** -/
theorem rowOf_bounds (ho : o ≤ t.length) : rowStart t (rowOf t o) ≤ o ∧
    o ≤ rowStart t (rowOf t o) + rowLength t (rowOf t o) := by
  have hlt := rowOf_lt_rowCount t o
  constructor
  · by_contra hbefore
    -- the offset would lie on the row before, or there is none
    cases hrow : rowOf t o with
    | zero =>
      rw [hrow, rowStart_zero] at hbefore
      exact hbefore (Nat.zero_le o)
    | succ row =>
      rw [hrow] at hbefore hlt
      rw [rowStart_succ hlt] at hbefore
      have hmono : rowOf t o ≤ rowOf t (rowStart t row + rowLength t row) :=
        rowOf_mono t (by omega)
      rw [rowOf_rowEnd (Nat.lt_of_succ_lt hlt), hrow] at hmono
      exact absurd hmono (Nat.not_succ_le_self row)
  · by_contra hbehind
    rcases Nat.lt_or_eq_of_le (Nat.succ_le_of_lt hlt) with hnext | hlast
    · -- the next row would have started
      have hmono : rowOf t (rowStart t (rowOf t o + 1)) ≤ rowOf t o :=
        rowOf_mono t (by rw [rowStart_succ hnext]; omega)
      rw [rowOf_rowStart hnext] at hmono
      exact absurd hmono (Nat.not_succ_le_self _)
    · rw [rowEnd_of_last hlast] at hbehind
      exact hbehind ho

/-! ### Rows and columns -/

/-- A row stops at its end, before the newline. -/
theorem rowStop_eq (ht : t.length ≤ lastOffset) (h : row < rowCount t) :
    rowStop t row = rowStart t row + rowLength t row := by
  have hcount : rowCount t ≤ t.length + 1 := by
    rw [rowCount_eq]
    exact Nat.succ_le_succ (List.count_le_length ..)
  unfold rowStop
  rcases Nat.lt_or_eq_of_le (show row + 1 ≤ lastOffset + 1 by omega) with hlt | hlast
  · rw [wrapOffset_of_le (Nat.le_of_lt_succ hlt)]
    rcases Nat.lt_or_eq_of_le (Nat.succ_le_of_lt h) with hnext | hend
    · -- the table tells where the next row starts
      have hentry : (rowStarts t)[row + 1]? = some (rowStart t (row + 1)) := by
        rw [rowStart, List.getElem?_eq_getElem (show row + 1 < (rowStarts t).length from hnext)]
        rfl
      have hsucc := rowStart_succ hnext
      have hle := rowStart_le_length t (row + 1)
      rw [hentry]
      dsimp only
      rw [hsucc, wrapOffset_pred (Nat.succ_pos _), Nat.succ_sub_one]
      exact wrapOffset_of_le (by omega)
    · rw [List.getElem?_eq_none (show (rowStarts t).length ≤ row + 1 from Nat.le_of_eq hend.symm)]
      exact (rowEnd_of_last hend).symm
  · -- the text is as long as a text can be, and each of its characters is a newline
    have hend : row + 1 = rowCount t := by omega
    have hlength : t.length = lastOffset := by omega
    rw [rowEnd_of_last hend, hlast, hlength]
    rfl

/-- The offset of a row and a column, if their sum is an offset. -/
theorem rowOffset_eq (ht : t.length ≤ lastOffset) (h : row < rowCount t) {column : Nat}
    (hsum : rowStart t row + column ≤ lastOffset) :
    rowOffset t row column = rowStart t row + min column (rowLength t row) := by
  rw [rowOffset, wrapOffset_of_le hsum, rowStop_eq ht h]
  omega

/-- **The row and the column of an offset lead back to it.** -/
theorem rowOffset_rowPosition (ht : t.length ≤ lastOffset) (ho : o ≤ t.length) :
    rowOffset t (rowPosition t o).1 (rowPosition t o).2 = o := by
  obtain ⟨hstart, hstop⟩ := rowOf_bounds ho
  have hmin : min o t.length = o := Nat.min_eq_left ho
  unfold rowPosition
  dsimp only
  rw [hmin, rowOffset_eq ht (rowOf_lt_rowCount t o) (by omega)]
  omega

/-- What the offset of a row and a column leads back to: the same, but for a column past the end of
the row. -/
theorem rowPosition_rowOffset (ht : t.length ≤ lastOffset) (h : row < rowCount t) {column : Nat}
    (hsum : rowStart t row + column ≤ lastOffset) :
    rowPosition t (rowOffset t row column) = (row, min column (rowLength t row)) := by
  have hin : min (rowOffset t row column) t.length = rowOffset t row column :=
    Nat.min_eq_left (rowOffset_le_length h column)
  have heq := rowOffset_eq ht h hsum
  have hrow : rowOf t (rowOffset t row column) = row := by
    rw [heq]
    refine Nat.le_antisymm ?_ ?_
    · have hmono := rowOf_mono t
        (Nat.add_le_add_left (Nat.min_le_right column (rowLength t row)) (rowStart t row))
      rwa [rowOf_rowEnd h] at hmono
    · have hmono := rowOf_mono t
        (Nat.le_add_right (rowStart t row) (min column (rowLength t row)))
      rwa [rowOf_rowStart h] at hmono
  simp only [rowPosition, hin, hrow]
  rw [heq, Nat.add_sub_cancel_left]

/-- A sum that passes the largest offset leads to a row before. -/
theorem rowPosition_rowOffset_lt (ht : t.length ≤ lastOffset) (h : row < rowCount t) {column : Nat}
    (hcolumn : column ≤ lastOffset) (hsum : lastOffset < rowStart t row + column) :
    (rowPosition t (rowOffset t row column)).1 < row := by
  have hstart := rowStart_le_length t row
  have hbefore : rowOffset t row column < rowStart t row :=
    Nat.lt_of_le_of_lt (Nat.min_le_left _ _)
      (wrapOffset_add_lt (Nat.le_trans hstart ht) hcolumn hsum)
  have hin : min (rowOffset t row column) t.length = rowOffset t row column :=
    Nat.min_eq_left (rowOffset_le_length h column)
  simp only [rowPosition, hin]
  by_contra hrow
  -- the row that holds the offset would start behind it
  have hmono : rowStart t row ≤ rowStart t (rowOf t (rowOffset t row column)) :=
    rowStart_mono (Nat.le_of_not_lt hrow) (rowOf_lt_rowCount t _)
  have hbounds := rowOf_bounds (rowOffset_le_length h column)
  omega

/-- **Rows start** at the start of the text and behind newlines, and nowhere else. -/
theorem rowStart_eq_iff :
    (∃ row < rowCount t, rowStart t row = o) ↔ o = 0 ∨ 0 < o ∧ t[o - 1]? = some '\n' := by
  constructor
  · rintro ⟨row, hlt, rfl⟩
    cases row with
    | zero => exact .inl rfl
    | succ row =>
      obtain ⟨front, hfront⟩ := newline_before_rowStart hlt (Nat.succ_pos row)
      have hlength := congrArg List.length hfront
      rw [List.length_append, List.length_singleton,
        List.length_take_of_le (rowStart_le_length t _)] at hlength
      refine .inr ⟨by omega, ?_⟩
      rw [← List.getElem?_take_of_lt (j := rowStart t (row + 1)) (by omega), ← hfront, ← hlength]
      simp
  · rintro (rfl | ⟨hpos, hnewline⟩)
    · have hlt : 0 < rowCount t := Nat.zero_lt_of_lt (rowOf_lt_rowCount t 0)
      exact ⟨0, hlt, rfl⟩
    · obtain ⟨p, rfl⟩ := Nat.exists_eq_succ_of_ne_zero (Nat.ne_of_gt hpos)
      have hnewline : t[p]? = some '\n' := hnewline
      have hin : p < t.length := (List.getElem?_eq_some_iff.1 hnewline).1
      have hrow : rowOf t (p + 1) = rowOf t p + 1 := by
        rw [rowOf_eq, rowOf_eq, List.take_add_one, hnewline, List.count_append]
        rfl
      refine ⟨rowOf t (p + 1), rowOf_lt_rowCount t _, ?_⟩
      refine Nat.le_antisymm (rowOf_bounds hin).1 ?_
      by_contra hbefore
      -- the newline would stand on the row that it ends
      have hmono : rowOf t (rowStart t (rowOf t (p + 1))) ≤ rowOf t p :=
        rowOf_mono t (by omega)
      rw [rowOf_rowStart (rowOf_lt_rowCount t _), hrow] at hmono
      exact Nat.not_succ_le_self _ hmono

end Text

/-! ### Places for generated code -/

namespace InsertionPoint

/-- A place at an offset leads back to it. -/
theorem offsetIn_atOffset {f : ParsedFile} (ht : f.text.length ≤ lastOffset) {o : Nat}
    (ho : o ≤ f.text.length) (before after : String) :
    (atOffset f o before after).offsetIn f.text = o :=
  Text.rowOffset_rowPosition ht ho

theorem isValid_atOffset {f : ParsedFile} (hpath : f.path ≠ "") (o : Nat) (before after : String) :
    (atOffset f o before after).IsValid :=
  ⟨hpath, Nat.succ_pos _, Nat.succ_pos _⟩

end InsertionPoint

namespace ParsedFile

open Text

/-- **Rows and columns stand for offsets.**  The row and the column of an offset lead back to it.  A
row and a column lead to an offset of that row, at that column or, if the row is too short, at its
end, just if the start of the row and the column add up to an offset; if they do not, they lead to a
row before.  A place for generated code counts from one and leads back to its offset too.  Rows
start at the start of the text and behind newlines. -/
theorem rows_hold_offsets (f : ParsedFile) (ht : f.text.length ≤ lastOffset) :
    (∀ o ≤ f.text.length,
        rowOffset f.text (rowPosition f.text o).1 (rowPosition f.text o).2 = o) ∧
      (∀ row < rowCount f.text, ∀ column ≤ lastOffset,
        (rowPosition f.text (rowOffset f.text row column) =
            (row, min column (rowLength f.text row)) ↔
          rowStart f.text row + column ≤ lastOffset) ∧
        (lastOffset < rowStart f.text row + column →
          (rowPosition f.text (rowOffset f.text row column)).1 < row)) ∧
      (∀ o ≤ f.text.length, ∀ before after,
        1 ≤ (InsertionPoint.atOffset f o before after).line ∧
          1 ≤ (InsertionPoint.atOffset f o before after).column ∧
          (InsertionPoint.atOffset f o before after).offsetIn f.text = o) ∧
      ∀ o, (∃ row < rowCount f.text, rowStart f.text row = o) ↔
        o = 0 ∨ 0 < o ∧ f.text[o - 1]? = some '\n' := by
  refine ⟨?_, ?_, ?_, ?_⟩
  · intro o ho
    exact rowOffset_rowPosition ht ho
  · intro row hrow column hcolumn
    have hbefore := rowPosition_rowOffset_lt ht hrow hcolumn
    refine ⟨⟨?_, rowPosition_rowOffset ht hrow⟩, hbefore⟩
    intro heq
    by_contra hsum
    have hlt := hbefore (Nat.lt_of_not_le hsum)
    rw [heq] at hlt
    exact Nat.lt_irrefl row hlt
  · intro o ho before after
    exact ⟨Nat.succ_pos _, Nat.succ_pos _, InsertionPoint.offsetIn_atOffset ht ho before after⟩
  · intro o
    exact rowStart_eq_iff

/-- An empty row, a column far past its end, and the end of the text behind the newline that closes
it. -/
theorem rows_hold_offsets_emptyRow :
    ∃ f, ParsedFile.parse "a.h" 0 "int a;\n\nint b;\n".toList = .ok f ∧
      f.text.length ≤ lastOffset ∧ 15 ≤ f.text.length ∧ 1 < rowCount f.text ∧
      rowOffset f.text (rowPosition f.text 15).1 (rowPosition f.text 15).2 = 15 ∧
      (rowPosition f.text (rowOffset f.text 1 4) = (1, min 4 (rowLength f.text 1)) ↔
        rowStart f.text 1 + 4 ≤ lastOffset) ∧
      rowStart f.text 1 + 4 ≤ lastOffset ∧
      (InsertionPoint.atOffset f 15 "" "").offsetIn f.text = 15 ∧
      ((∃ row < rowCount f.text, rowStart f.text row = 15) ↔
        15 = 0 ∨ 0 < 15 ∧ f.text[15 - 1]? = some '\n') := by
  obtain ⟨f, hf, hlast, hlength, hrow, hsum⟩ :
      ∃ f, ParsedFile.parse "a.h" 0 "int a;\n\nint b;\n".toList = .ok f ∧
        f.text.length ≤ lastOffset ∧ 15 ≤ f.text.length ∧ 1 < rowCount f.text ∧
        rowStart f.text 1 + 4 ≤ lastOffset :=
    exists_of_map_decide (by decide +kernel)
  obtain ⟨hoffset, hcolumn, hplace, hstart⟩ := f.rows_hold_offsets hlast
  exact ⟨f, hf, hlast, hlength, hrow, hoffset 15 hlength, (hcolumn 1 hrow 4 (by decide)).1, hsum,
    (hplace 15 hlength "" "").2.2, hstart 15⟩

/-- On the second row, the largest column leads to the end of the first row. -/
theorem exists_column_before_row :
    ∃ f, ParsedFile.parse "a.cpp" 0 "int a;\nint b;\n".toList = .ok f ∧
      1 < rowCount f.text ∧ rowOffset f.text 1 lastOffset = 6 ∧
      rowPosition f.text (rowOffset f.text 1 lastOffset) = (0, 6) ∧
      (1, min lastOffset (rowLength f.text 1)) = (1, 6) :=
  exists_of_map_decide (by decide +kernel)

end ParsedFile

end Mend
