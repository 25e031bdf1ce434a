import Mend.Text.Lines

/-!
# Rows of a parsed text

A parsed text falls into *rows*, which end with a line feed and with nothing else.  Rows are what
places in code are told by; the lines of a live text, which other characters end too, are kept
apart from them.

A parsed text keeps a table of the offsets at which its rows start.  The row of an offset is found
by the first entry behind the offset, and the end of a row by the entry of the row after it.  An
offset told by a row and a column is a 64-bit sum, cut to the end of the row once it has been made.

## Main definitions

* `Text.rows` — the rows of a text, without the line feeds.
* `Text.rowStarts` — the table of their starts.
* `Text.rowOf`, `Text.rowStart` — from an offset to its row, and from a row to its offset.
* `Text.rowPosition`, `Text.rowOffset` — offsets against rows and columns.

## Main results

* `Text.rowCount_eq`, `Text.rowOf_eq`, `Text.rowStart_of_lt` — the table told by the rows and the
  line feeds of the text.
-/

namespace Mend

namespace Text

/-- The rows of a text, without the line feeds between them. -/
def rows : Text → List Text
  | [] => [[]]
  | c :: rest => if c = '\n' then [] :: rows rest else pushChar c (rows rest)

theorem rows_ne_nil (t : Text) : rows t ≠ [] := by
  fun_cases rows t <;> simp

/-- A text is its rows with line feeds between them. -/
theorem join_rows (t : Text) : join ['\n'] (rows t) = t := by
  induction t with
  | nil => rfl
  | cons c rest ih =>
    rw [rows]
    split
    next h =>
      subst h
      cases hr : rows rest with
      | nil => exact absurd hr (rows_ne_nil rest)
      | cons r rs => rw [hr] at ih; simp [join, ih]
    next =>
      cases hr : rows rest with
      | nil => rw [hr] at ih; simp [pushChar, join] at ih ⊢; exact ih
      | cons r rs =>
        rw [hr] at ih
        cases rs with
        | nil => simpa [pushChar, join] using ih
        | cons s ss => simpa [pushChar, join] using ih

/-! ### The table of rows -/

/-- The offsets behind the line feeds of a text that stands at `o`. -/
def rowStartsFrom (o : Nat) : Text → List Nat
  | [] => []
  | c :: rest =>
    if c = '\n' then (o + 1) :: rowStartsFrom (o + 1) rest else rowStartsFrom (o + 1) rest

/-- The offsets at which the rows of a text start. -/
def rowStarts (t : Text) : List Nat := 0 :: rowStartsFrom 0 t

/-- The number of rows. -/
def rowCount (t : Text) : Nat := (rowStarts t).length

/-- The row that holds an offset: the one before the first row that starts behind the offset. -/
def rowOf (t : Text) (o : Nat) : Nat := ((rowStarts t).takeWhile (· ≤ o)).length - 1

/-- The offset at which a row starts; a row that does not exist starts at the end. -/
def rowStart (t : Text) (row : Nat) : Nat := (rowStarts t)[row]?.getD t.length

/-- The offset at which a row stops, before the line feed that ends it. -/
def rowStop (t : Text) (row : Nat) : Nat :=
  match (rowStarts t)[wrapOffset (row + 1)]? with
  | some next => wrapOffset (next + lastOffset)
  | none => t.length

/-- The row and the column of an offset; an offset past the end stands for the end. -/
def rowPosition (t : Text) (o : Nat) : Nat × Nat :=
  let o := min o t.length
  (rowOf t o, o - rowStart t (rowOf t o))

/-- The offset of a row and a column; an offset past the row stands for its end.  The offset is
summed up first: a column that carries it past the largest offset leads back to a row before. -/
def rowOffset (t : Text) (row column : Nat) : Nat :=
  let start := rowStart t row
  min (wrapOffset (start + column)) (max (rowStop t row) start)

/-! ### The table and the rows -/

/-- The number of characters in a row; zero when there is no such row. -/
def rowLength (t : Text) (row : Nat) : Nat := ((rows t)[row]?.getD []).length

/-- The rows before a row, each with its line feed. -/
def rowsBefore (t : Text) (row : Nat) : Text := ((rows t).take row).flatMap (· ++ ['\n'])

/-- As many entries of the table are not behind `o'` as line feeds stand before `o'`. -/
theorem length_takeWhile_rowStartsFrom (o o' : Nat) (t : Text) :
    ((rowStartsFrom o t).takeWhile (· ≤ o')).length = (t.take (o' - o)).count '\n' := by
  induction t generalizing o with
  | nil => simp [rowStartsFrom]
  | cons c rest ih =>
    unfold rowStartsFrom
    have hrest := ih (o + 1)
    rcases Nat.lt_or_ge o o' with hlt | hge
    · have htake : o' - o = o' - (o + 1) + 1 := by omega
      rw [htake, List.take_succ_cons]
      split
      next hc =>
        subst hc
        rw [List.takeWhile_cons_of_pos (by simp; omega), List.length_cons, hrest,
          List.count_cons_self]
      next hc => rw [hrest, List.count_cons_of_ne hc]
    · -- no entry is so small
      have htake : o' - (o + 1) = 0 := by omega
      rw [htake] at hrest
      rw [Nat.sub_eq_zero_of_le hge]
      split
      next => rw [List.takeWhile_cons_of_neg (by simp; omega)]; rfl
      next => exact hrest

/-- The entries of the table, told by the rows. -/
theorem getElem?_rowStartsFrom (o i : Nat) (t : Text) :
    (rowStartsFrom o t)[i]? =
      if i + 1 < (rows t).length then some (o + (rowsBefore t (i + 1)).length) else none := by
  induction t generalizing o i with
  | nil => simp [rowStartsFrom, rows]
  | cons c rest ih =>
    unfold rowStartsFrom rowsBefore rows
    split
    next =>
      cases i with
      | zero =>
        have hrows : 0 + 1 < ([] :: rows rest).length :=
          Nat.succ_lt_succ (List.length_pos_iff.2 (rows_ne_nil rest))
        rw [if_pos hrows]
        rfl
      | succ i =>
        rw [List.getElem?_cons_succ, ih, List.length_cons, List.take_succ_cons, List.flatMap_cons,
          List.length_append, ← rowsBefore]
        simp only [List.nil_append, List.length_singleton, Nat.add_lt_add_iff_right]
        grind
    next =>
      rw [ih]
      unfold rowsBefore
      obtain ⟨r, rs, hrows⟩ := List.exists_cons_of_ne_nil (rows_ne_nil rest)
      rw [hrows]
      simp only [pushChar, List.length_cons, List.take_succ_cons, List.flatMap_cons,
        List.length_append]
      grind

/-- A text has one row more than it has line feeds. -/
theorem rowCount_eq (t : Text) : rowCount t = t.count '\n' + 1 := by
  have hfrom (o : Nat) : (rowStartsFrom o t).length = t.count '\n' := by
    induction t generalizing o with
    | nil => rfl
    | cons c rest ih =>
      unfold rowStartsFrom
      split
      next hc => rw [List.length_cons, ih, hc, List.count_cons_self]
      next hc => rw [ih, List.count_cons_of_ne hc]
  rw [rowCount, rowStarts, List.length_cons, hfrom]

/-- The table has an entry for every row. -/
theorem rowCount_eq_length (t : Text) : rowCount t = (rows t).length := by
  rw [rowCount_eq]
  induction t with
  | nil => rfl
  | cons c rest ih =>
    unfold rows
    split
    next hc => rw [hc, List.count_cons_self, List.length_cons, ih]
    next hc =>
      obtain ⟨r, rs, hrows⟩ := List.exists_cons_of_ne_nil (rows_ne_nil rest)
      rw [List.count_cons_of_ne hc, ih, hrows]
      rfl

/-- The row of an offset: as many line feeds stand before it. -/
theorem rowOf_eq (t : Text) (o : Nat) : rowOf t o = (t.take o).count '\n' := by
  rw [rowOf, rowStarts, List.takeWhile_cons_of_pos (by simp),
    List.length_cons, length_takeWhile_rowStartsFrom]
  rfl

theorem rowOf_mono (t : Text) {o o' : Nat} (h : o ≤ o') : rowOf t o ≤ rowOf t o' := by
  rw [rowOf_eq, rowOf_eq]
  exact (List.take_sublist_take_left h).count_le _

theorem rowOf_lt_rowCount (t : Text) (o : Nat) : rowOf t o < rowCount t := by
  rw [rowCount_eq, rowOf_eq, Nat.lt_succ_iff]
  exact (List.take_sublist o t).count_le _

theorem rowOf_append_length (pre u : Text) : rowOf (pre ++ u) pre.length = pre.count '\n' := by
  rw [rowOf_eq, List.take_left]

/-- A row starts behind the rows before it. -/
theorem rowStart_of_lt {t : Text} {row : Nat} (h : row < rowCount t) :
    rowStart t row = (rowsBefore t row).length := by
  rw [rowCount_eq_length] at h
  unfold rowStart rowStarts
  cases row with
  | zero => rfl
  | succ row =>
    rw [List.getElem?_cons_succ, getElem?_rowStartsFrom, if_pos h, Nat.zero_add]
    rfl

theorem rowStart_of_le {t : Text} {row : Nat} (h : rowCount t ≤ row) :
    rowStart t row = t.length := by
  rw [rowStart, List.getElem?_eq_none h]
  rfl

end Text

end Mend
