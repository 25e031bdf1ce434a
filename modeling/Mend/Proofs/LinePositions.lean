import Mend.Proofs.IndentedLines

/-!
# Offsets and their lines

From the start of a line on, a text goes on with characters that end no line.  Unless the line is the
last one, a break comes next, and the next line starts behind it.  So every offset lies on one line,
and the column tells how far behind its start.

The column is lost only when it points past the content of the line, and the content leaves out no
more than a newline: a line feed, with the carriage return before it.  An offset between these two
lies behind the content; what leads back leads before the newline.

## Main definitions

* `Text.IsWithinNewline` — an offset between a carriage return and the line feed that belongs to it.
* `Text.FollowsBreak` — an offset right behind a break.
* `Text.IsBreakBefore` — a break, told with what comes behind it.
* `Text.FallsInto` — what stands on a line that is not the last one.

## Main results

* `Text.slice_lineSpan` — the span of a line holds its content.
* `Text.exists_fallsInto`, `Text.forall_plain_of_last` — what stands on a line, and on the last one.
* `Text.lineOf_bounds`, `Text.eq_lineOf` — an offset lies on one line.
* `Text.lineStart_eq_iff` — lines start at the start of the text and behind breaks.
* `Text.offsetAt_position` — what the line and the column of an offset lead back to.
* `Text.lines_hold_offsets` — **every offset lies on one line, and its column leads back to it**,
  save within a newline.
-/

namespace Mend

namespace Text

variable {t : Text} {line line' o : Nat}

/-! ### Where lines start -/

theorem lineStart_mono (h : line ≤ line') : lineStart t line ≤ lineStart t line' := by
  induction h with
  | refl => exact Nat.le_refl _
  | step _ ih =>
    refine Nat.le_trans ih ?_
    rw [lineStart, lineStart, List.take_add_one, List.flatten_append, List.length_append]
    exact Nat.le_add_right _ _

/-- The text from the start of a line on. -/
theorem drop_lineStart (t : Text) (line : Nat) :
    t.drop (lineStart t line) = ((lines t).drop line).flatten := by
  have hsplit : ((lines t).take line).flatten ++ ((lines t).drop line).flatten = t := by
    rw [← List.flatten_append, List.take_append_drop, flatten_lines]
  calc t.drop (lineStart t line)
      = (((lines t).take line).flatten ++ ((lines t).drop line).flatten).drop (lineStart t line) := by
        rw [hsplit]
    _ = ((lines t).drop line).flatten := List.drop_left

/-- **The span of a line holds its content**, and nothing when there is no such line. -/
theorem slice_lineSpan (t : Text) (line : Nat) :
    t.slice (lineSpan t line) = (lineContent? t line).getD [] := by
  have hslice : t.slice (lineSpan t line) =
      (t.drop (lineStart t line)).take (lineLength t line) := by
    rw [slice, lineSpan, List.drop_take, Nat.add_sub_cancel_left]
  rw [hslice, lineLength, lineContent?]
  cases hline : (lines t)[line]? with
  | none => rfl
  | some l =>
    obtain ⟨hlt, rfl⟩ := List.getElem?_eq_some_iff.1 hline
    obtain ⟨brk, hl⟩ := stripNewline_isPrefix (lines t)[line]
    have hdrop : t.drop (lineStart t line) =
        stripNewline (lines t)[line] ++ (brk ++ ((lines t).drop (line + 1)).flatten) := by
      rw [drop_lineStart, List.drop_eq_getElem_cons hlt, List.flatten_cons, ← List.append_assoc, hl]
    rw [hdrop]
    exact List.take_left

/-! ### How lines end -/

/-- A break that ends a line: a carriage return with its line feed, or a character that ends a line by
itself, which a carriage return does unless its line feed comes next. -/
def IsBreakBefore (brk rest : Text) : Prop :=
  brk = ['\r', '\n'] ∨
    ∃ c, brk = [c] ∧ isLineBreak c = true ∧ ¬(c = '\r' ∧ rest.head? = some '\n')

/-- A text of several lines opens with characters that end no line and with a break. -/
theorem exists_break (h : 1 < lineCount t) :
    ∃ front brk rest, lines t = (front ++ brk) :: lines rest ∧
      (∀ c ∈ front, isLineBreak c = false) ∧ IsBreakBefore brk rest := by
  induction t using lines.induct with
  | case1 => simp [lineCount, lines] at h
  | case2 rest _ => exact ⟨[], ['\r', '\n'], rest, rfl, List.forall_mem_nil _, .inl rfl⟩
  | case3 c rest hcr hbreak _ =>
    refine ⟨[], [c], rest, ?_, List.forall_mem_nil _, .inr ⟨c, rfl, hbreak, ?_⟩⟩
    · rw [lines, if_pos hbreak]
      · rfl
      · exact hcr
    · rintro ⟨rfl, hhead⟩
      obtain ⟨tail, rfl⟩ := List.head?_eq_some_iff.1 hhead
      exact hcr tail rfl rfl
  | case4 c rest _ hbreak ih =>
    obtain ⟨l, ls, hls⟩ := List.exists_cons_of_ne_nil (lines_ne_nil rest)
    have hpush := lines_cons_of_lines_eq_cons hbreak hls
    have hcount : 1 < lineCount rest := by
      rw [lineCount, hpush] at h
      rw [lineCount, hls]
      exact h
    obtain ⟨front, brk, tail, htail, hplain, hbrk⟩ := ih hcount
    rw [hls] at htail
    obtain ⟨rfl, rfl⟩ := List.cons.inj htail
    exact ⟨c :: front, brk, tail, hpush,
      List.forall_mem_cons.2 ⟨Bool.eq_false_iff.2 hbreak, hplain⟩, hbrk⟩

/-- On a single line no line ends. -/
theorem forall_plain_of_single (h : lineCount t = 1) : ∀ c ∈ t, isLineBreak c = false := by
  induction t using lines.induct with
  | case1 => exact List.forall_mem_nil _
  | case2 rest _ =>
    rw [lineCount, lines, List.length_cons] at h
    exact absurd (List.eq_nil_of_length_eq_zero (Nat.succ.inj h)) (lines_ne_nil rest)
  | case3 c rest hcr hbreak _ =>
    rw [lineCount, lines, if_pos hbreak, List.length_cons] at h
    · exact absurd (List.eq_nil_of_length_eq_zero (Nat.succ.inj h)) (lines_ne_nil rest)
    · exact hcr
  | case4 c rest _ hbreak ih =>
    obtain ⟨l, ls, hls⟩ := List.exists_cons_of_ne_nil (lines_ne_nil rest)
    rw [lineCount, lines_cons_of_lines_eq_cons hbreak hls] at h
    have hcount : lineCount rest = 1 := by
      rw [lineCount, hls]
      exact h
    exact List.forall_mem_cons.2 ⟨Bool.eq_false_iff.2 hbreak, ih hcount⟩

theorem lineCount_drop (h : line < lineCount t) :
    lineCount ((lines t).drop line).flatten = lineCount t - line := by
  rw [lineCount, lines_drop h, List.length_drop, lineCount]

/-- A line that is not the last one: characters that end no line, and a break behind which the next
line starts. -/
structure FallsInto (t : Text) (line : Nat) (front brk : Text) : Prop where
  /-- The line. -/
  line_eq : (lines t)[line]? = some (front ++ brk)
  /-- Where the next line starts. -/
  next_eq : lineStart t (line + 1) = lineStart t line + front.length + brk.length
  /-- The text from the line on. -/
  drop_eq : t.drop (lineStart t line) = front ++ (brk ++ t.drop (lineStart t (line + 1)))
  /-- No line ends before the break. -/
  plain : ∀ c ∈ front, isLineBreak c = false
  /-- The break. -/
  isBreak : IsBreakBefore brk (t.drop (lineStart t (line + 1)))

theorem exists_fallsInto (h : line + 1 < lineCount t) : ∃ front brk, FallsInto t line front brk := by
  have hline : line < lineCount t := Nat.lt_of_succ_lt h
  have hcount : 1 < lineCount ((lines t).drop line).flatten := by
    rw [lineCount_drop hline]
    omega
  obtain ⟨front, brk, rest, hlines, hplain, hbrk⟩ := exists_break hcount
  rw [lines_drop hline] at hlines
  have hget : (lines t)[line]? = some (front ++ brk) := by
    rw [← List.head?_drop, hlines, List.head?_cons]
  have hrest : t.drop (lineStart t (line + 1)) = rest := by
    rw [drop_lineStart, ← List.tail_drop, hlines, List.tail_cons, flatten_lines]
  refine ⟨front, brk, ?_⟩
  constructor
  case line_eq => exact hget
  case next_eq =>
    rw [lineStart_succ hget, List.length_append, Nat.add_assoc]
  case drop_eq =>
    rw [hrest, drop_lineStart, hlines, List.flatten_cons, flatten_lines, List.append_assoc]
  case plain => exact hplain
  case isBreak => exact hrest ▸ hbrk

namespace FallsInto

variable {front brk : Text} {i : Nat}

theorem getElem?_front (h : FallsInto t line front brk) (hi : i < front.length) :
    t[lineStart t line + i]? = front[i]? := by
  rw [← List.getElem?_drop, h.drop_eq, List.getElem?_append_left hi]

theorem getElem?_brk (h : FallsInto t line front brk) (hi : i < brk.length) :
    t[lineStart t line + front.length + i]? = brk[i]? := by
  rw [Nat.add_assoc, ← List.getElem?_drop, h.drop_eq, List.getElem?_append_right (by omega),
    Nat.add_sub_cancel_left, List.getElem?_append_left hi]

end FallsInto

/-- The last line runs to the end of the text, and no line ends on it. -/
theorem forall_plain_of_last (h : line + 1 = lineCount t) :
    (lines t)[line]? = some (t.drop (lineStart t line)) ∧
      ∀ c ∈ t.drop (lineStart t line), isLineBreak c = false := by
  have hline : line < lineCount t := Nat.lt_of_succ_le (Nat.le_of_eq h)
  have hcount : lineCount (t.drop (lineStart t line)) = 1 := by
    rw [drop_lineStart, lineCount_drop hline]
    omega
  refine ⟨?_, forall_plain_of_single hcount⟩
  have hlast : (lines t).drop line = [(lines t)[line]] := by
    rw [List.drop_eq_getElem_cons hline, List.drop_eq_nil_of_le (Nat.le_of_eq h.symm)]
  rw [drop_lineStart, hlast, List.flatten_singleton, List.getElem?_eq_getElem hline]

/-! ### The content of a line -/

theorem stripNewline_of_plain {l : Text} (h : ∀ c ∈ l, isLineBreak c = false) :
    stripNewline l = l := by
  rcases List.eq_nil_or_concat l with rfl | ⟨front, c, rfl⟩
  · rfl
  · rw [List.concat_eq_append] at h ⊢
    have hc : c ≠ '\n' := by
      rintro rfl
      exact absurd (h '\n' (by simp)) (by decide)
    rw [stripNewline_concat, if_neg hc]

theorem stripNewline_append_newline (front : Text) : stripNewline (front ++ ['\r', '\n']) = front := by
  rw [List.append_cons, stripNewline_concat, if_pos rfl, List.getLast?_concat, if_pos rfl,
    List.dropLast_concat]

/-- What stands before the break belongs to the content. -/
theorem length_le_stripNewline {front brk rest : Text} (hplain : ∀ c ∈ front, isLineBreak c = false)
    (hbrk : IsBreakBefore brk rest) : front.length ≤ (stripNewline (front ++ brk)).length := by
  rcases hbrk with rfl | ⟨c, rfl, -, -⟩
  · exact Nat.le_of_eq (congrArg List.length (stripNewline_append_newline front).symm)
  · have hlast : ¬front.getLast? = some '\r' := by
      intro hlast
      exact absurd (hplain _ (List.mem_of_getLast? hlast)) (by decide)
    rw [stripNewline_concat, if_neg hlast]
    split <;> simp

/-! ### Offsets within newlines and behind breaks -/

/-- An offset between a carriage return and the line feed that belongs to it. -/
def IsWithinNewline (t : Text) (o : Nat) : Prop :=
  0 < o ∧ t[o - 1]? = some '\r' ∧ t[o]? = some '\n'

instance (t : Text) (o : Nat) : Decidable (IsWithinNewline t o) :=
  inferInstanceAs (Decidable (_ ∧ _))

/-- An offset right behind a break.  Within a newline the break is not over. -/
def FollowsBreak (t : Text) (o : Nat) : Prop :=
  0 < o ∧ (∃ c, t[o - 1]? = some c ∧ isLineBreak c = true) ∧ ¬IsWithinNewline t o

/-- Every line but the first starts right behind a break. -/
theorem followsBreak_lineStart (h : line + 1 < lineCount t) :
    FollowsBreak t (lineStart t (line + 1)) := by
  obtain ⟨front, brk, hline⟩ := exists_fallsInto h
  have hnext := hline.next_eq
  rcases hline.isBreak with rfl | ⟨c, rfl, hc, hfree⟩
  · have hlast : t[lineStart t (line + 1) - 1]? = some '\n' := by
      rw [hnext]
      exact hline.getElem?_brk (i := 1) (by simp)
    refine ⟨by rw [hnext]; simp, ⟨'\n', hlast, by decide⟩, ?_⟩
    rintro ⟨-, hreturn, -⟩
    rw [hlast] at hreturn
    exact absurd hreturn (by decide)
  · have hlast : t[lineStart t (line + 1) - 1]? = some c := by
      rw [hnext]
      exact hline.getElem?_brk (i := 0) (by simp)
    refine ⟨by rw [hnext]; simp, ⟨c, hlast, hc⟩, ?_⟩
    rintro ⟨-, hreturn, hfeed⟩
    rw [← List.head?_drop] at hfeed
    exact hfree ⟨Option.some.inj (hlast.symm.trans hreturn), hfeed⟩

/-- No line starts within a newline. -/
theorem not_isWithinNewline_lineStart (h : line < lineCount t) :
    ¬IsWithinNewline t (lineStart t line) := by
  cases line with
  | zero => exact fun hwithin => Nat.lt_irrefl 0 hwithin.1
  | succ line => exact (followsBreak_lineStart h).2.2

/-! ### The line of an offset -/

theorem lineAmong_bounds {ls : List Text} (h : ls ≠ []) (o : Nat) :
    lineAmong ls o < ls.length ∧ (ls.take (lineAmong ls o)).flatten.length ≤ o ∧
      (lineAmong ls o + 1 = ls.length ∨ o < (ls.take (lineAmong ls o + 1)).flatten.length) := by
  fun_induction lineAmong ls o with
  | case1 l l' rest o ho => exact ⟨Nat.succ_pos _, Nat.zero_le _, .inr (by simpa using ho)⟩
  | case2 l l' rest o ho ih =>
    obtain ⟨hlt, hstart, hstop⟩ := ih (List.cons_ne_nil _ _)
    refine ⟨Nat.succ_lt_succ hlt, ?_, ?_⟩
    · rw [List.take_succ_cons, List.flatten_cons, List.length_append]
      omega
    · rw [List.take_succ_cons, List.flatten_cons, List.length_append, List.length_cons]
      omega
  | case3 ls o hshort =>
    cases ls with
    | nil => exact absurd rfl h
    | cons l ls =>
      cases ls with
      | nil => exact ⟨Nat.succ_pos _, Nat.zero_le _, .inl rfl⟩
      | cons l' rest => exact absurd rfl (hshort l l' rest)

/-- An offset lies on its line. -/
theorem lineOf_bounds (t : Text) (o : Nat) :
    lineOf t o < lineCount t ∧ lineStart t (lineOf t o) ≤ o ∧
      (lineOf t o + 1 = lineCount t ∨ o < lineStart t (lineOf t o + 1)) :=
  lineAmong_bounds (lines_ne_nil t) o

/-- An offset lies on no line but its own. -/
theorem eq_lineOf (hlt : line < lineCount t) (hstart : lineStart t line ≤ o)
    (hstop : line + 1 = lineCount t ∨ o < lineStart t (line + 1)) : line = lineOf t o := by
  obtain ⟨hlt', hstart', hstop'⟩ := lineOf_bounds t o
  rcases Nat.lt_trichotomy line (lineOf t o) with hbefore | heq | hbehind
  · have hmono : lineStart t (line + 1) ≤ lineStart t (lineOf t o) := lineStart_mono hbefore
    omega
  · exact heq
  · have hmono : lineStart t (lineOf t o + 1) ≤ lineStart t line := lineStart_mono hbehind
    omega

/-- A break on a line ends it, and the next line starts right behind it. -/
theorem FallsInto.next_eq_of_break {front brk : Text} (h : FallsInto t line front brk) {k : Nat}
    {c : Char} (hlt : lineStart t line + k < lineStart t (line + 1))
    (hc : t[lineStart t line + k]? = some c) (hbreak : isLineBreak c = true)
    (hwithin : ¬IsWithinNewline t (lineStart t line + k + 1)) :
    lineStart t (line + 1) = lineStart t line + k + 1 := by
  have hnext := h.next_eq
  have hafter : front.length ≤ k := by
    by_contra hbefore
    rw [h.getElem?_front (Nat.lt_of_not_le hbefore)] at hc
    have hplain := h.plain c (List.mem_of_getElem? hc)
    rw [hbreak] at hplain
    cases hplain
  rcases h.isBreak with rfl | ⟨d, rfl, -, -⟩
  · -- the offset behind is not the one within the newline
    have hne : k ≠ front.length := by
      rintro rfl
      exact hwithin
        ⟨Nat.succ_pos _, h.getElem?_brk (i := 0) (by simp), h.getElem?_brk (i := 1) (by simp)⟩
    simp only [List.length_cons, List.length_nil] at hnext
    omega
  · simp only [List.length_cons, List.length_nil] at hnext
    omega

/-- A line with a break on it is not the last one. -/
theorem succ_lt_of_break {c : Char} (hlt : line < lineCount t) (hstart : lineStart t line ≤ o)
    (hc : t[o]? = some c) (hbreak : isLineBreak c = true) : line + 1 < lineCount t := by
  refine Nat.lt_of_le_of_ne (Nat.succ_le_of_lt hlt) ?_
  intro hlast
  obtain ⟨k, rfl⟩ := Nat.exists_eq_add_of_le hstart
  rw [← List.getElem?_drop] at hc
  have hplain := (forall_plain_of_last hlast).2 c (List.mem_of_getElem? hc)
  rw [hbreak] at hplain
  cases hplain

/-- **Lines start** at the start of the text and behind breaks, and nowhere else. -/
theorem lineStart_eq_iff :
    (∃ line < lineCount t, lineStart t line = o) ↔ o = 0 ∨ FollowsBreak t o := by
  constructor
  · rintro ⟨line, hlt, rfl⟩
    cases line with
    | zero => exact .inl rfl
    | succ line => exact .inr (followsBreak_lineStart hlt)
  · rintro (rfl | ⟨hpos, ⟨c, hc, hbreak⟩, hwithin⟩)
    · exact ⟨0, List.length_pos_iff.2 (lines_ne_nil t), rfl⟩
    obtain ⟨p, rfl⟩ := Nat.exists_eq_succ_of_ne_zero (Nat.ne_of_gt hpos)
    -- the break stands on the line of the offset before
    obtain ⟨hlt, hstart, hstop⟩ := lineOf_bounds t p
    have hnext := succ_lt_of_break hlt hstart hc hbreak
    have hbefore : p < lineStart t (lineOf t p + 1) := hstop.resolve_left (Nat.ne_of_lt hnext)
    obtain ⟨front, brk, hline⟩ := exists_fallsInto hnext
    refine ⟨lineOf t p + 1, hnext, ?_⟩
    generalize lineOf t p = line at *
    obtain ⟨k, rfl⟩ := Nat.exists_eq_add_of_le hstart
    exact hline.next_eq_of_break hbefore hc hbreak hwithin

/-! ### What a line and a column lead back to -/

/-- Within a line no newline starts before the break. -/
theorem FallsInto.not_isWithinNewline {front brk : Text} (h : FallsInto t line front brk)
    (hlt : line < lineCount t) {k : Nat} (hk : k ≤ front.length) :
    ¬IsWithinNewline t (lineStart t line + k) := by
  intro hwithin
  cases k with
  | zero => exact not_isWithinNewline_lineStart hlt hwithin
  | succ k =>
    obtain ⟨-, hreturn, -⟩ := hwithin
    rw [← Nat.add_assoc, Nat.add_sub_cancel, h.getElem?_front hk] at hreturn
    exact absurd (h.plain _ (List.mem_of_getElem? hreturn)) (by decide)

theorem FallsInto.lineLength_eq {front brk : Text} (h : FallsInto t line front brk) :
    lineLength t line = (stripNewline (front ++ brk)).length := by
  rw [lineLength, lineContent?, h.line_eq, Option.map_some, Option.getD_some]

/-- The content of the last line is all that is left of the text. -/
theorem lineLength_of_last (h : line + 1 = lineCount t) :
    lineLength t line = t.length - lineStart t line := by
  obtain ⟨hget, hplain⟩ := forall_plain_of_last h
  rw [lineLength, lineContent?, hget, Option.map_some, Option.getD_some,
    stripNewline_of_plain hplain, List.length_drop]

/-- No newline stands on the last line. -/
theorem not_isWithinNewline_of_last (h : line + 1 = lineCount t) (k : Nat) :
    ¬IsWithinNewline t (lineStart t line + k) := by
  rintro ⟨-, -, hfeed⟩
  rw [← List.getElem?_drop] at hfeed
  exact absurd ((forall_plain_of_last h).2 _ (List.mem_of_getElem? hfeed)) (by decide)

/-- Only a newline has an offset behind its first character, and the line's content is over there. -/
theorem FallsInto.isWithinNewline {front brk : Text} (h : FallsInto t line front brk) {k : Nat}
    (hk : front.length < k) (hlt : lineStart t line + k < lineStart t (line + 1)) :
    IsWithinNewline t (lineStart t line + k) ∧ lineLength t line + 1 = k := by
  have hnext := h.next_eq
  have hlength := h.lineLength_eq
  rcases h.isBreak with rfl | ⟨d, rfl, -, -⟩
  · simp only [List.length_cons, List.length_nil] at hnext
    obtain rfl : k = front.length + 1 := by omega
    rw [stripNewline_append_newline] at hlength
    exact ⟨⟨Nat.succ_pos _, h.getElem?_brk (i := 0) (by simp), h.getElem?_brk (i := 1) (by simp)⟩,
      congrArg (· + 1) hlength⟩
  · simp only [List.length_cons, List.length_nil] at hnext
    omega

/-- What the line and the column of an offset lead back to. -/
theorem offsetAt_position (ho : o ≤ t.length) :
    offsetAt t (position t o).1 (position t o).2 =
      if IsWithinNewline t o then o - 1 else o := by
  obtain ⟨hlt, hstart, hstop⟩ := lineOf_bounds t o
  have hmin : min o t.length = o := Nat.min_eq_left ho
  simp only [position, offsetAt, hmin, if_pos hlt]
  generalize lineOf t o = line at hlt hstart hstop
  obtain ⟨k, rfl⟩ := Nat.exists_eq_add_of_le hstart
  rw [Nat.add_sub_cancel_left]
  rcases Nat.lt_or_eq_of_le (Nat.succ_le_of_lt hlt) with hnext | hlast
  case inr =>
    rw [if_neg (not_isWithinNewline_of_last hlast k), lineLength_of_last hlast,
      Nat.min_eq_left (by omega)]
  obtain ⟨front, brk, hline⟩ := exists_fallsInto hnext
  rcases Nat.lt_or_ge front.length k with hbehind | hbefore
  · obtain ⟨hwithin, hlength⟩ :=
      hline.isWithinNewline hbehind (hstop.resolve_left (Nat.ne_of_lt hnext))
    rw [if_pos hwithin, Nat.min_eq_right (by omega)]
    omega
  · have hcontent : k ≤ lineLength t line := by
      rw [hline.lineLength_eq]
      exact Nat.le_trans hbefore (length_le_stripNewline hline.plain hline.isBreak)
    rw [if_neg (hline.not_isWithinNewline hlt hbefore), Nat.min_eq_left hcontent]

/-- **Every offset lies on one line, and its column leads back to it**, save within a newline, where
it leads before the newline.  Lines start at the start of the text and behind breaks. -/
theorem lines_hold_offsets (ho : o ≤ t.length) :
    (∀ line, line = lineOf t o ↔ line < lineCount t ∧ lineStart t line ≤ o ∧
        (line + 1 = lineCount t ∨ o < lineStart t (line + 1))) ∧
      ((∃ line < lineCount t, lineStart t line = o) ↔ o = 0 ∨ FollowsBreak t o) ∧
      offsetAt t (position t o).1 (position t o).2 =
        if IsWithinNewline t o then o - 1 else o := by
  refine ⟨?_, lineStart_eq_iff, offsetAt_position ho⟩
  intro line
  constructor
  · rintro rfl
    exact lineOf_bounds t o
  · rintro ⟨hlt, hstart, hstop⟩
    exact eq_lineOf hlt hstart hstop

/-- A text with a newline and a break of another kind, and the offset within the newline. -/
theorem lines_hold_offsets_newline :
    let t := "a\r\nb\u2028".toList
    2 ≤ t.length ∧ IsWithinNewline t 2 ∧
      (∀ line, line = lineOf t 2 ↔ line < lineCount t ∧ lineStart t line ≤ 2 ∧
        (line + 1 = lineCount t ∨ 2 < lineStart t (line + 1))) ∧
      ((∃ line < lineCount t, lineStart t line = 2) ↔ 2 = 0 ∨ FollowsBreak t 2) ∧
      offsetAt t (position t 2).1 (position t 2).2 = if IsWithinNewline t 2 then 2 - 1 else 2 :=
  ⟨by decide, by decide, lines_hold_offsets (by decide)⟩

end Text

end Mend
