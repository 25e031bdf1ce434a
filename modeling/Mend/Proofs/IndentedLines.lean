import Mend.Proofs.Reindentation

/-!
# Lines that get other blanks

The blanks that open a line are exchanged for tabs and spaces.  No line ends among the old blanks,
unless the line is blank, and none ends among the new ones.  So the lines of the text stay what they
are, up to the blanks that open this one, and what is nested in what above a line does not change
with the line itself or with a line below it.

## Main definitions

* `Text.IsPadding` — characters that open a line without ending one.

## Main results

* `Text.lines_splice_indentation` — **other blanks change no other line.**
* `IndentStyle.changeFor?_eq_some` — what is known of the change that is made to a line.
* `IndentStyle.changeFor?_of_lt`, `IndentStyle.changeFor?_self` — a change is seen by the lines
  below it only, and a line that has been given its indentation keeps it.
-/

namespace Mend

/-- The characters that end lines are few, so what holds of none of them can be found out by
looking at each. -/
theorem isLineBreak_eq_false_of {p : Char → Bool} {c : Char} (hc : p c = true)
    (hp : ['\n', '\r', '\x0b', '\x0c', '\u0085', '\u2028', '\u2029'].any p = false) :
    isLineBreak c = false := by
  rw [Bool.eq_false_iff]
  intro hbreak
  rw [List.any_eq_false] at hp
  refine hp c ?_ hc
  simpa [isLineBreak, or_assoc] using hbreak

/-- What is not blank ends no line. -/
theorem isLineBreak_eq_false {c : Char} (hc : isBlank c = false) : isLineBreak c = false :=
  isLineBreak_eq_false_of (p := fun c => !isBlank c) (by rw [hc]; rfl) (by decide)

namespace Text

/-! ### Blanks and what follows them -/

/-- Blanks among which no line ends. -/
def IsPadding (t : Text) : Prop := ∀ c ∈ t, isBlank c = true ∧ isLineBreak c = false

theorem isPadding_nil : IsPadding [] := fun _ h => absurd h List.not_mem_nil

/-- What follows the blanks that open a text begins with no blank. -/
theorem exists_body_eq_cons {t : Text} (h : body t ≠ []) :
    ∃ c rest, body t = c :: rest ∧ isBlank c = false := by
  cases hbody : body t with
  | nil => exact absurd hbody h
  | cons c rest =>
    refine ⟨c, rest, rfl, ?_⟩
    have hhead := List.head?_dropWhile_not isBlank t
    rw [show t.dropWhile isBlank = c :: rest from hbody] at hhead
    simpa using hhead

variable {ws : Text} {c : Char} {rest : Text}

theorem indentation_append_cons (hws : ∀ d ∈ ws, isBlank d = true) (hc : isBlank c = false) :
    indentation (ws ++ c :: rest) = ws := by
  rw [indentation, List.takeWhile_append_of_pos hws, List.takeWhile_cons_of_neg (by simp [hc]),
    List.append_nil]

theorem body_append_cons (hws : ∀ d ∈ ws, isBlank d = true) (hc : isBlank c = false) :
    body (ws ++ c :: rest) = c :: rest := by
  rw [body, List.dropWhile_append_of_pos hws, List.dropWhile_cons_of_neg (by simp [hc])]

/-! ### Lines without their newline -/

theorem stripNewline_concat (front : Text) (c : Char) : stripNewline (front ++ [c]) =
    if c = '\n' then (if front.getLast? = some '\r' then front.dropLast else front)
    else front ++ [c] := by
  unfold stripNewline
  rw [List.reverse_append, List.reverse_singleton, List.singleton_append]
  rcases List.eq_nil_or_concat front with rfl | ⟨front, d, rfl⟩
  · split <;> simp_all
  · rw [List.concat_eq_append, List.reverse_append, List.reverse_singleton, List.singleton_append,
      List.getLast?_concat, List.dropLast_concat]
    split
    next heq =>
      obtain ⟨rfl, rfl, rfl⟩ : c = '\n' ∧ d = '\r' ∧ front.reverse = _ := by simpa using heq
      simp
    next hcr heq =>
      obtain ⟨rfl, rfl⟩ : c = '\n' ∧ d :: front.reverse = _ := by simpa using heq
      have hd : d ≠ '\r' := fun hd => hcr _ (by rw [hd])
      simp [hd]
    next => simp_all

/-- Blanks before code leave the newline after it alone. -/
theorem stripNewline_append_cons (ws rest : Text) (hc : isBlank c = false) :
    stripNewline (ws ++ c :: rest) = ws ++ stripNewline (c :: rest) := by
  have hne : c ≠ '\n' ∧ c ≠ '\r' := by
    constructor <;> rintro rfl <;> exact absurd hc (by decide)
  rcases List.eq_nil_or_concat (c :: rest) with hnil | ⟨front, d, hfront⟩
  · exact absurd hnil (List.cons_ne_nil _ _)
  rw [hfront, List.concat_eq_append, ← List.append_assoc, stripNewline_concat, stripNewline_concat]
  cases front with
  | nil =>
    obtain ⟨rfl, -⟩ : c = d ∧ rest = [] := by simpa using hfront
    rw [if_neg hne.1, if_neg hne.1, List.append_assoc]
  | cons e front =>
    obtain ⟨rfl, -⟩ : c = e ∧ rest = front ++ [d] := by simpa using hfront
    rw [List.getLast?_append_of_ne_nil _ (List.cons_ne_nil _ _),
      List.dropLast_append_of_ne_nil (List.cons_ne_nil _ _)]
    split_ifs <;> simp only [List.append_assoc]

/-- The first character of code is not part of the newline after it. -/
theorem exists_stripNewline_eq_cons (rest : Text) (hc : isBlank c = false) :
    ∃ rest', stripNewline (c :: rest) = c :: rest' := by
  obtain ⟨tail, htail⟩ := stripNewline_isPrefix (c :: rest)
  cases hcode : stripNewline (c :: rest) with
  | nil =>
    -- then the line would be a newline and nothing else
    exfalso
    have hne : c ≠ '\n' ∧ c ≠ '\r' := by
      constructor <;> rintro rfl <;> exact absurd hc (by decide)
    rcases List.eq_nil_or_concat (c :: rest) with hnil | ⟨front, d, hfront⟩
    · exact absurd hnil (List.cons_ne_nil _ _)
    · rw [hfront, List.concat_eq_append, stripNewline_concat] at hcode
      rcases front with _ | ⟨e, _ | ⟨f, front⟩⟩ <;> split_ifs at hcode <;> simp_all
  | cons d rest' =>
    rw [hcode] at htail
    exact ⟨rest', by rw [(List.cons.inj htail).1]⟩

/-- The code of a line does not depend on the newline after it. -/
theorem body_stripNewline_append_cons (hws : ∀ d ∈ ws, isBlank d = true)
    (hc : isBlank c = false) :
    body (stripNewline (ws ++ c :: rest)) = stripNewline (c :: rest) := by
  obtain ⟨rest', hrest'⟩ := exists_stripNewline_eq_cons rest hc
  rw [stripNewline_append_cons ws rest hc, hrest', body_append_cons hws hc]

theorem indentation_stripNewline_append_cons (hws : ∀ d ∈ ws, isBlank d = true)
    (hc : isBlank c = false) : indentation (stripNewline (ws ++ c :: rest)) = ws := by
  obtain ⟨rest', hrest'⟩ := exists_stripNewline_eq_cons rest hc
  rw [stripNewline_append_cons ws rest hc, hrest', indentation_append_cons hws hc]

/-- A line whose content has code falls into blanks and code. -/
theorem exists_eq_append_cons_of_body_stripNewline {l : Text} (h : body (stripNewline l) ≠ []) :
    ∃ ws c rest, l = ws ++ c :: rest ∧ (∀ d ∈ ws, isBlank d = true) ∧ isBlank c = false := by
  obtain ⟨c, rest, hbody, hc⟩ := exists_body_eq_cons h
  obtain ⟨tail, htail⟩ := stripNewline_isPrefix l
  refine ⟨indentation (stripNewline l), c, rest ++ tail, ?_, ?_, hc⟩
  · conv_lhs => rw [← htail, ← indentation_append_body (stripNewline l), hbody]
    rw [List.append_assoc, List.cons_append]
  · exact fun d hd => List.all_eq_true.1 List.all_takeWhile d hd

/-! ### Texts that are put together from lines -/

/-- A character that ends no line joins the first line. -/
theorem lines_cons_of_lines_eq_cons {c : Char} {t l : Text} {ls : List Text}
    (hc : ¬isLineBreak c = true) (h : lines t = l :: ls) : lines (c :: t) = (c :: l) :: ls := by
  rw [lines, if_neg hc, h, pushChar]
  rintro rest rfl
  exact absurd hc (by decide)

theorem lines_append_of_lines_eq_cons {ws t l : Text} {ls : List Text}
    (hws : ∀ c ∈ ws, isLineBreak c = false) (h : lines t = l :: ls) :
    lines (ws ++ t) = (ws ++ l) :: ls := by
  induction ws with
  | nil => exact h
  | cons c ws ih =>
    refine lines_cons_of_lines_eq_cons ?_ (ih fun d hd => hws d (List.mem_cons_of_mem _ hd))
    simp [hws c List.mem_cons_self]

/-- The lines from one on are the lines of a text. -/
theorem lines_drop {t : Text} {line : Nat} (h : line < lineCount t) :
    lines ((lines t).drop line).flatten = (lines t).drop line := by
  induction t using lines.induct generalizing line with
  | case1 =>
    obtain rfl : line = 0 := by simpa [lineCount, lines] using h
    rfl
  | case2 rest ih =>
    cases line with
    | zero => rw [List.drop_zero, flatten_lines]
    | succ line =>
      rw [lines, List.drop_succ_cons]
      exact ih (by simpa [lineCount, lines] using h)
  | case3 c rest hcr hbreak ih =>
    cases line with
    | zero => rw [List.drop_zero, flatten_lines]
    | succ line =>
      rw [lines, if_pos hbreak, List.drop_succ_cons]
      · refine ih ?_
        rw [lineCount, lines, if_pos hbreak] at h
        · exact Nat.lt_of_succ_lt_succ h
        · exact hcr
      · exact hcr
  | case4 c rest hcr hbreak ih =>
    cases line with
    | zero => rw [List.drop_zero, flatten_lines]
    | succ line =>
      obtain ⟨l, ls, hls⟩ := List.exists_cons_of_ne_nil (lines_ne_nil rest)
      have hpush := lines_cons_of_lines_eq_cons hbreak hls
      have hline : line + 1 < lineCount rest := by
        rw [lineCount, hpush] at h
        rw [lineCount, hls]
        exact h
      have hdrop := ih hline
      rw [hls, List.drop_succ_cons] at hdrop
      rw [hpush, List.drop_succ_cons, hdrop]

/-- Every line but the last ends with a break. -/
theorem exists_eq_concat_of_lt {t : Text} {line : Nat} (h : line + 1 < lineCount t) :
    ∃ front c, (lines t)[line]? = some (front ++ [c]) ∧ isLineBreak c = true := by
  induction t using lines.induct generalizing line with
  | case1 => simp [lineCount, lines] at h
  | case2 rest ih =>
    cases line with
    | zero => exact ⟨['\r'], '\n', rfl, rfl⟩
    | succ line => exact ih (by simpa [lineCount, lines] using h)
  | case3 c rest hcr hbreak ih =>
    have hlines : lines (c :: rest) = [c] :: lines rest := by
      rw [lines, if_pos hbreak]
      exact hcr
    rw [lineCount, hlines] at h
    rw [hlines]
    cases line with
    | zero => exact ⟨[], c, rfl, hbreak⟩
    | succ line => exact ih (Nat.lt_of_succ_lt_succ h)
  | case4 c rest hcr hbreak ih =>
    obtain ⟨l, ls, hls⟩ := List.exists_cons_of_ne_nil (lines_ne_nil rest)
    have hpush := lines_cons_of_lines_eq_cons hbreak hls
    rw [lineCount, hpush] at h
    have hline : line + 1 < lineCount rest := by
      rw [lineCount, hls]
      exact h
    obtain ⟨front, d, hfront, hd⟩ := ih hline
    rw [hls] at hfront
    rw [hpush]
    cases line with
    | zero =>
      obtain rfl : l = front ++ [d] := by simpa using hfront
      exact ⟨c :: front, d, rfl, hd⟩
    | succ line => exact ⟨front, d, hfront, hd⟩

/-- The lines before one stay lines when something else follows them, unless a newline does: it
could join a carriage return. -/
theorem lines_take_append {t : Text} {line : Nat} (h : line < lineCount t) {u : Text}
    (hu : u.head? ≠ some '\n') :
    lines (((lines t).take line).flatten ++ u) = (lines t).take line ++ lines u := by
  induction t using lines.induct generalizing line with
  | case1 =>
    obtain rfl : line = 0 := by simpa [lineCount, lines] using h
    rfl
  | case2 rest ih =>
    cases line with
    | zero => rfl
    | succ line =>
      have hline : line < lineCount rest := by simpa [lineCount, lines] using h
      have hrest := ih hline
      simp only [lines, List.take_succ_cons, List.flatten_cons, List.cons_append, List.nil_append,
        hrest]
  | case3 c rest hcr hbreak ih =>
    cases line with
    | zero => rfl
    | succ line =>
      have hlines : lines (c :: rest) = [c] :: lines rest := by
        rw [lines, if_pos hbreak]
        exact hcr
      have hline : line < lineCount rest := by simpa [lineCount, hlines] using h
      have hrest := ih hline
      rw [hlines, List.take_succ_cons, List.flatten_cons, List.singleton_append, List.cons_append,
        lines, if_pos hbreak, hrest, List.cons_append]
      -- a carriage return would be followed by a newline, here or in the text before
      rintro tail rfl htail
      cases line with
      | zero =>
        rw [List.take_zero, List.flatten_nil, List.nil_append] at htail
        exact hu (by rw [htail]; rfl)
      | succ line =>
        obtain ⟨l, ls, hls⟩ := List.exists_cons_of_ne_nil (lines_ne_nil rest)
        have hflat : l ++ ls.flatten = rest := by rw [← List.flatten_cons, ← hls, flatten_lines]
        rw [hls, List.take_succ_cons, List.flatten_cons] at htail
        have hfirst : 0 + 1 < lineCount rest := by omega
        obtain ⟨front, d, hfront, -⟩ := exists_eq_concat_of_lt hfirst
        rw [hls] at hfront
        obtain rfl : l = front ++ [d] := by simpa using hfront
        obtain ⟨e, l, hl⟩ := List.exists_cons_of_ne_nil (List.append_ne_nil_of_right_ne_nil front
          (List.cons_ne_nil d []))
        rw [hl] at htail hflat
        obtain ⟨rfl, -⟩ := List.cons.inj htail
        exact hcr _ rfl hflat.symm
  | case4 c rest hcr hbreak ih =>
    cases line with
    | zero => rfl
    | succ line =>
      obtain ⟨l, ls, hls⟩ := List.exists_cons_of_ne_nil (lines_ne_nil rest)
      have hpush := lines_cons_of_lines_eq_cons hbreak hls
      have hline : line + 1 < lineCount rest := by
        rw [lineCount, hpush] at h
        rw [lineCount, hls]
        exact h
      have hrest := ih hline
      rw [hls, List.take_succ_cons, List.flatten_cons, List.cons_append] at hrest
      rw [hpush, List.take_succ_cons, List.flatten_cons, List.cons_append, List.cons_append,
        List.cons_append]
      rw [List.append_assoc] at hrest ⊢
      exact lines_cons_of_lines_eq_cons hbreak hrest

/-- A line starts where the line before it stops. -/
theorem lineStart_succ {t l : Text} {line : Nat} (h : (lines t)[line]? = some l) :
    lineStart t (line + 1) = lineStart t line + l.length := by
  rw [lineStart, lineStart, List.take_add_one, h, Option.toList_some, List.flatten_append,
    List.flatten_singleton, List.length_append]

/-! ### Other blanks -/

/-- No line ends among the blanks that open a line with code. -/
theorem isPadding_of_mem_lines {t : Text} (hl : ws ++ c :: rest ∈ lines t)
    (hws : ∀ d ∈ ws, isBlank d = true) (hc : isBlank c = false) : IsPadding ws := by
  induction t using lines.induct generalizing ws with
  | case1 => simp [lines] at hl
  | case2 tail ih =>
    rw [lines] at hl
    rcases List.mem_cons.1 hl with hl | hl
    · -- all of this line is blank
      have hblank : isBlank c = true := by
        have hmem : c ∈ ['\r', '\n'] := hl ▸ List.mem_append_right _ List.mem_cons_self
        simp only [List.mem_cons, List.not_mem_nil, or_false] at hmem
        rcases hmem with rfl | rfl <;> decide
      rw [hc] at hblank
      cases hblank
    · exact ih hl hws
  | case3 d tail hcr hbreak ih =>
    rw [lines, if_pos hbreak] at hl
    · rcases List.mem_cons.1 hl with hl | hl
      · obtain rfl : c = d := List.mem_singleton.1 (hl ▸ List.mem_append_right _ List.mem_cons_self)
        rw [isLineBreak_eq_false hc] at hbreak
        cases hbreak
      · exact ih hl hws
    · exact hcr
  | case4 d tail hcr hbreak ih =>
    obtain ⟨l, ls, hls⟩ := List.exists_cons_of_ne_nil (lines_ne_nil tail)
    rw [lines_cons_of_lines_eq_cons hbreak hls] at hl
    rw [hls] at ih
    rcases List.mem_cons.1 hl with hl | hl
    · cases ws with
      | nil => exact isPadding_nil
      | cons e ws =>
        obtain ⟨rfl, rfl⟩ := List.cons.inj hl
        have hrest : IsPadding ws :=
          ih List.mem_cons_self fun d hd => hws d (List.mem_cons_of_mem _ hd)
        exact List.forall_mem_cons.2 ⟨⟨hws e List.mem_cons_self, by simpa using hbreak⟩, hrest⟩
    · exact ih (List.mem_cons_of_mem _ hl) hws

/-- **Other blanks change no other line.** -/
theorem lines_splice_indentation {t new : Text} {line : Nat}
    (h : (lines t)[line]? = some (ws ++ c :: rest)) (hws : ∀ d ∈ ws, isBlank d = true)
    (hc : isBlank c = false) (hnew : IsPadding new) :
    lines (splice t ⟨lineStart t line, lineStart t line + ws.length⟩ new)
      = (lines t).set line (new ++ c :: rest) := by
  obtain ⟨hlt, hget⟩ := List.getElem?_eq_some_iff.1 h
  have hpad : IsPadding ws := isPadding_of_mem_lines (hget ▸ List.getElem_mem hlt) hws hc
  -- the text falls into the lines before, the blanks, the code of the line, and the lines after
  let front := ((lines t).take line).flatten
  let back := ((lines t).drop (line + 1)).flatten
  have hdrop : (lines t).drop line = (ws ++ c :: rest) :: (lines t).drop (line + 1) := by
    rw [List.drop_eq_getElem_cons hlt, hget]
  have htext : t = front ++ (ws ++ (c :: rest ++ back)) := by
    conv_lhs => rw [← flatten_lines t, ← List.take_append_drop line (lines t), hdrop]
    rw [List.flatten_append, List.flatten_cons, List.append_assoc]
  have hsplice : splice t ⟨lineStart t line, lineStart t line + ws.length⟩ new
      = front ++ (new ++ (c :: rest ++ back)) := by
    have hfront : lineStart t line = front.length := rfl
    conv_lhs => rw [splice, hfront, htext]
    rw [List.take_left, ← List.append_assoc front ws, ← List.length_append, List.drop_left,
      List.append_assoc]
  -- the lines of what follows the blanks, read off the lines of the text
  have hcode : lines (c :: rest ++ back) = (c :: rest) :: (lines t).drop (line + 1) := by
    obtain ⟨l, ls, hls⟩ := List.exists_cons_of_ne_nil (lines_ne_nil (c :: rest ++ back))
    have hall := lines_append_of_lines_eq_cons (fun d hd => (hpad d hd).2) hls
    have hflat : ws ++ (c :: rest ++ back) = ((lines t).drop line).flatten := by
      rw [hdrop, List.flatten_cons, List.append_assoc]
    rw [hflat, lines_drop hlt, hdrop] at hall
    obtain ⟨hl, rfl⟩ := List.cons.inj hall
    rw [hls, List.append_cancel_left hl]
  have hnewline : (new ++ (c :: rest ++ back)).head? ≠ some '\n' := by
    cases new with
    | nil =>
      rintro heq
      obtain rfl : c = '\n' := Option.some.inj heq
      exact absurd hc (by decide)
    | cons d new =>
      rintro heq
      obtain rfl : d = '\n' := Option.some.inj heq
      exact absurd (hnew _ List.mem_cons_self).2 (by decide)
  rw [hsplice, lines_take_append hlt hnewline,
    lines_append_of_lines_eq_cons (fun d hd => (hnew d hd).2) hcode,
    List.set_eq_take_append_cons_drop, if_pos hlt]

/-- Where a line starts that stands below the one with other blanks. -/
theorem lineStart_of_lines_eq_set {t t' l l' : Text} {line line' : Nat}
    (h : (lines t)[line]? = some l) (hset : lines t' = (lines t).set line l') (hlt : line < line') :
    lineStart t' line' + l.length = lineStart t line' + l'.length := by
  obtain ⟨hline, rfl⟩ := List.getElem?_eq_some_iff.1 h
  -- up to the line below, both texts fall into the lines before, the line, and the lines between
  have htake : ∀ ls : List Text, line < ls.length → (ls.take line').flatten.length
      = (ls.take line).flatten.length + ((ls[line]?).getD []).length
        + ((ls.drop (line + 1)).take (line' - (line + 1))).flatten.length := by
    intro ls hls
    have hsplit : ls.take line' = ls.take line ++ ls[line] ::
        (ls.drop (line + 1)).take (line' - (line + 1)) := by
      conv_lhs => rw [← List.take_append_drop line ls, List.drop_eq_getElem_cons hls]
      rw [List.take_append, List.length_take_of_le (Nat.le_of_lt hls), List.take_take,
        Nat.min_eq_right (Nat.le_of_lt hlt), List.take_cons (by omega), Nat.sub_sub]
    rw [hsplit, List.getElem?_eq_getElem hls, Option.getD_some, List.flatten_append,
      List.flatten_cons, List.length_append, List.length_append, Nat.add_assoc]
  have hset' : line < ((lines t).set line l').length := by rwa [List.length_set]
  rw [lineStart, lineStart, hset, htake _ hline, htake _ hset', List.take_set_of_le (Nat.le_refl _),
    List.drop_set_of_lt (Nat.lt_add_one _), List.getElem?_set_self hline,
    List.getElem?_eq_getElem hline, Option.getD_some, Option.getD_some]
  omega

end Text

/-! ### The change that is made to a line -/

namespace IndentStyle

open Text

variable {indenter style : IndentStyle} {t t' new ws rest : Text} {line line' : Nat} {c : Char}
  {ch : IndentChange}

/-- The blanks of a style end no line. -/
theorem isPadding_render (s : IndentStyle) (columns : Nat) : IsPadding (s.render columns) := by
  intro c hc
  have hcases : c = '\t' ∨ c = ' ' := by
    rw [render] at hc
    split at hc
    · rcases List.mem_append.1 hc with hc | hc
      · exact .inl (List.eq_of_mem_replicate hc)
      · exact .inr (List.eq_of_mem_replicate hc)
    · exact .inr (List.eq_of_mem_replicate hc)
  rcases hcases with rfl | rfl <;> decide

/-- The indentation of a line follows from the lines above it and from its code. -/
theorem lineIndent?_eq (h : (lines t)[line]? = some (ws ++ c :: rest))
    (hws : ∀ d ∈ ws, isBlank d = true) (hc : isBlank c = false) :
    indenter.lineIndent? t line = indenter.indentBelow?
      (Nesting.scanLines indenter (((lines t).take line).map stripNewline))
      (stripNewline (c :: rest)) := by
  have hcontent : lineContent? t line = some (stripNewline (ws ++ c :: rest)) := by
    rw [lineContent?, h, Option.map_some]
  rw [lineIndent?, hcontent]
  dsimp only
  rw [body_stripNewline_append_cons hws hc]

/-- The change of a line with code. -/
theorem changeFor?_eq (h : (lines t)[line]? = some (ws ++ c :: rest))
    (hws : ∀ d ∈ ws, isBlank d = true) (hc : isBlank c = false) :
    indenter.changeFor? style t line = (indenter.lineIndent? t line).bind fun columns =>
      if ws = style.render columns then none
      else some (⟨line, lineStart t line, ws.length, (style.render columns).length⟩,
        style.render columns) := by
  have hcontent : lineContent? t line = some (stripNewline (ws ++ c :: rest)) := by
    rw [lineContent?, h, Option.map_some]
  obtain ⟨rest', hrest'⟩ := exists_stripNewline_eq_cons rest hc
  rw [changeFor?, hcontent]
  dsimp only
  rw [body_stripNewline_append_cons hws hc, indentation_stripNewline_append_cons hws hc, hrest',
    if_neg (by simp)]
  cases indenter.lineIndent? t line <;> rfl

/-- What is known of the change that is made to a line: the line has code, and gets the blanks that
it should have. -/
theorem changeFor?_eq_some (h : indenter.changeFor? style t line = some (ch, new)) :
    ∃ ws c rest columns, (lines t)[line]? = some (ws ++ c :: rest) ∧
      (∀ d ∈ ws, isBlank d = true) ∧ isBlank c = false ∧
      indenter.lineIndent? t line = some columns ∧ new = style.render columns ∧ ws ≠ new ∧
      ch = ⟨line, lineStart t line, ws.length, new.length⟩ := by
  cases hcontent : lineContent? t line with
  | none => simp [changeFor?, hcontent] at h
  | some content =>
    have hbody : body content ≠ [] := by
      intro hnil
      simp [changeFor?, hcontent, hnil] at h
    obtain ⟨l, hl, rfl⟩ := Option.map_eq_some_iff.1 hcontent
    obtain ⟨ws, c, rest, rfl, hws, hc⟩ := exists_eq_append_cons_of_body_stripNewline hbody
    rw [changeFor?_eq hl hws hc] at h
    obtain ⟨columns, hcolumns, h⟩ := Option.bind_eq_some_iff.1 h
    split at h
    next => cases h
    next hne =>
      cases h
      exact ⟨ws, c, rest, columns, hl, hws, hc, hcolumns, rfl, hne, rfl⟩

/-- A change is told of the line that it is made to. -/
theorem line_of_changeFor? (h : indenter.changeFor? style t line = some (ch, new)) :
    ch.line = line := by
  obtain ⟨ws, c, rest, columns, -, -, -, -, -, -, rfl⟩ := changeFor?_eq_some h
  rfl

/-- The lines up to one decide what is done to it. -/
theorem changeFor?_congr (h : (lines t').take (line + 1) = (lines t).take (line + 1)) :
    indenter.changeFor? style t' line = indenter.changeFor? style t line := by
  have hget : (lines t')[line]? = (lines t)[line]? := by
    rw [← List.getElem?_take_of_lt (Nat.lt_succ_self line), h,
      List.getElem?_take_of_lt (Nat.lt_succ_self line)]
  have htake : (lines t').take line = (lines t).take line := by
    have := congrArg (List.take line) h
    simpa [List.take_take] using this
  simp only [changeFor?, lineIndent?, lineContent?, lineStart, hget, htake]

/-- The text after a change of a line: the line has other blanks. -/
theorem lines_splice_of_changeFor? (h : indenter.changeFor? style t line = some (ch, new)) :
    ∃ ws c rest, (lines t)[line]? = some (ws ++ c :: rest) ∧ (∀ d ∈ ws, isBlank d = true) ∧
      isBlank c = false ∧ ws ≠ new ∧ IsPadding new ∧
      ch = ⟨line, lineStart t line, ws.length, new.length⟩ ∧
      lines (splice t ⟨ch.start, ch.start + ch.oldLength⟩ new)
        = (lines t).set line (new ++ c :: rest) := by
  obtain ⟨ws, c, rest, columns, hl, hws, hc, -, rfl, hne, rfl⟩ := changeFor?_eq_some h
  exact ⟨ws, c, rest, hl, hws, hc, hne, isPadding_render style columns, rfl,
    lines_splice_indentation hl hws hc (isPadding_render style columns)⟩

/-- Other blanks keep the number of lines. -/
theorem lineCount_splice_of_changeFor? (h : indenter.changeFor? style t line = some (ch, new)) :
    lineCount (splice t ⟨ch.start, ch.start + ch.oldLength⟩ new) = lineCount t := by
  obtain ⟨ws, c, rest, -, -, -, -, -, -, hlines⟩ := lines_splice_of_changeFor? h
  rw [lineCount, hlines, List.length_set, lineCount]

/-- The lines above one do not see that it changes. -/
theorem changeFor?_of_lt (h : indenter.changeFor? style t line = some (ch, new))
    (hlt : line' < line) :
    indenter.changeFor? style (splice t ⟨ch.start, ch.start + ch.oldLength⟩ new) line'
      = indenter.changeFor? style t line' := by
  obtain ⟨ws, c, rest, -, -, -, -, -, -, hlines⟩ := lines_splice_of_changeFor? h
  refine changeFor?_congr ?_
  rw [hlines, List.take_set_of_le hlt]

/-- The indentation of a line follows from the lines above it, so it does not change with the line
itself, nor with a line below. -/
theorem lineIndent?_splice (h : indenter.changeFor? style t line' = some (ch, new))
    (hle : line ≤ line') :
    indenter.lineIndent? (splice t ⟨ch.start, ch.start + ch.oldLength⟩ new) line =
      indenter.lineIndent? t line := by
  obtain ⟨ws, c, rest, hl, hws, hc, -, hpad, -, hlines⟩ := lines_splice_of_changeFor? h
  have habove : (lines (splice t ⟨ch.start, ch.start + ch.oldLength⟩ new)).take line =
      (lines t).take line := by
    rw [hlines, List.take_set_of_le hle]
  rcases Nat.lt_or_eq_of_le hle with hlt | rfl
  · have hget : (lines (splice t ⟨ch.start, ch.start + ch.oldLength⟩ new))[line]? =
        (lines t)[line]? := by
      rw [hlines, List.getElem?_set_ne (Nat.ne_of_gt hlt)]
    simp only [lineIndent?, lineContent?, habove, hget]
  · have hget := congrArg (·[line]?) hlines
    rw [List.getElem?_set_self (List.getElem?_eq_some_iff.1 hl).1] at hget
    rw [lineIndent?_eq hget (fun d hd => (hpad d hd).1) hc, lineIndent?_eq hl hws hc, habove]

/-- A line that has been given its indentation keeps it: what is nested in what above a line does
not depend on its own blanks. -/
theorem changeFor?_self (h : indenter.changeFor? style t line = some (ch, new)) :
    indenter.changeFor? style (splice t ⟨ch.start, ch.start + ch.oldLength⟩ new) line = none := by
  obtain ⟨ws, c, rest, columns, hl, hws, hc, hcolumns, rfl, -, rfl⟩ := changeFor?_eq_some h
  have hpad := isPadding_render style columns
  have hnew : ∀ d ∈ style.render columns, isBlank d = true := fun d hd => (hpad d hd).1
  have hlines := lines_splice_indentation hl hws hc hpad
  have hline : line < (lines t).length := (List.getElem?_eq_some_iff.1 hl).1
  have hget := congrArg (·[line]?) hlines
  rw [List.getElem?_set_self hline] at hget
  rw [changeFor?_eq hget hnew hc, lineIndent?_splice h (Nat.le_refl _), hcolumns,
    Option.bind_some, if_pos rfl]

/-- A run keeps the number of lines. -/
theorem lineCount_reindentText (ns : List Nat) :
    lineCount (indenter.reindentText style t ns) = lineCount t := by
  induction ns generalizing t with
  | nil => rfl
  | cons line ns ih =>
    rw [reindentText]
    split
    · rfl
    · rcases hchange : indenter.changeFor? style t line with _ | ⟨ch, new⟩
      · exact ih
      · exact ih.trans (lineCount_splice_of_changeFor? hchange)

end IndentStyle

end Mend
