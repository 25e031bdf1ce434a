import Mend.Proofs.CaretThroughChange
import Mend.Proofs.SettledIndentation

/-!
# Texts with other blanks

Two texts that differ in the blanks that open some of their lines are told as a relation that is
read from the left, character by character.  It keeps in mind whether a line starts where the
reading has come to, for blanks are exchanged only there, and the offset in the first of the texts.

A run that gives lines their indentation relates the text before to the text after, and the places
where blanks are exchanged are the starts of the lines it changed.

## Main definitions

* `BlankStep`, `Reblanked` — a character with the blanks before it in both texts, and two texts with
  other blanks.
* `Reblanked.Cut` — a place in both texts, up to which they are told and from which on.
* `Text.IsReblankedLine`, `Text.HasReblankedLines` — a line that was given other blanks, and a text
  with such lines.

## Main results

* `Reblanked.eq_iff` — such texts are the same when no blanks are exchanged.
* `Text.HasReblankedLines.reblanked` — texts are related when their lines are.
* `Draft.reblanked_reindent` — **giving lines their indentation exchanges blanks and nothing else.**
-/

namespace Mend

open Text

/-! ### Two texts, read side by side -/

/-- A character and the blanks before it in two texts, at an offset of the first one.  Blanks are
exchanged at the offsets in `D`, which are starts of lines with code. -/
inductive BlankStep (D : Nat → Prop) (s : Bool) (o : Nat) : Text → Text → Char → Prop
  /-- No blanks are exchanged here. -/
  | keep {c : Char} (hd : ¬D o) : BlankStep D s o [] [] c
  /-- A line starts here, and has other blanks. -/
  | change {old new : Text} {c : Char} (hs : s = true) (hd : D o) (hne : old ≠ new)
      (hold : IsPadding old) (hnew : IsPadding new) (hc : isBlank c = false) :
      BlankStep D s o old new c

/-- Two texts that differ in the blanks of some lines, read from an offset of the first one.  The
flag says whether a line starts there. -/
inductive Reblanked (D : Nat → Prop) : Bool → Nat → Text → Text → Prop
  /-- Both texts end. -/
  | nil {s : Bool} {o : Nat} : Reblanked D s o [] []
  /-- Both texts go on with the same character, after blanks. -/
  | cons {s : Bool} {o : Nat} {old new t t' : Text} {c : Char} (hstep : BlankStep D s o old new c)
      (h : Reblanked D (isLineBreak c) (o + old.length + 1) t t') :
      Reblanked D s o (old ++ c :: t) (new ++ c :: t')

namespace BlankStep

variable {D : Nat → Prop} {s : Bool} {o : Nat} {old new : Text} {c : Char}

theorem isPadding (h : BlankStep D s o old new c) : IsPadding old ∧ IsPadding new := by
  cases h with
  | keep => exact ⟨isPadding_nil, isPadding_nil⟩
  | change _ _ _ hold hnew _ => exact ⟨hold, hnew⟩

/-- Within a line no blanks are exchanged. -/
theorem eq_nil_of_inside (h : BlankStep D false o old new c) : old = [] ∧ new = [] := by
  cases h with
  | keep => exact ⟨rfl, rfl⟩
  | change hs => cases hs

/-- Exchanged blanks are all blanks that open their line. -/
theorem eq_nil_of_isBlank (h : BlankStep D s o old new c) (hc : isBlank c = true) :
    old = [] ∧ new = [] := by
  cases h with
  | keep => exact ⟨rfl, rfl⟩
  | change _ _ _ _ _ hcode =>
    rw [hcode] at hc
    cases hc

end BlankStep

namespace Reblanked

variable {D : Nat → Prop} {s : Bool} {o : Nat} {t t' u u' : Text}

/-- A text is the same as itself, as long as no blanks are exchanged in it. -/
theorem append_of_forall_not {x : Text} (hd : ∀ d, D d → ¬(o ≤ d ∧ d < o + x.length))
    (h : Reblanked D ((x.getLast?.map isLineBreak).getD s) (o + x.length) u u') :
    Reblanked D s o (x ++ u) (x ++ u') := by
  induction x generalizing s o with
  | nil => exact h
  | cons c x ih =>
    have hhere : ¬D o := fun hd' => hd o hd' ⟨Nat.le_refl o, by simp⟩
    refine cons (.keep hhere) (ih ?_ ?_)
    · intro d hd' hmem
      refine hd d hd' ?_
      simp only [List.length_nil, List.length_cons] at hmem ⊢
      omega
    · -- the last character of the rest is the last one of all, unless there is no rest
      have hlast : (x.getLast?.map isLineBreak).getD (isLineBreak c)
          = (((c :: x).getLast?).map isLineBreak).getD s := by
        rw [List.getLast?_cons]
        cases x.getLast? <;> rfl
      rw [hlast, List.length_nil, Nat.add_zero, Nat.add_assoc, Nat.add_comm 1]
      exact h

/-- **Texts with other blanks are the same when no blanks are exchanged.** -/
theorem eq_iff (h : Reblanked D s o t t') :
    t' = t ↔ ∀ d, D d → ¬(o ≤ d ∧ d < o + t.length) := by
  induction h with
  | nil =>
    simp only [List.length_nil, true_iff]
    intro d hd
    omega
  | @cons s o old new t t' c hstep h ih =>
    cases hstep with
    | keep hd =>
      rw [List.nil_append, List.nil_append, List.cons.injEq, ih]
      simp only [true_and, List.length_nil, List.length_cons]
      constructor
      · intro hrest d hd' hmem
        have hne : d ≠ o := fun heq => hd (heq ▸ hd')
        exact hrest d hd' (by omega)
      · intro hall d hd' hmem
        exact hall d hd' (by omega)
    | change hs hd hne hold hnew hc =>
      constructor
      · intro heq
        have hblanks := congrArg indentation heq
        rw [indentation_append_cons (fun x hx => (hnew x hx).1) hc,
          indentation_append_cons (fun x hx => (hold x hx).1) hc] at hblanks
        exact absurd hblanks.symm hne
      · intro hall
        refine absurd ⟨Nat.le_refl o, ?_⟩ (hall o hd)
        simp only [List.length_append, List.length_cons]
        omega

/-- Within a line both texts go on with the same character, or both end. -/
theorem head?_eq (h : Reblanked D false o t t') : t'.head? = t.head? := by
  cases h with
  | nil => rfl
  | cons hstep =>
    obtain ⟨rfl, rfl⟩ := hstep.eq_nil_of_inside
    rfl

/-! ### Places in both texts -/

/-- A place in both texts: they are told up to it, and from there on. -/
structure Cut (D : Nat → Prop) (s : Bool) (o : Nat) (t t' : Text) (n n' : Nat) : Prop where
  /-- It lies in the first text. -/
  le : n ≤ t.length
  /-- It lies in the second text. -/
  le' : n' ≤ t'.length
  /-- What stands before it. -/
  front : Reblanked D s o (t.take n) (t'.take n')
  /-- What stands after it. -/
  back : ∃ s', Reblanked D s' (o + n) (t.drop n) (t'.drop n')

theorem cut_zero (h : Reblanked D s o t t') : Cut D s o t t' 0 0 :=
  ⟨Nat.zero_le _, Nat.zero_le _, .nil, s, h⟩

/-- A place after a character. -/
theorem Cut.cons {old new : Text} {c : Char} {n n' : Nat} (hstep : BlankStep D s o old new c)
    (h : Cut D (isLineBreak c) (o + old.length + 1) t t' n n') :
    Cut D s o (old ++ c :: t) (new ++ c :: t') (old.length + (n + 1)) (new.length + (n' + 1)) := by
  obtain ⟨hle, hle', hfront, s', hback⟩ := h
  refine ⟨?_, ?_, ?_, s', ?_⟩
  · simp only [List.length_append, List.length_cons]
    omega
  · simp only [List.length_append, List.length_cons]
    omega
  · rw [List.take_length_add_append, List.take_length_add_append, List.take_succ_cons,
      List.take_succ_cons]
    exact .cons hstep hfront
  · rw [List.drop_length_add_append, List.drop_length_add_append, List.drop_succ_cons,
      List.drop_succ_cons, ← Nat.add_assoc, ← Nat.add_assoc, Nat.add_right_comm _ n 1]
    exact hback

end Reblanked

/-! ### Lines with other blanks -/

namespace Text

/-- A line that was given other blanks. -/
def IsReblankedLine (l l' : Text) : Prop :=
  ∃ ws new c rest, l = ws ++ c :: rest ∧ l' = new ++ c :: rest ∧ ws ≠ new ∧ IsPadding ws ∧
    IsPadding new ∧ isBlank c = false

theorem IsReblankedLine.ne_nil {l l' : Text} (h : IsReblankedLine l l') : l ≠ [] := by
  obtain ⟨ws, new, c, rest, rfl, -⟩ := h
  simp

/-- A text whose lines are those of another one, except that the lines in `S` have other blanks. -/
structure HasReblankedLines (S : Nat → Prop) (t t' : Text) : Prop where
  /-- There are as many lines as before. -/
  count_eq : lineCount t' = lineCount t
  /-- The lines in `S` exist and have other blanks. -/
  changed : ∀ line, S line → ∃ l l', (lines t)[line]? = some l ∧ (lines t')[line]? = some l' ∧
    IsReblankedLine l l'
  /-- All other lines are as they were. -/
  kept : ∀ line, ¬S line → (lines t')[line]? = (lines t)[line]?

theorem HasReblankedLines.refl {S : Nat → Prop} (hS : ∀ line, ¬S line) (t : Text) :
    HasReblankedLines S t t :=
  ⟨rfl, fun line hline => absurd hline (hS line), fun _ _ => rfl⟩

/-- One line gets other blanks, and then lines below it do. -/
theorem HasReblankedLines.cons {S : Nat → Prop} {t t₁ t' l l₁ : Text} {line : Nat}
    (hl : (lines t)[line]? = some l) (hset : lines t₁ = (lines t).set line l₁)
    (hline : IsReblankedLine l l₁) (h : HasReblankedLines S t₁ t')
    (hbelow : ∀ line', S line' → line < line') :
    HasReblankedLines (fun line' => line' = line ∨ S line') t t' := by
  have hlt : line < (lines t).length := (List.getElem?_eq_some_iff.1 hl).1
  refine ⟨?_, ?_, ?_⟩
  · rw [h.count_eq, lineCount, lineCount, hset, List.length_set]
  · rintro line' (rfl | hS)
    · -- the line is not changed again
      have hstays : ¬S line' := fun hS => Nat.lt_irrefl line' (hbelow line' hS)
      refine ⟨l, l₁, hl, ?_, hline⟩
      rw [h.kept line' hstays, hset, List.getElem?_set_self hlt]
    · obtain ⟨m, m', hm, hm', hchanged⟩ := h.changed line' hS
      rw [hset, List.getElem?_set_ne (Nat.ne_of_lt (hbelow line' hS))] at hm
      exact ⟨m, m', hm, hm', hchanged⟩
  · intro line' hnot
    rw [not_or] at hnot
    rw [h.kept line' hnot.2, hset, List.getElem?_set_ne (Ne.symm hnot.1)]

end Text

namespace Reblanked

variable {D : Nat → Prop} {s : Bool} {o : Nat} {l l' u u' : Text}

/-- A line that keeps its blanks, before lines that may not. -/
theorem append_line (hd : ∀ d, D d → ¬(o ≤ d ∧ d < o + l.length))
    (hend : (u = [] ∧ u' = []) ∨ ∃ front b, l = front ++ [b] ∧ isLineBreak b = true)
    (h : Reblanked D true (o + l.length) u u') : Reblanked D s o (l ++ u) (l ++ u') := by
  refine append_of_forall_not hd ?_
  rcases hend with ⟨rfl, rfl⟩ | ⟨front, b, rfl, hb⟩
  · exact .nil
  · rw [List.getLast?_concat, Option.map_some, Option.getD_some, hb]
    exact h

/-- A line that was given other blanks, before other lines. -/
theorem append_reblankedLine (hline : IsReblankedLine l l') (hhere : D o)
    (hd : ∀ d, D d → ¬(o < d ∧ d < o + l.length))
    (hend : (u = [] ∧ u' = []) ∨ ∃ front b, l = front ++ [b] ∧ isLineBreak b = true)
    (h : Reblanked D true (o + l.length) u u') : Reblanked D true o (l ++ u) (l' ++ u') := by
  obtain ⟨ws, new, c, rest, rfl, rfl, hne, hws, hnew, hc⟩ := hline
  have hlength : o + (ws ++ c :: rest).length = o + ws.length + 1 + rest.length := by
    simp only [List.length_append, List.length_cons]
    omega
  rw [hlength] at hd h
  have hbreak := isLineBreak_eq_false hc
  -- the character that the line begins with does not end it
  have hendRest : (u = [] ∧ u' = []) ∨ ∃ front b, rest = front ++ [b] ∧ isLineBreak b = true := by
    rcases hend with hend | ⟨front, b, hfront, hb⟩
    · exact .inl hend
    · rcases List.eq_nil_or_concat rest with rfl | ⟨front', b', rfl⟩
      · obtain ⟨-, hcb⟩ := List.append_inj' hfront rfl
        rw [← List.singleton_inj.1 hcb, hbreak] at hb
        cases hb
      · rw [List.concat_eq_append] at hfront ⊢
        rw [← List.cons_append, ← List.append_assoc] at hfront
        obtain ⟨-, hb'⟩ := List.append_inj' hfront rfl
        exact .inr ⟨front', b', rfl, List.singleton_inj.1 hb' ▸ hb⟩
  rw [List.append_assoc, List.append_assoc, List.cons_append]
  refine cons (.change rfl hhere hne hws hnew hc) ?_
  exact append_line (fun d hd' hmem => hd d hd' (by omega)) hendRest h

end Reblanked

/-- **Texts have other blanks when their lines do.** -/
theorem Text.HasReblankedLines.reblanked {S D : Nat → Prop} {t t' : Text}
    (h : HasReblankedLines S t t') (hD : ∀ d, D d ↔ ∃ line, S line ∧ d = lineStart t line) :
    Reblanked D true 0 t t' := by
  -- a line in `S` is not empty, so no other line starts where it does
  have hapart : ∀ line l, (lines t)[line]? = some l → ∀ line', S line' → line' ≠ line →
      ¬(lineStart t line ≤ lineStart t line' ∧
        lineStart t line' < lineStart t line + l.length) := by
    intro line l hl line' hline' hne
    rcases Nat.lt_or_gt_of_ne hne with hlt | hgt
    · obtain ⟨m, m', hm, -, hchanged⟩ := h.changed line' hline'
      have hpos := List.length_pos_iff.2 hchanged.ne_nil
      have hbelow := lineStart_add_length_le_lineStart hm hlt
      omega
    · have hbelow := lineStart_add_length_le_lineStart hl hgt
      omega
  have hdrop : ∀ {ls : List Text} {line : Nat} {x : Text}, ls[line]? = some x →
      (ls.drop line).flatten = x ++ (ls.drop (line + 1)).flatten := by
    intro ls line x hx
    obtain ⟨hlen, rfl⟩ := List.getElem?_eq_some_iff.1 hx
    rw [List.drop_eq_getElem_cons hlen, List.flatten_cons]
  -- from the last line up
  have hsuffix : ∀ k line, line + k = lineCount t →
      Reblanked D true (lineStart t line) ((lines t).drop line).flatten
        ((lines t').drop line).flatten := by
    intro k
    induction k with
    | zero =>
      intro line hline
      have hpast : lineCount t ≤ line := Nat.le_of_eq hline.symm
      rw [List.drop_eq_nil_of_le hpast, List.drop_eq_nil_of_le (h.count_eq.trans_le hpast)]
      exact .nil
    | succ k ih =>
      intro line hline
      have hlt : line < lineCount t := by omega
      have hl : (lines t)[line]? = some (lines t)[line] := List.getElem?_eq_getElem hlt
      have hrest := ih (line + 1) (by omega)
      rw [lineStart_succ hl] at hrest
      -- a line ends with a break when another one follows
      have hend : (((lines t).drop (line + 1)).flatten = [] ∧
          ((lines t').drop (line + 1)).flatten = []) ∨
            ∃ front b, (lines t)[line] = front ++ [b] ∧ isLineBreak b = true := by
        rcases Nat.lt_or_ge (line + 1) (lineCount t) with hmore | hlast
        · obtain ⟨front, b, hfront, hb⟩ := exists_eq_concat_of_lt hmore
          rw [hl, Option.some.injEq] at hfront
          exact .inr ⟨front, b, hfront, hb⟩
        · rw [List.drop_eq_nil_of_le hlast, List.drop_eq_nil_of_le (h.count_eq.trans_le hlast)]
          exact .inl ⟨rfl, rfl⟩
      by_cases hline' : S line
      · obtain ⟨l, l', hl₁, hl', hchanged⟩ := h.changed line hline'
        obtain rfl : (lines t)[line] = l := Option.some.inj (hl.symm.trans hl₁)
        rw [hdrop hl, hdrop hl']
        refine .append_reblankedLine hchanged ((hD _).2 ⟨line, hline', rfl⟩) ?_ hend hrest
        intro d hd hmem
        obtain ⟨line', hS, rfl⟩ := (hD d).1 hd
        have hne : line' ≠ line := by
          rintro rfl
          omega
        exact hapart line _ hl line' hS hne ⟨Nat.le_of_lt hmem.1, hmem.2⟩
      · rw [hdrop hl, hdrop ((h.kept line hline').trans hl)]
        refine .append_line ?_ hend hrest
        intro d hd hmem
        obtain ⟨line', hS, rfl⟩ := (hD d).1 hd
        have hne : line' ≠ line := by
          rintro rfl
          exact hline' hS
        exact hapart line _ hl line' hS hne hmem
  have hwhole := hsuffix (lineCount t) 0 (Nat.zero_add _)
  rw [List.drop_zero, List.drop_zero, flatten_lines, flatten_lines] at hwhole
  exact hwhole

/-! ### Runs that give lines their indentation -/

namespace Draft

variable {indenter style : IndentStyle} {d : Draft} {lines : List Nat}

/-- A run over a settled line and lines below it changes only lines below. -/
theorem line_lt_of_mem_reindent {line : Nat}
    (hsettled : IndentStyle.Settled indenter style d.text line)
    (hle : ∀ line' ∈ lines, line ≤ line') {ch : IndentChange}
    (h : ch ∈ (d.reindent indenter style lines).2) : line < ch.line := by
  induction lines generalizing d with
  | nil => exact absurd h List.not_mem_nil
  | cons line' lines ih =>
    have hrest : ∀ l ∈ lines, line ≤ l := fun l hl => hle l (List.mem_cons_of_mem _ hl)
    rw [reindent] at h
    split at h
    · exact absurd h List.not_mem_nil
    · rcases hchange : indenter.changeFor? style d.text line' with _ | ⟨ch', new⟩
      · rw [hchange] at h
        exact ih hsettled hrest h
      · rw [hchange] at h
        have hlt : line < line' := by
          refine Nat.lt_of_le_of_ne (hle line' List.mem_cons_self) ?_
          rintro rfl
          rw [IndentStyle.Settled, hchange] at hsettled
          cases hsettled
        rcases List.mem_cons.1 h with rfl | h
        · rw [IndentStyle.line_of_changeFor? hchange]
          exact hlt
        · refine ih ?_ hrest h
          rw [IndentStyle.Settled, text_exchange, IndentStyle.changeFor?_of_lt hchange hlt]
          exact hsettled

/-- A run changes the blanks of the lines that it says it changed. -/
theorem hasReblankedLines_reindent (hlines : lines.Pairwise (· ≤ ·)) :
    HasReblankedLines (fun line => ∃ ch ∈ (d.reindent indenter style lines).2, ch.line = line)
      d.text (d.reindent indenter style lines).1.text := by
  induction lines generalizing d with
  | nil =>
    refine .refl ?_ _
    rintro line ⟨ch, hch, -⟩
    exact absurd hch List.not_mem_nil
  | cons line lines ih =>
    obtain ⟨hle, hrest⟩ := List.pairwise_cons.1 hlines
    rw [reindent]
    split
    · refine .refl ?_ _
      rintro line ⟨ch, hch, -⟩
      exact absurd hch List.not_mem_nil
    · rcases hchange : indenter.changeFor? style d.text line with _ | ⟨ch, new⟩
      · exact ih hrest
      · have hself : IndentStyle.Settled indenter style
            (d.exchange ⟨ch.start, ch.start + ch.oldLength⟩ new).text line :=
          IndentStyle.changeFor?_self hchange
        have hrun := ih (d := d.exchange ⟨ch.start, ch.start + ch.oldLength⟩ new) hrest
        obtain ⟨ws, c, rest, hl, hws, hc, hne, hnew, rfl, hset⟩ :=
          IndentStyle.lines_splice_of_changeFor? hchange
        have hpad : IsPadding ws := isPadding_of_mem_lines (List.mem_of_getElem? hl) hws hc
        have hall := hrun.cons hl hset ⟨ws, new, c, rest, rfl, rfl, hne, hpad, hnew, hc⟩ (by
          rintro line' ⟨ch, hch, rfl⟩
          exact line_lt_of_mem_reindent hself hle hch)
        convert hall using 2 with line'
        simp [eq_comm]

/-- **Giving lines their indentation exchanges blanks and nothing else**, at the starts of the lines
that it changes. -/
theorem reblanked_reindent (indenter style : IndentStyle) (d : Draft)
    (hlines : lines.Pairwise (· ≤ ·)) :
    Reblanked (fun o => ∃ ch ∈ (d.reindent indenter style lines).2, o = lineStart d.text ch.line)
      true 0 d.text (d.reindent indenter style lines).1.text := by
  refine (hasReblankedLines_reindent hlines).reblanked fun o => ⟨?_, ?_⟩
  · rintro ⟨ch, hch, rfl⟩
    exact ⟨ch.line, ⟨ch, hch, rfl⟩, rfl⟩
  · rintro ⟨line, ⟨ch, hch, rfl⟩, rfl⟩
    exact ⟨ch, hch, rfl⟩

end Draft

end Mend
