import Mend.Proofs.InsertionFixes
import Mend.Proofs.LexedLines

/-!
# Lines of included files

The line of an included file is counted while the text is lexed.  It is the line on which the
directive begins, unless a literal before it goes on to another row behind a backslash: the rows
that literals go on to are left out of the count.  From further down in the file, another header is
included at the start of a row below the counted line.  So when the line is right, it comes below
the row on which the directive begins.

## Main definitions

* `Token.IsContinued` — a literal that a backslash carries on to another row.
* `Lexed.tokensBefore` — the tokens of a text that end before an offset.

## Main results

* `Text.rowOf_rowStart`, `Text.newline_before_rowStart` — a row starts behind a newline.
* `Lexeme.newline_mem_token` — only such a literal hides a newline.
* `ParsedFile.exists_includeOffset_eq` — where a header is included.
* `Lexed.line_add_newlines` — which lines are counted.
* `Lexed.line_of_include_eq_iff` — **the line of an included file is right just if no literal
  before it goes on to another row.**
* `Lexed.exists_line_of_include_ne` — a literal that goes on to a second row makes it wrong.
-/

namespace Mend

/-! ### Where rows start -/

namespace Text

variable {t : Text} {row : Nat}

theorem newline_not_mem_of_mem_rows {r : Text} (h : r ∈ rows t) : '\n' ∉ r := by
  induction t generalizing r with
  | nil =>
    obtain rfl : r = [] := by simpa [rows] using h
    exact List.not_mem_nil
  | cons c t ih =>
    rw [rows] at h
    split at h
    next =>
      rcases List.mem_cons.1 h with rfl | h
      · exact List.not_mem_nil
      · exact ih h
    next hc =>
      rw [rows_eq_cons t, pushChar] at h
      rcases List.mem_cons.1 h with rfl | h
      · have hrow := ih (r := firstRow t) (by rw [rows_eq_cons t]; exact List.mem_cons_self)
        rintro hmem
        rcases List.mem_cons.1 hmem with rfl | hmem
        · exact hc rfl
        · exact hrow hmem
      · exact ih (List.mem_of_mem_tail h)

/-- The rows before a row open the text, each with its newline. -/
theorem take_rowStart (h : row < rowCount t) :
    t.take (rowStart t row) = rowsBefore t row := by
  have hlt := rowCount_eq_length t ▸ h
  have hprefix := (List.prefix_append _ _).trans (prefix_join ['\n'] hlt)
  rw [join_rows] at hprefix
  rw [rowStart_of_lt h]
  exact (List.prefix_iff_eq_take.1 hprefix).symm

/-- The row that starts at an offset holds it. -/
theorem rowOf_rowStart (h : row < rowCount t) : rowOf t (rowStart t row) = row := by
  have hcount (rs : List Text) (hrs : ∀ r ∈ rs, '\n' ∉ r) :
      (rs.flatMap (· ++ ['\n'])).count '\n' = rs.length := by
    induction rs with
    | nil => rfl
    | cons r rs ih =>
      obtain ⟨hr, hrs⟩ := List.forall_mem_cons.1 hrs
      simp [List.count_eq_zero.2 hr, ih hrs]
  rw [rowOf_eq, take_rowStart h, rowsBefore,
    hcount _ fun r hr => newline_not_mem_of_mem_rows (List.mem_of_mem_take hr)]
  exact List.length_take_of_le (Nat.le_of_lt (rowCount_eq_length t ▸ h))

/-- A newline stands before every row but the first one. -/
theorem newline_before_rowStart (h : row < rowCount t) (hrow : 0 < row) :
    ['\n'] <:+ t.take (rowStart t row) := by
  obtain ⟨row, rfl⟩ := Nat.exists_eq_add_of_lt hrow
  rw [take_rowStart h, rowsBefore, Nat.zero_add, List.take_add_one, List.flatMap_append]
  have hlt : row < (rows t).length := by
    rw [Nat.zero_add, rowCount_eq_length] at h
    exact Nat.lt_of_succ_lt h
  rw [List.getElem?_eq_getElem hlt, Option.toList_some, List.flatMap_singleton]
  exact (List.suffix_append _ _).trans (List.suffix_append _ _)

end Text

/-! ### Newlines in tokens -/

namespace Lexeme

variable {b hex : Bool} {c q last : Char} {n : Nat} {t : Text} {k : TokenKind}

theorem newline_not_mem_word : '\n' ∉ t.take (restOfWord t) := by
  intro hmem
  rw [restOfWord, ← List.prefix_iff_eq_take.1 (List.takeWhile_prefix _)] at hmem
  have hchar := List.all_eq_true.1 List.all_takeWhile _ hmem
  exact absurd hchar (by decide +kernel)

theorem newline_not_mem_number : '\n' ∉ t.take (restOfNumber hex last t) := by
  induction t generalizing last with
  | nil => exact List.not_mem_nil
  | cons d t ih =>
    rw [restOfNumber]
    split
    next hd =>
      intro hmem
      rcases List.mem_cons.1 hmem with rfl | hmem
      · exact absurd hd (by simp)
      · exact ih hmem
    next => exact List.not_mem_nil

/-- A literal goes on to another row behind a backslash only. -/
theorem continued_of_newline_mem (h : restOfLiteral? q t = some n) (hmem : '\n' ∈ t.take n) :
    ['\\', '\n'] <:+: t.take n := by
  fun_induction restOfLiteral? q t generalizing n with
  | case1 | case2 => cases h
  | case3 d rest ih =>
    obtain ⟨m, hm, rfl⟩ := Option.map_eq_some_iff.1 h
    rw [List.take_succ_cons, List.take_succ_cons] at hmem ⊢
    by_cases hd : d = '\n'
    · subst hd
      exact (List.prefix_append ['\\', '\n'] _).isInfix
    · have hrest : '\n' ∈ rest.take m := by simpa [Ne.symm hd] using hmem
      have hinfix := (ih hm hrest).trans (List.suffix_cons d _).isInfix
      exact hinfix.trans (List.suffix_cons _ _).isInfix
  | case4 rest hnewline _ =>
    cases h
    obtain rfl : '\n' = q := by simpa using hmem
    exact absurd rfl hnewline
  | case5 d rest hnewline _ _ ih =>
    obtain ⟨m, hm, rfl⟩ := Option.map_eq_some_iff.1 h
    rw [List.take_succ_cons] at hmem ⊢
    rcases List.mem_cons.1 hmem with rfl | hmem
    · exact absurd rfl hnewline
    · exact (ih hm hmem).trans (List.suffix_cons _ _).isInfix

/-- **Only a literal hides a newline**, and a backslash stands before that. -/
theorem newline_mem_token (h : scan b c t = .ok (.token k, n)) (hmem : '\n' ∈ c :: t.take n) :
    (k = .stringLiteral ∨ k = .charLiteral) ∧ ['\\', '\n'] <:+: c :: t.take n := by
  rcases scan_token_cases h with ⟨hk, hquote, hn⟩ | ⟨-, hc, rfl⟩ | ⟨-, hc, rfl⟩ | ⟨hp, -⟩
  · refine ⟨hk, ?_⟩
    rcases List.mem_cons.1 hmem with rfl | hmem
    · exact absurd hquote (by decide)
    · exact (continued_of_newline_mem hn hmem).trans (List.suffix_cons _ _).isInfix
  · rcases List.mem_cons.1 hmem with rfl | hmem
    · exact absurd hc (by decide)
    · exact absurd hmem newline_not_mem_number
  · rcases List.mem_cons.1 hmem with rfl | hmem
    · exact absurd hc (by decide +kernel)
    · exact absurd hmem newline_not_mem_word
  · have hall : punctuators.all (fun p => !p.1.toList.contains '\n') = true := by decide
    have hnone := List.all_eq_true.1 hall _ hp
    rw [String.toList_ofList] at hnone
    exact absurd hmem (by simpa using hnone)

end Lexeme

/-- A literal that a backslash carries on to another row. -/
def Token.IsContinued (tok : Token) : Prop :=
  (tok.kind = .stringLiteral ∨ tok.kind = .charLiteral) ∧ ['\\', '\n'] <:+: tok.spelling.toList

instance (tok : Token) : Decidable tok.IsContinued := inferInstanceAs (Decidable (_ ∧ _))

/-! ### Included files -/

/-- The lines of included files do not fall. -/
theorem Include.pairwise_line (line : Nat) (ls : List Lexeme) :
    (ofLexemes line ls).Pairwise (·.line ≤ ·.line) := by
  induction ls generalizing line with
  | nil => exact .nil
  | cons l ls ih =>
    rw [ofLexemes]
    split
    next =>
      refine .cons ?_ (ih _)
      intro i hi
      obtain ⟨front, -, -, -, -, -, hline⟩ := exists_of_mem_ofLexemes hi
      show line ≤ i.line
      omega
    next => exact ih _

/-- **A header is included on the line after a file that is included above**, if there is one. -/
theorem ParsedFile.exists_includeOffset_eq {f : ParsedFile} {i : Include} {row : Nat}
    (hi : i ∈ f.includes) (hrow : i.line < row) :
    ∃ line, i.line ≤ line ∧ line < row ∧ f.includeOffset row = Text.rowStart f.text line := by
  obtain ⟨L, p, hL, -, hcode⟩ := SourceCode.ofText_eq_ok_iff.1 f.isReading
  obtain ⟨ls, -, rfl⟩ := Lexed.exists_split_of_ofText hL
  have hincludes : f.includes = Include.ofLexemes 1 ls := congrArg SourceCode.includes hcode
  have hmem : i ∈ f.includes.filter fun j => j.line < row :=
    List.mem_filter.2 ⟨hi, by simpa using hrow⟩
  have hsorted : (f.includes.filter fun j => j.line < row).Pairwise (·.line ≤ ·.line) :=
    (hincludes ▸ Include.pairwise_line 1 ls).filter _
  obtain ⟨above, last, habove⟩ :=
    (List.eq_nil_or_concat' (f.includes.filter fun j => j.line < row)).resolve_left
      (List.ne_nil_of_mem hmem)
  have hlast : last ∈ f.includes.filter fun j => j.line < row :=
    habove ▸ List.mem_append_right _ List.mem_cons_self
  rw [habove] at hmem hsorted
  refine ⟨last.line, ?_, by simpa using (List.mem_filter.1 hlast).2, ?_⟩
  · rcases List.mem_append.1 hmem with hmem | hmem
    · exact (List.pairwise_append.1 hsorted).2.2 i hmem last List.mem_cons_self
    · rw [List.mem_singleton.1 hmem]
  · rw [includeOffset, habove, List.getLast?_concat]

namespace Lexed

open Text

variable {t : Text} {L : Lexed} {front rest : List Lexeme} {l : Lexeme} {i : Include}

/-- The tokens that end before an offset. -/
def tokensBefore (L : Lexed) (o : Nat) : List Token := L.tokens.filter (·.stop ≤ o)

/-- The tokens that end before a piece are those of the pieces before it. -/
theorem tokensBefore_start (h : Lexeme.split t = .ok (front ++ l :: rest)) (hl : l.token? = none)
    (includes : List Include) :
    tokensBefore ⟨(front ++ l :: rest).filterMap Lexeme.token?, includes⟩ l.start =
      front.filterMap Lexeme.token? := by
  have hpairwise := List.pairwise_map.1 (Lexeme.inOrder_splitFrom h).pairwise
  have hne := (Lexeme.slice_span_of_split h (List.mem_append_right _ List.mem_cons_self)).1
  have hstop : l.span.stop = l.start + l.text.length := rfl
  have hlength := List.length_pos_iff.2 hne
  rw [tokensBefore, List.filterMap_append, List.filterMap_cons_none hl, List.filter_append]
  have hfront : (front.filterMap Lexeme.token?).filter (·.stop ≤ l.start) =
      front.filterMap Lexeme.token? := by
    rw [List.filter_eq_self]
    intro tok htok
    obtain ⟨l', hl', htoken⟩ := List.mem_filterMap.1 htok
    have hbefore := (List.pairwise_append.1 hpairwise).2.2 l' hl' l List.mem_cons_self
    rw [decide_eq_true_eq, Token.stop, (Lexeme.span_of_token?_eq_some htoken).1]
    exact hbefore
  have hrest : (rest.filterMap Lexeme.token?).filter (·.stop ≤ l.start) = [] := by
    rw [List.filter_eq_nil_iff]
    intro tok htok
    obtain ⟨l', hl', htoken⟩ := List.mem_filterMap.1 htok
    have hafter := List.rel_of_pairwise_cons (List.pairwise_append.1 hpairwise).2.1 hl'
    have hle : l'.span.start ≤ l'.span.stop := Nat.le_add_right _ _
    rw [decide_eq_true_eq, Token.stop, (Lexeme.span_of_token?_eq_some htoken).1]
    omega
  rw [hfront, hrest, List.append_nil]

/-- **Which lines are counted.**  The newlines before an included file count, but for those that
tokens hide. -/
theorem line_add_newlines (h : ofText t = .ok L) (hi : i ∈ L.includes) :
    i.line + Token.newlines (L.tokensBefore i.span.start) = rowOf t i.span.start + 1 := by
  obtain ⟨ls, hls, rfl⟩ := exists_split_of_ofText h
  obtain ⟨front, l, rest, rfl, hk, hspan, hline⟩ := Include.exists_of_mem_ofLexemes hi
  have hstart : i.span.start = l.start := by
    rw [hspan]
    rfl
  obtain ⟨ht, hlength, -⟩ := Lexeme.exists_scan_of_split hls
  have hrow : rowOf t l.start = (Scrap.chars (front.map Lexeme.scrap)).count '\n' := by
    rw [hlength, ht, rowOf_append_length]
  have hbefore := tokensBefore_start hls (Lexeme.token?_of_directive hk)
  rw [hstart, hbefore, hline, hrow, ← Lexeme.lineBreaksIn_add_newlines]
  omega

/-- **A token with a newline in it** is a literal that goes on to another row. -/
theorem newline_mem_spelling_iff (h : ofText t = .ok L) {tok : Token} (htok : tok ∈ L.tokens) :
    '\n' ∈ tok.spelling.toList ↔ tok.IsContinued := by
  constructor
  · intro hmem
    obtain ⟨_, c, u, r, hspelling, hscan⟩ := exists_scan_of_mem_tokens h htok
    have hliteral := Lexeme.newline_mem_token hscan
    rw [List.take_left, ← hspelling] at hliteral
    exact hliteral hmem
  · intro hcontinued
    exact hcontinued.2.subset (List.mem_cons_of_mem _ List.mem_cons_self)

/-- **The line of an included file is right just if no literal before it goes on to another row.**
It lacks the newlines that such literals hide.  From further down in the file, another header is
included at the start of a row below the line. -/
theorem line_of_include_eq_iff (h : ofText t = .ok L) (hi : i ∈ L.includes) :
    i.line + Token.newlines (L.tokensBefore i.span.start) = rowOf t i.span.start + 1 ∧
      (i.line = rowOf t i.span.start + 1 ↔
        ∀ tok ∈ L.tokensBefore i.span.start, ¬tok.IsContinued) ∧
      ∀ f : ParsedFile, f.text = t → ∀ o, rowOf t i.span.start < rowOf t o →
        let x := f.includeOffset (rowOf t o + 1)
        ['\n'] <:+ t.take x ∧ i.line ≤ rowOf t x ∧ rowOf t x ≤ rowOf t o := by
  have hcount := line_add_newlines h hi
  refine ⟨hcount, ?_, ?_⟩
  · have hright : i.line = rowOf t i.span.start + 1 ↔
        Token.newlines (L.tokensBefore i.span.start) = 0 := by
      omega
    rw [hright, Token.newlines, List.count_eq_zero, List.mem_flatMap]
    simp only [not_exists, not_and]
    refine forall₂_congr ?_
    intro tok htok
    exact not_congr (newline_mem_spelling_iff h (List.mem_filter.1 htok).1)
  · rintro f rfl o ho x
    obtain ⟨L', p, hL', -, hcode⟩ := SourceCode.ofText_eq_ok_iff.1 f.isReading
    obtain rfl : L = L' := Except.ok.inj (h.symm.trans hL')
    have hf : i ∈ f.includes := by
      rw [hcode]
      exact hi
    have hbelow : i.line < rowOf f.text o + 1 := by omega
    obtain ⟨line, hline, hlt, hx⟩ := ParsedFile.exists_includeOffset_eq hf hbelow
    have hpos : 0 < i.line := by
      obtain ⟨ls, -, rfl⟩ := exists_split_of_ofText h
      obtain ⟨front, -, -, -, -, -, hstart⟩ := Include.exists_of_mem_ofLexemes hi
      omega
    have hrow : line < rowCount f.text :=
      Nat.lt_of_le_of_lt (Nat.le_of_lt_succ hlt) (rowOf_lt_rowCount f.text o)
    rw [show x = rowStart f.text line from hx, rowOf_rowStart hrow]
    exact ⟨newline_before_rowStart hrow (Nat.lt_of_lt_of_le hpos hline), hline,
      Nat.le_of_lt_succ hlt⟩

/-- A block comment and a directive go on over rows before the first file, and a literal before the
second one. -/
theorem line_of_include_eq_iff_continued :
    let t := ("int a; /* b\n*/\n#define C \\\n d\n#include <e>\n".toList ++
      "char *s = \"\\\n\";\n#include <f>\nint g;".toList)
    let i : Include := ⟨"e", true, 5, ⟨30, 42⟩⟩
    let j : Include := ⟨"f", true, 7, ⟨59, 71⟩⟩
    ∃ L f, ofText t = .ok L ∧ ParsedFile.parse "a.cpp" 0 t = .ok f ∧ L.includes = [i, j] ∧
      i.line = rowOf t i.span.start + 1 ∧ j.line ≠ rowOf t j.span.start + 1 ∧
      j.line + 1 = rowOf t j.span.start + 1 ∧
      let x := f.includeOffset (rowOf t 50 + 1)
      ['\n'] <:+ t.take x ∧ i.line ≤ rowOf t x ∧ rowOf t x ≤ rowOf t 50 := by
  intro t i j
  obtain ⟨L, hL, hincludes, hbefore, hcontinued, hnewlines⟩ : ∃ L, ofText t = .ok L ∧
      L.includes = [i, j] ∧ (∀ tok ∈ L.tokensBefore i.span.start, ¬tok.IsContinued) ∧
      (∃ tok ∈ L.tokensBefore j.span.start, tok.IsContinued) ∧
      Token.newlines (L.tokensBefore j.span.start) = 1 :=
    exists_of_map_decide (by decide +kernel)
  obtain ⟨f, hf, htext⟩ : ∃ f, ParsedFile.parse "a.cpp" 0 t = .ok f ∧ f.text = t :=
    exists_of_map_decide (by decide +kernel)
  have hi : i ∈ L.includes := by simp [hincludes]
  have hj : j ∈ L.includes := by simp [hincludes]
  obtain ⟨-, hright, hoffset⟩ := line_of_include_eq_iff hL hi
  obtain ⟨hcount, hwrong, -⟩ := line_of_include_eq_iff hL hj
  refine ⟨L, f, hL, hf, hincludes, hright.2 hbefore, ?_, hnewlines ▸ hcount,
    hoffset f htext 50 (by decide +kernel)⟩
  intro hline
  obtain ⟨tok, htok, htokcontinued⟩ := hcontinued
  exact hwrong.1 hline tok htok htokcontinued

/-- **A literal that goes on to a second row makes the line wrong.** -/
theorem exists_line_of_include_ne :
    let t := "\"a\\\n\"\n#include <z>".toList
    let i : Include := ⟨"z", true, 2, ⟨6, 18⟩⟩
    ofText t = .ok ⟨[⟨.stringLiteral, ⟨0, 5⟩, "\"a\\\n\""⟩], [i]⟩ ∧
      i.line ≠ rowOf t i.span.start + 1 := by
  decide +kernel

end Lexed

end Mend
