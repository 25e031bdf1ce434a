import Mathlib.Data.List.Pairwise
import Mend.Proofs.OpenBraces

/-!
# Tokens tile a text

Every character of a text belongs to one token, or it is skipped: it is blank, or it lies in a
comment or in a directive that comes before any token of its row.  What is skipped is told by its
characters alone, without the lexer: a line comment goes on to the end of its row, a block comment
to the first `*/`, a directive to the first row that ends without a backslash.

## Main definitions

* `Text.IsLineComment`, `Text.IsBlockComment`, `Text.IsDirective` — comments and directives, told by
  their characters.
* `Lexed.IsFree`, `Lexed.IsDirective`, `Lexed.IsSkipped` — stretches of a text without tokens.

## Main results

* `Lexeme.isBlockComment_of_restOfComment?`, `Lexeme.isDirective_of_restOfDirective` — where
  comments and directives end.
* `Lexed.isSkipped_of_mem` — a piece that is no token is skipped.
* `Lexed.tokens_tile` — **every character lies in a token or is skipped**, and what includes a file
  is a directive.
-/

namespace Mend

/-! ### Comments and directives -/

namespace Text

/-- A line comment: two slashes, and what comes after them on their row. -/
structure IsLineComment (t : Text) (s : Span) : Prop where
  /-- It begins with two slashes. -/
  opening : ['/', '/'] <+: slice t s
  /-- It lies on one row. -/
  newline_not_mem : '\n' ∉ slice t s
  /-- The row ends with it. -/
  ending : ∀ c ∈ t[s.stop]?, c = '\n'

/-- A block comment: what stands from `/*` to the first `*/` after it. -/
def IsBlockComment (t : Text) (s : Span) : Prop :=
  ∃ body, slice t s = '/' :: '*' :: (body ++ ['*', '/']) ∧ ¬['*', '/'] <:+: body ++ ['*']

/-- A directive: a `#`, and what comes after it on its row.  A backslash at the end of a row carries
it on to the next one. -/
structure IsDirective (t : Text) (s : Span) : Prop where
  /-- It begins with a `#`. -/
  opening : ['#'] <+: slice t s
  /-- Its rows but the last one end with a backslash. -/
  continued : ∀ u v, slice t s = u ++ '\n' :: v → u.getLast? = some '\\'
  /-- Its last row ends with it, and does not end with a backslash. -/
  ending : ∀ c ∈ t[s.stop]?, c = '\n' ∧ (slice t s).getLast? ≠ some '\\'

theorem getElem?_append_length (p w q : Text) :
    (p ++ (w ++ q))[p.length + w.length]? = q.head? := by
  rw [← List.append_assoc, ← List.length_append, List.getElem?_append_right (Nat.le_refl _),
    Nat.sub_self, List.head?_eq_getElem?]

end Text

/-! ### Where pieces end -/

namespace Lexeme

variable {b : Bool} {last : Char} {u r t : Text} {ls front rest : List Lexeme} {l : Lexeme}

/-- A line comment ends with its row. -/
theorem isLineComment_of_restOfLine (h : restOfLine (u ++ r) = u.length) :
    '\n' ∉ u ∧ ∀ d ∈ r.head?, d = '\n' := by
  constructor
  · have hline := Nesting.newline_not_mem_take_restOfLine (u ++ r)
    rwa [h, List.take_left] at hline
  · intro d hd
    obtain ⟨r, rfl⟩ := List.head?_eq_some_iff.1 hd
    exact eq_newline_of_restOfLine h

/-- A block comment ends with the first `*/`. -/
theorem isBlockComment_of_restOfComment? (h : restOfComment? (u ++ r) = some u.length) :
    ∃ body, u = body ++ ['*', '/'] ∧ ¬['*', '/'] <:+: body ++ ['*'] := by
  induction u with
  | nil => exact absurd h restOfComment?_ne_zero
  | cons d u ih =>
    rw [List.cons_append, restOfComment?_cons] at h
    split at h
    next hend =>
      obtain ⟨rfl, hslash⟩ := hend
      have hlength : u.length = 1 := by simpa using h.symm
      obtain ⟨e, rfl⟩ := List.length_eq_one_iff.1 hlength
      obtain rfl : e = '/' := by simpa using hslash
      exact ⟨[], rfl, by decide⟩
    next hend =>
      obtain ⟨n, hn, hlength⟩ := Option.map_eq_some_iff.1 h
      obtain rfl : n = u.length := Nat.succ.inj hlength
      obtain ⟨body, rfl, hfirst⟩ := ih hn
      refine ⟨d :: body, rfl, fun hinfix => ?_⟩
      rcases List.infix_cons_iff.1 hinfix with hprefix | hinfix
      · -- the comment would end here
        refine hend ?_
        cases body with
        | nil => simp at hprefix
        | cons e body => simpa [eq_comm] using hprefix
      · exact hfirst hinfix

/-- A directive ends with the first row that no backslash carries on. -/
theorem isDirective_of_restOfDirective (h : restOfDirective last (u ++ r) = u.length) :
    (∀ v w, u = v ++ '\n' :: w → (last :: v).getLast? = some '\\') ∧
      ∀ d ∈ r.head?, d = '\n' ∧ (last :: u).getLast? ≠ some '\\' := by
  induction u generalizing last with
  | nil =>
    refine ⟨fun v w hv => by simp at hv, fun d hd => ?_⟩
    obtain ⟨r, rfl⟩ := List.head?_eq_some_iff.1 hd
    rw [List.nil_append, restOfDirective] at h
    split at h
    next hend => simpa using hend
    next => cases h
  | cons d u ih =>
    rw [List.cons_append, restOfDirective] at h
    split at h
    next => cases h
    next hend =>
      obtain ⟨hrows, hlast⟩ := ih (Nat.succ.inj h)
      refine ⟨fun v w hv => ?_, fun e he => by simpa using hlast e he⟩
      cases v with
      | nil =>
        obtain ⟨rfl, rfl⟩ := List.cons.inj hv
        simpa using hend
      | cons e v =>
        obtain ⟨rfl, rfl⟩ := List.cons.inj hv
        rw [List.getLast?_cons_cons]
        exact hrows v w rfl

/-! ### Pieces in their text -/

open Scrap in
/-- A piece begins where those before it end, and it is what the lexer finds there. -/
theorem exists_scan_of_split (h : split t = .ok (front ++ l :: rest)) :
    t = chars (front.map scrap) ++ (l.text ++ chars (rest.map scrap)) ∧
      l.start = (chars (front.map scrap)).length ∧
      ∃ c u, l.text = c :: u ∧ scan (Scrap.lineStartAfter true (front.map scrap)) c
        (u ++ chars (rest.map scrap)) = .ok (l.kind, u.length) := by
  have hfill := fill_of_splitFrom h
  have hchain := chain_of_splitFrom h
  rw [List.map_append, Chain.append_iff] at hchain
  refine ⟨?_, ?_, ?_⟩
  · rw [← chars_of_fill hfill, List.map_append, chars_append, List.map_cons, chars_cons]
    rfl
  · rw [start_eq_of_fill hfill, Nat.zero_add]
  · obtain ⟨k, o, w⟩ := l
    cases hchain.2 with
    | cons hscan _ => exact ⟨_, _, rfl, by rwa [List.append_nil] at hscan⟩

/-- A piece is not empty, and it is what the text reads where it lies. -/
theorem slice_span_of_split (h : split t = .ok ls) (hl : l ∈ ls) :
    l.text ≠ [] ∧ Text.slice t l.span = l.text := by
  obtain ⟨front, rest, rfl⟩ := List.append_of_mem hl
  obtain ⟨ht, hstart, c, u, hchars, -⟩ := exists_scan_of_split h
  refine ⟨by rw [hchars]; exact List.cons_ne_nil _ _, ?_⟩
  conv_lhs => rw [span, hstart, ht]
  exact Text.slice_append _ _ _

/-- A token has the kind of its piece, lies where the piece does, and is spelled like it. -/
theorem eq_of_token? {tok : Token} (h : l.token? = some tok) :
    l.kind = .token tok.kind ∧ tok.span = l.span ∧ tok.spelling.toList = l.text := by
  rw [token?] at h
  split at h
  next k hk =>
    cases h
    exact ⟨hk, rfl, String.toList_ofList⟩
  next => cases h

/-- A directive is no token. -/
theorem token?_of_directive (h : l.kind = .directive) : l.token? = none := by
  rw [token?, h]

/-- Pieces that fill a text leave no character out. -/
theorem Fill.exists_mem_holds {o p : Nat} (h : Fill o ls t) (hlo : o ≤ p) (hhi : p < o + t.length) :
    ∃ l ∈ ls, l.span.Holds p := by
  induction h with
  | nil => exact absurd hhi (Nat.not_lt.2 hlo)
  | @cons l ls t hne _ ih =>
    rw [List.length_append] at hhi
    by_cases hp : p < l.start + l.text.length
    · exact ⟨l, List.mem_cons_self, hlo, hp⟩
    · obtain ⟨l', hl', hholds⟩ := ih (Nat.le_of_not_lt hp) (by omega)
      exact ⟨l', List.mem_cons_of_mem _ hl', hholds⟩

/-- Two pieces of a text lie apart. -/
theorem apart_of_split {l' : Lexeme} (h : split t = .ok ls) (hl : l ∈ ls) (hl' : l' ∈ ls)
    (hne : l ≠ l') : l.span.stop ≤ l'.span.start ∨ l'.span.stop ≤ l.span.start := by
  let Apart (l l' : Lexeme) : Prop :=
    l.span.stop ≤ l'.span.start ∨ l'.span.stop ≤ l.span.start
  have hsymm : Std.Symm Apart := ⟨fun _ _ => Or.symm⟩
  have hpairwise := List.pairwise_map.1 (inOrder_splitFrom h).pairwise
  have hapart : ls.Pairwise Apart := hpairwise.imp Or.inl
  exact hapart.forall hl hl' hne

end Lexeme

/-- After a token, a row begins with a newline. -/
theorem Scrap.Chain.newline_mem {b : Bool} {ps : List Scrap} {r : Text} (h : Chain b ps r)
    (hstart : lineStartAfter false ps = true) : '\n' ∈ chars ps := by
  induction h with
  | nil => cases hstart
  | @cons b k c u r ps hscan _ ih =>
    rw [chars_cons]
    cases k with
    | newline =>
      rcases Lexeme.scan_cases hscan with ⟨-, rfl, -⟩ | ⟨hk, -⟩ | ⟨hk, -⟩ | ⟨hk, -⟩ | ⟨hk, -⟩ |
        ⟨⟨_, hk⟩, -⟩
      · exact List.mem_append_left _ List.mem_cons_self
      all_goals cases hk
    | blank | comment | directive | token => exact List.mem_append_right _ (ih hstart)

/-- The number of lines that end within pieces. -/
def Lexeme.lineBreaksIn : List Lexeme → Nat
  | [] => 0
  | l :: ls => l.lineBreaks + lineBreaksIn ls

/-- An included file is a directive among the pieces.  Its line is counted from the first piece. -/
theorem Include.exists_of_mem_ofLexemes {line : Nat} {ls : List Lexeme} {i : Include}
    (h : i ∈ ofLexemes line ls) : ∃ front l rest, ls = front ++ l :: rest ∧
      l.kind = .directive ∧ i.span = l.span ∧ i.line = line + Lexeme.lineBreaksIn front := by
  induction ls generalizing line with
  | nil => cases h
  | cons l ls ih =>
    have hrest (h : i ∈ ofLexemes (line + l.lineBreaks) ls) : ∃ front l' rest,
        l :: ls = front ++ l' :: rest ∧ l'.kind = .directive ∧ i.span = l'.span ∧
          i.line = line + Lexeme.lineBreaksIn front := by
      obtain ⟨front, l', rest, rfl, hk, hspan, hline⟩ := ih h
      exact ⟨l :: front, l', rest, rfl, hk, hspan, by rw [hline, Nat.add_assoc]; rfl⟩
    rw [ofLexemes] at h
    split at h
    next hk _ =>
      rcases List.mem_cons.1 h with rfl | h
      · exact ⟨[], l, ls, rfl, hk, rfl, rfl⟩
      · exact hrest h
    next => exact hrest h

/-! ### What is skipped -/

namespace Lexed

open Text

/-- A stretch of a text into which no token reaches. -/
structure IsFree (L : Lexed) (t : Text) (s : Span) : Prop where
  /-- It lies in the text. -/
  stop_le : s.stop ≤ t.length
  /-- Every token lies before it or after it. -/
  apart : ∀ tok ∈ L.tokens, tok.stop ≤ s.start ∨ s.stop ≤ tok.start

/-- A directive that begins before any token of its row. -/
structure IsDirective (L : Lexed) (t : Text) (s : Span) : Prop extends
    L.IsFree t s, Text.IsDirective t s where
  /-- The tokens before it lie on earlier rows. -/
  rowOf_lt : ∀ tok ∈ L.tokens, tok.start < s.start → rowOf t tok.stop < rowOf t s.start

/-- A stretch of a text that has no tokens, for one of four reasons. -/
inductive IsSkipped (L : Lexed) (t : Text) (s : Span) : Prop
  /-- It is blank. -/
  | blank (free : L.IsFree t s) (blank : ∀ c ∈ slice t s, isBlank c = true)
  /-- It is a line comment. -/
  | lineComment (free : L.IsFree t s) (comment : IsLineComment t s)
  /-- It is a block comment. -/
  | blockComment (free : L.IsFree t s) (comment : IsBlockComment t s)
  /-- It is a directive. -/
  | directive (directive : L.IsDirective t s)

variable {t : Text} {L : Lexed} {ls : List Lexeme} {l : Lexeme}

/-- A text that has tokens falls into pieces, which the tokens and included files are found in. -/
theorem exists_split_of_ofText (h : ofText t = .ok L) :
    ∃ ls, Lexeme.split t = .ok ls ∧ L = ⟨ls.filterMap Lexeme.token?, Include.ofLexemes 1 ls⟩ := by
  rw [ofText] at h
  split at h
  next ls hls =>
    cases h
    exact ⟨ls, hls, rfl⟩
  next => cases h

/-- A token of a text is one that the lexer finds at the start of some text. -/
theorem exists_scan_of_mem_tokens (h : ofText t = .ok L) {tok : Token} (htok : tok ∈ L.tokens) :
    ∃ b c u r, tok.spelling.toList = c :: u ∧
      Lexeme.scan b c (u ++ r) = .ok (.token tok.kind, u.length) := by
  obtain ⟨ls, hls, rfl⟩ := exists_split_of_ofText h
  obtain ⟨l, hl, htoken⟩ := List.mem_filterMap.1 htok
  obtain ⟨front, rest, rfl⟩ := List.append_of_mem hl
  obtain ⟨-, -, c, u, htext, hscan⟩ := Lexeme.exists_scan_of_split hls
  obtain ⟨hk, -, hspelling⟩ := Lexeme.eq_of_token? htoken
  rw [hk] at hscan
  exact ⟨_, c, u, _, hspelling.trans htext, hscan⟩

/-- No token reaches into a piece that is none. -/
theorem isFree_of_mem (h : Lexeme.split t = .ok ls) (hL : L.tokens = ls.filterMap Lexeme.token?)
    (hl : l ∈ ls) (hnone : l.token? = none) : L.IsFree t l.span where
  stop_le := by
    have hspan := (Lexeme.inOrder_splitFrom h).of_mem (List.mem_map_of_mem hl)
    rw [Nat.zero_add] at hspan
    exact hspan.2.2
  apart := by
    intro tok htok
    rw [hL] at htok
    obtain ⟨l', hl', htoken⟩ := List.mem_filterMap.1 htok
    have hne : l' ≠ l := by
      rintro rfl
      rw [hnone] at htoken
      cases htoken
    rw [Token.stop, Token.start, (Lexeme.span_of_token?_eq_some htoken).1]
    exact Lexeme.apart_of_split h hl' hl hne

/-- **The tokens before a directive lie on earlier rows.** -/
theorem rowOf_lt_of_directive {front rest : List Lexeme}
    (h : Lexeme.split t = .ok (front ++ l :: rest)) (hk : l.kind = .directive) {tok : Token}
    (htok : tok ∈ front.filterMap Lexeme.token?) : rowOf t tok.stop < rowOf t l.start := by
  obtain ⟨l', hl', htoken⟩ := List.mem_filterMap.1 htok
  obtain ⟨front, gap, rfl⟩ := List.append_of_mem hl'
  -- no token stands between the directive and the newline before it
  obtain ⟨ht, hstart, c, u, -, hscan⟩ := Lexeme.exists_scan_of_split h
  have hflag : Scrap.lineStartAfter true ((front ++ l' :: gap).map Lexeme.scrap) = true := by
    rw [hk] at hscan
    rcases Lexeme.scan_cases hscan with ⟨hk, -⟩ | ⟨hk, -⟩ | ⟨hk, -⟩ | ⟨hk, -⟩ | ⟨-, -, hb, -⟩ |
      ⟨⟨_, hk⟩, -⟩
    case inr.inr.inr.inr.inl => exact hb
    all_goals cases hk
  have hgap : '\n' ∈ Scrap.chars (gap.map Lexeme.scrap) := by
    have hchain := Scrap.chain_of_splitFrom h
    rw [List.map_append, Scrap.Chain.append_iff, List.map_append, Scrap.Chain.append_iff,
      List.map_cons] at hchain
    rw [List.map_append, Scrap.lineStartAfter_append, List.map_cons] at hflag
    obtain ⟨k, o, w⟩ := l'
    obtain rfl : k = .token tok.kind := (Lexeme.eq_of_token? htoken).1
    cases hchain.1.2 with
    | cons _ hgap => exact hgap.newline_mem hflag
  have hstop : tok.stop = (Scrap.chars (front.map Lexeme.scrap) ++ l'.text).length := by
    rw [List.append_assoc, List.cons_append] at h
    rw [Token.stop, (Lexeme.span_of_token?_eq_some htoken).1, List.length_append,
      ← (Lexeme.exists_scan_of_split h).2.1]
    rfl
  have hchars : Scrap.chars ((front ++ l' :: gap).map Lexeme.scrap) =
      (Scrap.chars (front.map Lexeme.scrap) ++ l'.text) ++
        Scrap.chars (gap.map Lexeme.scrap) := by
    rw [List.map_append, Scrap.chars_append, List.map_cons, Scrap.chars_cons, List.append_assoc]
    rfl
  have hrow : rowOf t l.start = (Scrap.chars (front.map Lexeme.scrap) ++ l'.text).count '\n' +
      (Scrap.chars (gap.map Lexeme.scrap)).count '\n' := by
    rw [hstart, ht, rowOf_append_length, hchars, List.count_append]
  have hrow' : rowOf t tok.stop =
      (Scrap.chars (front.map Lexeme.scrap) ++ l'.text).count '\n' := by
    rw [hstop, ht, hchars, List.append_assoc _ (Scrap.chars _) _, rowOf_append_length]
  have hcount := List.count_pos_iff.2 hgap
  omega

/-- A token that starts before a piece is one of the tokens before it. -/
theorem mem_front_of_start_lt {front rest : List Lexeme}
    (h : Lexeme.split t = .ok (front ++ l :: rest)) {tok : Token}
    (htok : tok ∈ (front ++ l :: rest).filterMap Lexeme.token?) (hlt : tok.start < l.start) :
    tok ∈ front.filterMap Lexeme.token? := by
  obtain ⟨l', hl', htoken⟩ := List.mem_filterMap.1 htok
  have hstart : tok.start = l'.start := by
    rw [Token.start, (Lexeme.span_of_token?_eq_some htoken).1]
    rfl
  have hpairwise := List.pairwise_map.1 (Lexeme.inOrder_splitFrom h).pairwise
  rw [List.pairwise_append, List.pairwise_cons] at hpairwise
  rcases List.mem_append.1 hl' with hfront | hrest
  · exact List.mem_filterMap.2 ⟨l', hfront, htoken⟩
  · rcases List.mem_cons.1 hrest with rfl | hrest
    · omega
    · have hle : l.start + l.text.length ≤ l'.start := hpairwise.2.1.1 l' hrest
      omega

/-- **A piece that is no token is skipped**, and a directive is one. -/
theorem isSkipped_of_mem (h : Lexeme.split t = .ok ls)
    (hL : L.tokens = ls.filterMap Lexeme.token?) (hl : l ∈ ls) (hnone : l.token? = none) :
    L.IsSkipped t l.span ∧ (l.kind = .directive → L.IsDirective t l.span) := by
  have hfree := isFree_of_mem h hL hl hnone
  obtain ⟨front, rest, rfl⟩ := List.append_of_mem hl
  obtain ⟨ht, hstart, c, u, hchars, hscan⟩ := Lexeme.exists_scan_of_split h
  have hslice : slice t l.span = c :: u := (Lexeme.slice_span_of_split h hl).2.trans hchars
  have hnext : t[l.span.stop]? = (Scrap.chars (rest.map Lexeme.scrap)).head? := by
    rw [Lexeme.span, hstart, ht, getElem?_append_length]
  rcases Lexeme.scan_cases hscan with ⟨hk, rfl, hu⟩ | ⟨hk, hblank, -, hu⟩ |
    ⟨hk, rfl, hsecond, hu⟩ | ⟨hk, rfl, hsecond, m, hm, hu⟩ | ⟨hk, rfl, -, hu⟩ | ⟨⟨k, hk⟩, -⟩
  · refine ⟨.blank hfree ?_, by simp [hk]⟩
    rw [hslice, List.eq_nil_of_length_eq_zero hu]
    simp [isBlank, blanks, CharClass.mem]
  · refine ⟨.blank hfree ?_, by simp [hk]⟩
    rw [hslice, List.eq_nil_of_length_eq_zero hu]
    simpa using hblank
  · obtain ⟨hrow, hend⟩ := Lexeme.isLineComment_of_restOfLine hu.symm
    refine ⟨.lineComment hfree ⟨?_, ?_, hnext ▸ hend⟩, by simp [hk]⟩
    · rw [hslice]
      cases u with
      | nil => exact absurd (hend _ hsecond) (by decide)
      | cons d u => exact ⟨u, by rw [← Option.some.inj hsecond]; rfl⟩
    · rw [hslice]
      simpa using hrow
  · cases u with
    | nil => cases hu
    | cons d u =>
      obtain rfl : d = '*' := Option.some.inj hsecond
      obtain rfl : u.length = m := Nat.succ.inj hu
      obtain ⟨body, rfl, hfirst⟩ := Lexeme.isBlockComment_of_restOfComment? hm
      exact ⟨.blockComment hfree ⟨body, hslice, hfirst⟩, by simp [hk]⟩
  · obtain ⟨hrows, hend⟩ := Lexeme.isDirective_of_restOfDirective hu.symm
    have hdirective : L.IsDirective t l.span :=
      { toIsFree := hfree
        opening := ⟨u, hslice.symm⟩
        continued := fun v w hv => by
          rw [hslice] at hv
          cases v with
          | nil => cases hv
          | cons d v =>
            obtain ⟨rfl, rfl⟩ := List.cons.inj hv
            exact hrows v w rfl
        ending := by rwa [hnext, hslice]
        rowOf_lt := fun tok htok hlt =>
          rowOf_lt_of_directive h hk (mem_front_of_start_lt h (hL ▸ htok) hlt) }
    exact ⟨.directive hdirective, fun _ => hdirective⟩
  · rw [Lexeme.token?, hk] at hnone
    cases hnone

/-- **Tokens tile a text.**  They are not empty, follow each other, and are spelled as the text
reads where they lie.  A character that lies in no token is blank, or it lies in a comment or in a
directive that begins before any token of its row.  What includes a file is such a directive. -/
theorem tokens_tile (h : ofText t = .ok L) :
    (∀ tok ∈ L.tokens, tok.start < tok.stop ∧ tok.stop ≤ t.length ∧
      tok.spelling.toList = slice t tok.span) ∧
    L.tokens.Pairwise (fun tok tok' => tok.stop ≤ tok'.start) ∧
    (∀ o < t.length, (∃ tok ∈ L.tokens, tok.span.Holds o) ∨ ∃ s, s.Holds o ∧ L.IsSkipped t s) ∧
    ∀ i ∈ L.includes, L.IsDirective t i.span := by
  have horder := inOrder_tokens h
  obtain ⟨ls, hls, rfl⟩ := exists_split_of_ofText h
  refine ⟨fun tok htok => ?_, List.pairwise_map.1 horder.pairwise, fun o ho => ?_, fun i hi => ?_⟩
  · have hlies := horder.of_mem (List.mem_map_of_mem htok)
    obtain ⟨l, hl, htoken⟩ := List.mem_filterMap.1 htok
    obtain ⟨hne, hslice⟩ := Lexeme.slice_span_of_split hls hl
    obtain ⟨-, hspan, hspelling⟩ := Lexeme.eq_of_token? htoken
    refine ⟨?_, hlies.2.2, by rw [hspan, hspelling, hslice]⟩
    rw [Token.start, Token.stop, hspan]
    exact Nat.lt_add_of_pos_right (List.length_pos_iff.2 hne)
  · obtain ⟨l, hl, hholds⟩ :=
      (Lexeme.fill_of_splitFrom hls).exists_mem_holds (Nat.zero_le o) (by rwa [Nat.zero_add])
    cases htoken : l.token? with
    | none => exact .inr ⟨l.span, hholds, (isSkipped_of_mem hls rfl hl htoken).1⟩
    | some tok =>
      refine .inl ⟨tok, List.mem_filterMap.2 ⟨l, hl, htoken⟩, ?_⟩
      rwa [(Lexeme.eq_of_token? htoken).2.1]
  · obtain ⟨front, l, rest, rfl, hk, hspan, -⟩ := Include.exists_of_mem_ofLexemes hi
    have hl : l ∈ front ++ l :: rest := List.mem_append_right _ List.mem_cons_self
    rw [hspan]
    exact (isSkipped_of_mem hls rfl hl (Lexeme.token?_of_directive hk)).2 hk

/-- Quotation marks in a comment open no literal, and slashes in a literal open no comment. -/
theorem tokens_tile_hidden :
    let t := "#include <a>\ns = \"//\"; /* \" */".toList
    ∃ L, ofText t = .ok L ∧ L.tokens.map (·.span) = [⟨13, 14⟩, ⟨15, 16⟩, ⟨17, 21⟩, ⟨21, 22⟩] ∧
      (∃ s, s.Holds 26 ∧ L.IsSkipped t s) ∧ L.IsDirective t ⟨0, 12⟩ := by
  intro t
  have hL : ofText t = .ok
      ⟨[⟨.identifier, ⟨13, 14⟩, "s"⟩, ⟨.equal, ⟨15, 16⟩, "="⟩, ⟨.stringLiteral, ⟨17, 21⟩, "\"//\""⟩,
        ⟨.semicolon, ⟨21, 22⟩, ";"⟩], [⟨"a", true, 1, ⟨0, 12⟩⟩]⟩ := by
    decide +kernel
  obtain ⟨-, -, htile, hincludes⟩ := tokens_tile hL
  exact ⟨_, hL, rfl, (htile 26 (by decide)).resolve_left (by decide),
    hincludes _ List.mem_cons_self⟩

end Lexed

end Mend
