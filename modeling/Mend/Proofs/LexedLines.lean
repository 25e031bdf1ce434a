import Mend.Proofs.TokenTiling

/-!
# Lexing line by line

Behind a newline the lexer starts afresh: no piece that ends before a newline goes on with it, but
for a directive whose last character is a backslash.  So two texts with a newline between them have
the tokens and included files of the first one, and then those of the second one, further on in the
text.  When the second text cannot be lexed, the error shows further on likewise.

Lines are counted without the newlines in tokens.  Only a literal can have one, behind a backslash.

## Main definitions

* `Span.movedBy`, `Token.movedBy`, `Include.movedBy`, `SyntaxError.movedBy` — the same thing further
  on in a text.
* `Token.newlines` — the newlines in tokens.

## Main results

* `Lexeme.scan_append_newline` — a piece stays as it is when a newline comes after the text.
* `Lexeme.splitFrom_movedBy` — it does not matter where a text lies.
* `Lexeme.lineBreaksIn_add_newlines` — the lines that are counted.
* `Lexed.ofText_append_newline` — **a text is lexed line by line.**
-/

namespace Mend

/-! ### Further on in a text -/

/-- The same span further on. -/
def Span.movedBy (n : Nat) (s : Span) : Span := ⟨s.start + n, s.stop + n⟩

/-- The same token further on. -/
def Token.movedBy (n : Nat) (tok : Token) : Token := { tok with span := tok.span.movedBy n }

/-- The same piece further on. -/
def Lexeme.movedBy (n : Nat) (l : Lexeme) : Lexeme := { l with start := l.start + n }

/-- The same included file some lines and characters further on. -/
def Include.movedBy (lines n : Nat) (i : Include) : Include :=
  { i with line := i.line + lines, span := i.span.movedBy n }

/-- The same error further on. -/
def SyntaxError.movedBy (n : Nat) : SyntaxError → SyntaxError
  | .unexpectedChar c o => .unexpectedChar c (o + n)
  | .unterminated what o => .unterminated what (o + n)
  | .expected what found o => .expected what found (o + n)

/-- The newlines in tokens. -/
def Token.newlines (ts : List Token) : Nat := (ts.flatMap (·.spelling.toList)).count '\n'

theorem Token.newlines_append (ts us : List Token) :
    newlines (ts ++ us) = newlines ts + newlines us := by
  rw [newlines, List.flatMap_append, List.count_append]
  rfl

/-! ### Scans before a newline -/

namespace Lexeme

variable {b : Bool} {c last : Char} {o n : Nat} {a t u v w : Text} {k : LexemeClass}
  {ls ms : List Lexeme}

theorem restOfLine_append_newline : restOfLine (a ++ '\n' :: t) = restOfLine a := by
  induction a with
  | nil => rfl
  | cons d a ih => rw [List.cons_append, restOfLine_cons, restOfLine_cons, ih]

/-- A directive ends before a newline, unless a backslash stands before that. -/
theorem restOfDirective_append_newline (hend : ¬['\\'] <:+ last :: a) :
    restOfDirective last (a ++ '\n' :: t) = restOfDirective last a := by
  induction a generalizing last with
  | nil =>
    have hlast : last ≠ '\\' := by
      rintro rfl
      exact hend (List.suffix_refl _)
    exact if_pos ⟨rfl, hlast⟩
  | cons d a ih =>
    rw [List.cons_append, restOfDirective, restOfDirective,
      ih fun h => hend (h.trans (List.suffix_cons _ _))]

/-- No token goes on with a newline. -/
theorem goesOn_newline (hw : w ≠ []) : goesOn w '\n' = false :=
  goesOn_of_tail hw (by decide +kernel) (by decide)

/-- A newline may come after a text, where nothing came after it before. -/
theorem mayFollow_append_newline (hw : w ≠ []) (n : Nat) (v : Text) :
    MayFollow w n v (v ++ '\n' :: t) := by
  induction v generalizing w n with
  | nil =>
    refine .sealed fun d hd => ?_
    rw [← Option.some.inj hd]
    exact goesOn_newline hw
  | cons d v ih =>
    cases n with
    | zero => exact .zero _ _ _
    | succ n => exact .cons d (ih (by simp) n)

/-- **A piece stays as it is when a newline comes after the text.** -/
theorem scan_append_newline (h : scan b c (u ++ v) = .ok (k, u.length))
    (hend : ¬['\\'] <:+ c :: (u ++ v)) :
    scan b c (u ++ (v ++ '\n' :: t)) = .ok (k, u.length) := by
  have hhead {d : Char} (hd : (u ++ v).head? = some d) :
      (u ++ (v ++ '\n' :: t)).head? = some d := by
    obtain ⟨w, hw⟩ := List.head?_eq_some_iff.1 hd
    rw [← List.append_assoc, hw]
    rfl
  rcases scan_cases h with ⟨rfl, rfl, hu⟩ | ⟨rfl, hc, hne, hu⟩ | ⟨rfl, rfl, hsecond, hu⟩ |
    ⟨rfl, rfl, hsecond, m, hm, hu⟩ | ⟨rfl, rfl, rfl, hu⟩ | ⟨⟨k, rfl⟩, -⟩
  · rw [hu]
    rfl
  · rw [hu]
    exact scan_blank hc hne _
  · rw [scan_line (hhead hsecond), ← List.append_assoc, restOfLine_append_newline, hu]
  · exact scan_block_congr hsecond hm hu
  · rw [scan_directive, ← List.append_assoc, restOfDirective_append_newline hend, hu]
  · exact scan_congr h (mayFollow_append_newline (List.cons_ne_nil _ _) 2 v)

/-- The pieces of a text whose first piece is known. -/
theorem splitFrom_cons (h : scan b c (u ++ v) = .ok (k, u.length)) :
    splitFrom b o (c :: (u ++ v)) = (splitFrom (lineStartAfter b k) (o + (c :: u).length) v).map
      (⟨k, o, c :: u⟩ :: ·) := by
  rw [splitFrom, h]
  simp only [List.take_left, List.drop_left]
  cases splitFrom (lineStartAfter b k) (o + (c :: u).length) v <;> rfl

/-- **Behind a newline a text is split afresh.** -/
theorem splitFrom_append_newline (h : splitFrom b o a = .ok ls) (hend : ¬['\\'] <:+ a) (t : Text) :
    splitFrom b o (a ++ '\n' :: t) = (splitFrom true (o + (a.length + 1)) t).map
      (ls ++ ⟨.newline, o + a.length, ['\n']⟩ :: ·) := by
  fun_induction splitFrom b o a generalizing ls with
  | case1 b o =>
    cases h
    exact splitFrom_cons (u := []) rfl
  | case2 | case3 | case4 => cases h
  | case5 b o c a k n hscan text ls' hrest =>
    rename_i ih
    cases h
    obtain ⟨u, v, rfl, rfl⟩ : ∃ u v, a = u ++ v ∧ n = u.length :=
      ⟨a.take n, a.drop n, (List.take_append_drop n a).symm,
        (List.length_take_of_le (scan_le_length hscan)).symm⟩
    have hcut : c :: (u ++ v) ++ '\n' :: t = c :: (u ++ (v ++ '\n' :: t)) := by simp
    have hsuffix : v <:+ c :: (u ++ v) := (List.suffix_append u v).trans (List.suffix_cons _ _)
    simp only [text, List.take_left, List.drop_left] at ih hrest ⊢
    rw [hcut, splitFrom_cons (scan_append_newline hscan hend),
      ih hrest fun h => hend (h.trans hsuffix)]
    have hlength : o + (c :: (u ++ v)).length = o + (c :: u).length + v.length := by
      simp only [List.length_cons, List.length_append]
      omega
    rw [← Nat.add_assoc, ← Nat.add_assoc, hlength]
    cases splitFrom true (o + (c :: u).length + v.length + 1) t <;> rfl

/-- **It does not matter where a text lies.** -/
theorem splitFrom_movedBy (b : Bool) (o n : Nat) (t : Text) :
    splitFrom b (o + n) t =
      ((splitFrom b o t).map (·.map (movedBy n))).mapError (·.movedBy n) := by
  fun_induction splitFrom b o t with
  | case1 b o =>
    rw [splitFrom]
    rfl
  | case2 b o c t hscan =>
    rw [splitFrom, hscan]
    rfl
  | case3 b o c t what hscan =>
    rw [splitFrom, hscan]
    rfl
  | case4 b o c t k m hscan text e hrest ih | case5 b o c t k m hscan text ls hrest ih =>
    rw [Nat.add_right_comm, hrest] at ih
    simp only [text] at ih
    rw [splitFrom, hscan]
    simp only [ih]
    rfl

/-! ### Counted lines -/

/-- A newline ends a line unless it is hidden in a token. -/
theorem lineBreaks_add_newlines (l : Lexeme) :
    l.lineBreaks + Token.newlines l.token?.toList = l.text.count '\n' := by
  obtain ⟨k, o, w⟩ := l
  cases k with
  | token k => simp [lineBreaks, token?, Token.newlines]
  | newline | blank | comment | directive => rfl

/-- **The lines that are counted** are all that end outside tokens. -/
theorem lineBreaksIn_add_newlines (ls : List Lexeme) :
    lineBreaksIn ls + Token.newlines (ls.filterMap token?) =
      (Scrap.chars (ls.map scrap)).count '\n' := by
  induction ls with
  | nil => rfl
  | cons l ls ih =>
    have hline : lineBreaksIn (l :: ls) = l.lineBreaks + lineBreaksIn ls := rfl
    have htoken : (l :: ls).filterMap token? = l.token?.toList ++ ls.filterMap token? := by
      rw [List.filterMap_cons]
      cases l.token? <;> rfl
    have hhere : l.lineBreaks + Token.newlines l.token?.toList = l.scrap.text.count '\n' :=
      lineBreaks_add_newlines l
    rw [hline, htoken, Token.newlines_append, List.map_cons, Scrap.chars_cons, List.count_append,
      ← ih, ← hhere]
    omega

end Lexeme

/-! ### Included files -/

namespace Include

theorem ofLexemes_append (line : Nat) (ls ms : List Lexeme) : ofLexemes line (ls ++ ms) =
    ofLexemes line ls ++ ofLexemes (line + Lexeme.lineBreaksIn ls) ms := by
  induction ls generalizing line with
  | nil => rfl
  | cons l ls ih =>
    rw [List.cons_append, ofLexemes, ofLexemes, ih, Nat.add_assoc]
    split <;> rfl

/-- Pieces further on include the same files further on. -/
theorem ofLexemes_movedBy (line k n : Nat) (ls : List Lexeme) :
    ofLexemes (line + k) (ls.map (Lexeme.movedBy n)) =
      (ofLexemes line ls).map (movedBy k n) := by
  induction ls generalizing line with
  | nil => rfl
  | cons l ls ih =>
    have hline : (l.movedBy n).lineBreaks = l.lineBreaks := rfl
    rw [List.map_cons, ofLexemes, ofLexemes, hline, Nat.add_right_comm, ih]
    obtain ⟨kind, o, w⟩ := l
    cases kind with
    | directive =>
      dsimp only [Lexeme.movedBy]
      cases target? w with
      | none => rfl
      | some target => rw [Nat.add_right_comm o]; rfl
    | newline | blank | comment | token => rfl

end Include

/-- A token further on is the token of a piece further on. -/
theorem Lexeme.filterMap_token?_movedBy (n : Nat) (ls : List Lexeme) :
    (ls.map (movedBy n)).filterMap token? = (ls.filterMap token?).map (Token.movedBy n) := by
  rw [List.filterMap_map, List.map_filterMap]
  refine congrArg (fun f => ls.filterMap f) (funext fun l => ?_)
  obtain ⟨k, o, w⟩ := l
  cases k with
  | token k =>
    dsimp only [movedBy, token?, Function.comp]
    rw [Nat.add_right_comm]
    rfl
  | newline | blank | comment | directive => rfl

/-! ### Texts -/

namespace Lexed

variable {a : Text} {L : Lexed}

/-- **A text is lexed line by line.**  Unless a backslash stands before it, a newline after a text
that has tokens starts afresh: what comes then is lexed as it would be alone, further on in the
text.  The lines of the files that it includes are those behind the lines of the first text, up to
the newlines that tokens hide there. -/
theorem ofText_append_newline (ha : ofText a = .ok L) (hend : ¬['\\'] <:+ a) (b : Text) :
    ofText (a ++ '\n' :: b) =
      match ofText b with
      | .ok M => .ok
          ⟨L.tokens ++ M.tokens.map (Token.movedBy (a.length + 1)),
            L.includes ++ M.includes.map
              (Include.movedBy (a.count '\n' - Token.newlines L.tokens + 1) (a.length + 1))⟩
      | .error e => .error (e.movedBy (a.length + 1)) := by
  obtain ⟨ls, hls, rfl⟩ := exists_split_of_ofText ha
  have hlines : Lexeme.lineBreaksIn ls =
      a.count '\n' - Token.newlines (ls.filterMap Lexeme.token?) := by
    rw [← Scrap.chars_of_fill (Lexeme.fill_of_splitFrom hls), ← Lexeme.lineBreaksIn_add_newlines,
      Nat.add_sub_cancel]
  rw [ofText, Lexeme.split, Lexeme.splitFrom_append_newline hls hend b, Lexeme.splitFrom_movedBy,
    ofText, Lexeme.split]
  cases hb : Lexeme.splitFrom true 0 b with
  | error e => rfl
  | ok ms =>
    let newline : Lexeme := ⟨.newline, 0 + a.length, ['\n']⟩
    let later := ms.map (Lexeme.movedBy (a.length + 1))
    have htokens : (ls ++ newline :: later).filterMap Lexeme.token? =
        ls.filterMap Lexeme.token? ++
          (ms.filterMap Lexeme.token?).map (Token.movedBy (a.length + 1)) := by
      rw [List.filterMap_append, List.filterMap_cons_none rfl, Lexeme.filterMap_token?_movedBy]
    have hincludes : Include.ofLexemes 1 (ls ++ newline :: later) = Include.ofLexemes 1 ls ++
        (Include.ofLexemes 1 ms).map (Include.movedBy (Lexeme.lineBreaksIn ls + 1)
          (a.length + 1)) := by
      have hnext : Include.ofLexemes (1 + Lexeme.lineBreaksIn ls) (newline :: later) =
          Include.ofLexemes (1 + (Lexeme.lineBreaksIn ls + 1)) later := rfl
      rw [Include.ofLexemes_append, hnext, Include.ofLexemes_movedBy]
    show Except.ok (Lexed.mk ((ls ++ newline :: later).filterMap Lexeme.token?)
      (Include.ofLexemes 1 (ls ++ newline :: later))) = _
    rw [htokens, hincludes, hlines]

/-- A backslash before a newline hides it in a literal, and would carry on a directive. -/
theorem ofText_append_newline_hidden :
    let a := "x = \"a\\\n\"; // c".toList
    let b := "#include <d>\ny".toList
    ofText (a ++ '\n' :: b) = .ok
      ⟨[⟨.identifier, ⟨0, 1⟩, "x"⟩, ⟨.equal, ⟨2, 3⟩, "="⟩, ⟨.stringLiteral, ⟨4, 9⟩, "\"a\\\n\""⟩,
        ⟨.semicolon, ⟨9, 10⟩, ";"⟩, ⟨.identifier, ⟨29, 30⟩, "y"⟩], [⟨"d", true, 2, ⟨16, 28⟩⟩]⟩ := by
  intro a b
  have ha : ofText a = .ok
      ⟨[⟨.identifier, ⟨0, 1⟩, "x"⟩, ⟨.equal, ⟨2, 3⟩, "="⟩, ⟨.stringLiteral, ⟨4, 9⟩, "\"a\\\n\""⟩,
        ⟨.semicolon, ⟨9, 10⟩, ";"⟩], []⟩ := by
    decide +kernel
  have hb : ofText b = .ok ⟨[⟨.identifier, ⟨13, 14⟩, "y"⟩], [⟨"d", true, 1, ⟨0, 12⟩⟩]⟩ := by
    decide +kernel
  rw [ofText_append_newline ha (by decide) b, hb]
  decide

end Lexed

end Mend
