import Mend.Proofs.BraceRows
import Mend.Proofs.LexemeChains

/-!
# Open braces of the lexer and of the indenter

The lexer and the scan of lines both decide what is code: the one for a whole text, piece by piece,
the other line by line.  Both skip comments, the insides of literals, and directives.  A text is cut
in two where a piece ends, and the scan of its second part finds the brace that the next piece is
and then goes on behind it.

Only comments are carried by the scan from one line to the next.  So the two do not agree when a
backslash carries a directive or a literal over the end of a row, nor when a comment comes before a
directive on its row, which the scan takes for code then.

## Main definitions

* `TokenKind.braceSide?`, `LexemeClass.braces`, `Token.braces` — the braces among tokens.
* `Nesting.bracesWithin`, `Nesting.bracesAfter` — the braces that the scan finds in the rest of a
  text, when a row is cut in two.
* `Lexeme.KeepsToRow` — a piece that the scan can tell for what it is.

## Main results

* `Lexeme.read_token` — a token is read as code.
* `Lexeme.bracesAfter_piece` — the scan finds the brace that a piece is, and goes on behind it.
* `Lexeme.bracesAfter_of_splitFrom` — the scan of a text finds the braces among its tokens.
* `Lexed.open_braces_agree` — **the lexer and the indenter leave the same braces open above any
  line**, and `Lexed.exists_open_braces_differ` — a directive that does not keep to its row.
-/

namespace Mend

/-- The brace that a token of a kind is. -/
def TokenKind.braceSide? : TokenKind → Option BraceSide
  | .lBrace => some .opening
  | .rBrace => some .closing
  | _ => none

/-! ### Braces in the rest of a text -/

namespace Nesting

open Text

variable {mode mode' : ScanMode} {p u : Text} {row : Nat} {s : List BraceSide}

/-- The braces of a text that begins within the given row. -/
def bracesWithin (mode : ScanMode) (row : Nat) (u : Text) : List CodeBrace :=
  (mode.read (firstRow u)).1.map (⟨·, row⟩) ++
    bracesFrom (mode.read (firstRow u)).2 (row + 1) (rows u).tail

theorem bracesWithin_newline (mode : ScanMode) (row : Nat) (u : Text) :
    bracesWithin mode row ('\n' :: u) = bracesFrom (mode == .comment) (row + 1) (rows u) := by
  have hread : mode.read [] = ([], mode == .comment) := by rw [ScanMode.read]
  have hfirst : firstRow ('\n' :: u) = [] := rfl
  rw [bracesWithin, hfirst, hread]
  rfl

/-- A piece of a row is read, and then the rest of the text. -/
theorem bracesWithin_append (hp : '\n' ∉ p) (hread : mode.read (p ++ firstRow u) =
      (s ++ (mode'.read (firstRow u)).1, (mode'.read (firstRow u)).2)) :
    bracesWithin mode row (p ++ u) = s.map (⟨·, row⟩) ++ bracesWithin mode' row u := by
  have hfirst : firstRow (p ++ u) = p ++ firstRow u := by rw [firstRow, rows_append hp]; rfl
  rw [bracesWithin, hfirst, hread, rows_append hp, List.map_append, List.append_assoc]
  rfl

theorem bracesFrom_true (row : Nat) (u : Text) :
    bracesFrom true row (rows u) = bracesWithin .comment row u := by
  rw [rows_eq_cons]
  rfl

/-- A line that does not open with a `#` is read as code. -/
theorem bracesFrom_false (hu : (body (firstRow u)).head? ≠ some '#') (row : Nat) :
    bracesFrom false row (rows u) = bracesWithin .code row u := by
  have hline : readLine false (firstRow u) = ScanMode.code.read (firstRow u) :=
    if_neg (by simpa using hu)
  rw [rows_eq_cons, bracesFrom, hline]
  rfl

/-- **A block comment is skipped**, with the line feeds in it. -/
theorem bracesWithin_comment {n : Nat} (h : Lexeme.restOfComment? u = some n) (row : Nat) :
    bracesWithin .comment row u =
      bracesWithin .code (row + (u.take n).count '\n') (u.drop n) := by
  induction u generalizing n row with
  | nil => cases h
  | cons c u ih =>
    rw [Lexeme.restOfComment?_cons] at h
    split at h
    next hend =>
      obtain ⟨rfl, hslash⟩ := hend
      obtain ⟨u, rfl⟩ := List.head?_eq_some_iff.1 hslash
      cases h
      exact bracesWithin_append (p := ['*', '/']) (s := []) (by decide) rfl
    next hend =>
      obtain ⟨m, hm, rfl⟩ := Option.map_eq_some_iff.1 h
      rw [List.take_succ_cons, List.drop_succ_cons]
      by_cases hc : c = '\n'
      · subst hc
        rw [bracesWithin_newline, beq_self_eq_true, bracesFrom_true, ih hm, List.count_cons_self]
        congr 1
        omega
      · have hread : ScanMode.comment.read (c :: firstRow u) =
            ScanMode.comment.read (firstRow u) := by
          rw [ScanMode.read_comment_cons, if_neg]
          rintro ⟨hstar, hslash⟩
          rw [head?_firstRow, Option.filter_eq_some_iff] at hslash
          exact hend ⟨hstar, hslash.1⟩
        rw [List.count_cons_of_ne hc, ← ih hm]
        exact bracesWithin_append (p := [c]) (s := []) (by simp [Ne.symm hc]) hread

/-! ### Tokens -/

theorem read_code_append (hp : ∀ c ∈ p, IsPlain c) (v : Text) :
    ScanMode.code.read (p ++ v) = ScanMode.code.read v := by
  induction p with
  | nil => rfl
  | cons c p ih =>
    obtain ⟨hc, hp⟩ := List.forall_mem_cons.1 hp
    exact (ScanMode.read_code_of_isPlain hc _).trans (ih hp)

theorem read_literal_cons {q c : Char} (hc : c ≠ '\\') (t : Text) :
    (ScanMode.literal q).read (c :: t) =
      (if c = q then ScanMode.code else ScanMode.literal q).read t := by
  rw [ScanMode.read]
  rintro d rest rfl
  exact absurd rfl hc

/-- A literal is read up to its end. -/
theorem read_literal {q : Char} (hq : q ≠ '\\') {n : Nat} (h : Lexeme.restOfLiteral? q u = some n)
    (v : Text) : (ScanMode.literal q).read (u.take n ++ v) = ScanMode.code.read v := by
  fun_induction Lexeme.restOfLiteral? q u generalizing n with
  | case1 | case2 => cases h
  | case3 =>
    rename_i ih
    obtain ⟨m, hm, rfl⟩ := Option.map_eq_some_iff.1 h
    exact ih hm
  | case4 rest =>
    cases h
    exact (read_literal_cons hq _).trans (by rw [if_pos rfl]; rfl)
  | case5 c rest _ hescape hc =>
    rename_i ih
    obtain ⟨m, hm, rfl⟩ := Option.map_eq_some_iff.1 h
    have hbackslash : c ≠ '\\' := by
      rintro rfl
      cases rest with
      | nil => cases hm
      | cons d rest => exact hescape d rest rfl rfl
    rw [List.take_succ_cons, List.cons_append, read_literal_cons hbackslash, if_neg hc]
    exact ih hm

end Nesting

namespace Lexeme

variable {b hex : Bool} {c last : Char} {t : Text} {n : Nat} {k : TokenKind}

theorem isPlain_of_mem_word (hmem : c ∈ t.take (restOfWord t)) : Nesting.IsPlain c := by
  rw [restOfWord, ← List.prefix_iff_eq_take.1 (List.takeWhile_prefix _)] at hmem
  exact Nesting.isPlain_of (List.all_eq_true.1 List.all_takeWhile c hmem) (by decide +kernel)

theorem isPlain_of_mem_number (hmem : c ∈ t.take (restOfNumber hex last t)) :
    Nesting.IsPlain c := by
  induction t generalizing last with
  | nil => simp at hmem
  | cons d t ih =>
    rw [restOfNumber] at hmem
    split at hmem
    next hd =>
      rcases List.mem_cons.1 hmem with rfl | hmem
      · refine Nesting.isPlain_of
          (p := fun c => c.isAlphanum || c == '_' || c == '.' || c == '+' || c == '-') ?_
          (by decide)
        simp only [Bool.or_eq_true, beq_iff_eq]
        rcases hd with hd | hd | hd | ⟨hd | hd, -⟩ <;> simp [hd]
      · exact ih hmem
    next => cases hmem

/-- Punctuation is plain, but for braces and what has a slash in it. -/
theorem punctuators_cases {p : String × TokenKind} (hp : p ∈ punctuators) :
    (p.1.toList.all (Nesting.IsPlain ·) = true ∧ p.2.braceSide? = none) ∨ p = ("\x7b", .lBrace) ∨
      p = ("\x7d", .rBrace) ∨ p = ("/", .slash) ∨ p = ("/=", .slashEqual) := by
  revert p
  decide +kernel

/-- **A token of one row is read as code**, and the scan finds the brace that it is. -/
theorem read_token (h : scan b c t = .ok (.token k, n)) {v : Text}
    (hv : ∀ d ∈ v.head?, (t.drop n).head? = some d) :
    Nesting.ScanMode.code.read (c :: t.take n ++ v) =
      (k.braceSide?.toList ++ (Nesting.ScanMode.code.read v).1,
        (Nesting.ScanMode.code.read v).2) := by
  have hkeywords : ∀ p ∈ keywords, p.2.braceSide? = none := by decide
  rcases scan_token_cases h with ⟨hk, hquote, hn⟩ | ⟨rfl, hc, rfl⟩ | ⟨hk, hc, rfl⟩ | ⟨hmem, hslash⟩
  · have hside : k.braceSide? = none := by rcases hk with rfl | rfl <;> rfl
    rw [hside, List.cons_append, Nesting.ScanMode.read_code_quote hquote,
      Nesting.read_literal (by rcases hquote with rfl | rfl <;> decide) hn]
    rfl
  · have hfirst : Nesting.IsPlain c := by
      refine Nesting.isPlain_of (p := fun c => c.isDigit || c == '.') ?_ (by decide)
      simpa using hc
    rw [Nesting.read_code_append
      (List.forall_mem_cons.2 ⟨hfirst, fun d hd => isPlain_of_mem_number hd⟩)]
    rfl
  · have hside : k.braceSide? = none := by
      rcases hk with rfl | hp
      · rfl
      · exact hkeywords _ hp
    have hfirst : Nesting.IsPlain c := Nesting.isPlain_of hc (by decide +kernel)
    rw [hside, Nesting.read_code_append
      (List.forall_mem_cons.2 ⟨hfirst, fun d hd => isPlain_of_mem_word hd⟩)]
    rfl
  · have hspelled {w : String} {k' : TokenKind}
        (heq : (String.ofList (c :: t.take n), k) = (w, k')) :
        c :: t.take n = w.toList ∧ k = k' := by
      obtain ⟨rfl, rfl⟩ := Prod.mk.inj heq
      exact ⟨String.toList_ofList.symm, rfl⟩
    rcases punctuators_cases hmem with ⟨hplain, hk⟩ | heq | heq | heq | heq
    · rw [hk, Nesting.read_code_append (by simpa using hplain)]
      rfl
    · obtain ⟨htext, rfl⟩ := hspelled heq
      rw [htext]
      rfl
    · obtain ⟨htext, rfl⟩ := hspelled heq
      rw [htext]
      rfl
    · -- the character after a division sign belongs to no comment
      obtain ⟨htext, rfl⟩ := hspelled heq
      obtain ⟨rfl, hnil⟩ := List.cons.inj htext
      have hdrop : t.drop n = t := by
        conv_rhs => rw [← List.take_append_drop n t, hnil, List.nil_append]
      rw [hdrop] at hv
      rw [hnil]
      exact Nesting.ScanMode.read_code_cons (by decide) fun _ =>
        ⟨fun hd => hslash ⟨rfl, .inl (hv _ hd)⟩, fun hd => hslash ⟨rfl, .inr (hv _ hd)⟩⟩
    · obtain ⟨htext, rfl⟩ := hspelled heq
      rw [htext]
      rfl

end Lexeme

/-! ### Pieces of a text -/

/-- The brace that a piece of a class is, when the piece stands on the given row. -/
def LexemeClass.braces (row : Nat) : LexemeClass → List CodeBrace
  | .token k => k.braceSide?.toList.map (⟨·, row⟩)
  | _ => []

namespace Nesting

open Text

variable {pre t u : Text} {c : Char} {n : Nat} {b : Bool} {k : TokenKind}

/-- The braces in the second part of a text that is cut in two outside comments and literals. -/
def bracesAfter (pre u : Text) : List CodeBrace :=
  if AtRowStart pre then bracesFrom false (pre.count '\n') (rows u)
  else bracesWithin .code (pre.count '\n') u

theorem bracesAfter_of_not_atRowStart (hpre : ¬AtRowStart pre) (u : Text) :
    bracesAfter pre u = bracesWithin .code (pre.count '\n') u :=
  if_neg hpre

/-- Code is read as such, whether a line begins with it or not. -/
theorem bracesAfter_of_code (hc : isBlank c = false) (hsharp : AtRowStart pre → c ≠ '#')
    (u : Text) : bracesAfter pre (c :: u) = bracesWithin .code (pre.count '\n') (c :: u) := by
  by_cases hpre : AtRowStart pre
  · have hfirst : firstRow (c :: u) = c :: firstRow u := by
      rw [firstRow, ← List.singleton_append,
        rows_append (newline_not_mem_cons hc List.not_mem_nil)]
      rfl
    rw [bracesAfter, if_pos hpre]
    refine bracesFrom_false ?_ _
    rw [hfirst, body, List.dropWhile_cons_of_neg (by simp [hc])]
    simpa using hsharp hpre
  · exact bracesAfter_of_not_atRowStart hpre _

/-- No brace stands above the row that is cut in two. -/
theorem le_row_of_mem_bracesAfter {x : CodeBrace} (hx : x ∈ bracesAfter pre u) :
    pre.count '\n' ≤ x.row := by
  rw [bracesAfter] at hx
  split at hx
  next => exact le_row_of_mem_bracesFrom hx
  next =>
    rcases List.mem_append.1 hx with hx | hx
    · obtain ⟨side, -, rfl⟩ := List.mem_map.1 hx
      exact Nat.le_refl _
    · exact Nat.le_of_succ_le (le_row_of_mem_bracesFrom hx)

theorem bracesAfter_nil (pre : Text) : bracesAfter pre [] = [] := by
  rw [bracesAfter]
  split <;> rfl

theorem bracesAfter_newline (pre u : Text) :
    bracesAfter pre ('\n' :: u) = bracesAfter (pre ++ ['\n']) u := by
  have hcount : (pre ++ ['\n']).count '\n' = pre.count '\n' + 1 := by simp
  have hafter : bracesAfter (pre ++ ['\n']) u = bracesFrom false (pre.count '\n' + 1) (rows u) := by
    rw [bracesAfter, if_pos (atRowStart_newline pre), hcount]
  rw [hafter, bracesAfter]
  split
  · rfl
  · exact bracesWithin_newline .code _ u

theorem bracesAfter_blank (hblank : isBlank c = true) (hc : c ≠ '\n') (pre u : Text) :
    bracesAfter pre (c :: u) = bracesAfter (pre ++ [c]) u := by
  have hnewline : '\n' ∉ [c] := by simpa using Ne.symm hc
  have hcount : (pre ++ [c]).count '\n' = pre.count '\n' := by
    rw [List.count_append, List.count_singleton, if_neg (by simpa using hc), Nat.add_zero]
  have hread := ScanMode.read_code_of_isPlain (isPlain_of_isBlank hblank) (firstRow u)
  simp only [bracesAfter, atRowStart_blank hblank hc, hcount]
  split
  · have hline : readLine false (c :: firstRow u) = readLine false (firstRow u) := by
      have hbody : body (c :: firstRow u) = body (firstRow u) :=
        List.dropWhile_cons_of_pos hblank
      rw [readLine, readLine, hbody, startMode, if_neg Bool.false_ne_true, hread]
    rw [← List.singleton_append, rows_append hnewline, List.singleton_append, bracesFrom, hline,
      rows_eq_cons u]
    rfl
  · exact bracesWithin_append (p := [c]) (s := []) hnewline hread

/-- More code of the row comes after code without line feeds. -/
theorem bracesAfter_append (hc : isBlank c = false) (hp : '\n' ∉ p) (pre u : Text) :
    bracesAfter (pre ++ c :: p) u = bracesWithin .code (pre.count '\n') u := by
  rw [bracesAfter_of_not_atRowStart (not_atRowStart hc hp pre), List.count_append,
    List.count_eq_zero_of_not_mem (newline_not_mem_cons hc hp), Nat.add_zero]

theorem firstRow_drop_restOfLine (t : Text) : firstRow (t.drop (Lexeme.restOfLine t)) = [] := by
  refine firstRow_eq_nil fun d hd => ?_
  obtain ⟨r, hr⟩ := List.head?_eq_some_iff.1 hd
  have hend : Lexeme.restOfLine (t.take (Lexeme.restOfLine t) ++ d :: r) =
      (t.take (Lexeme.restOfLine t)).length := by
    rw [← hr, List.take_append_drop, List.length_take_of_le (Lexeme.restOfLine_le_length t)]
  exact Lexeme.eq_newline_of_restOfLine hend

theorem firstRow_drop_restOfDirective (last : Char) (t : Text) :
    firstRow (t.drop (Lexeme.restOfDirective last t)) = [] := by
  refine firstRow_eq_nil fun d hd => ?_
  obtain ⟨r, hr⟩ := List.head?_eq_some_iff.1 hd
  have hend : Lexeme.restOfDirective last (t.take (Lexeme.restOfDirective last t) ++ d :: r) =
      (t.take (Lexeme.restOfDirective last t)).length := by
    rw [← hr, List.take_append_drop,
      List.length_take_of_le (Lexeme.restOfDirective_le_length last t)]
  exact Lexeme.eq_newline_of_restOfDirective hend

theorem newline_not_mem_take_restOfLine (t : Text) : '\n' ∉ t.take (Lexeme.restOfLine t) := by
  rw [Lexeme.restOfLine, ← List.prefix_iff_eq_take.1 (List.takeWhile_prefix _)]
  intro hmem
  simpa using List.all_eq_true.1 List.all_takeWhile _ hmem

/-- A comment goes on to the end of its row. -/
theorem bracesAfter_lineComment (hslash : t.head? = some '/') (pre : Text) :
    bracesAfter pre ('/' :: t) = bracesAfter (pre ++ '/' :: t.take (Lexeme.restOfLine t))
      (t.drop (Lexeme.restOfLine t)) := by
  have hline := newline_not_mem_take_restOfLine t
  have hread : ScanMode.code.read ('/' :: t.take (Lexeme.restOfLine t)) = ([], false) := by
    obtain ⟨t, rfl⟩ := List.head?_eq_some_iff.1 hslash
    rw [Lexeme.restOfLine_cons, if_neg (by decide)]
    rfl
  rw [bracesAfter_append (by decide) hline, bracesAfter_of_code (by decide) fun _ => by decide]
  conv_lhs => rw [← List.take_append_drop (Lexeme.restOfLine t) t, ← List.cons_append]
  refine bracesWithin_append (s := []) (newline_not_mem_cons (by decide) hline) ?_
  rw [firstRow_drop_restOfLine, List.append_nil, hread]
  rfl

/-- A block comment ends with a slash, so no row starts there. -/
theorem not_atRowStart_of_restOfComment? {m : Nat} (hm : Lexeme.restOfComment? t = some m)
    (pre : Text) : ¬AtRowStart (pre ++ t.take m) := by
  induction t generalizing m pre with
  | nil => cases hm
  | cons c t ih =>
    rw [Lexeme.restOfComment?_cons] at hm
    split at hm
    next hend =>
      obtain ⟨rfl, hslash⟩ := hend
      obtain ⟨t, rfl⟩ := List.head?_eq_some_iff.1 hslash
      cases hm
      exact not_atRowStart (c := '*') (p := ['/']) (by decide) (by decide) pre
    next =>
      obtain ⟨i, hi, rfl⟩ := Option.map_eq_some_iff.1 hm
      rw [List.take_succ_cons, ← List.singleton_append, ← List.append_assoc]
      exact ih hi _

/-- A comment goes on to its end, over the ends of rows. -/
theorem bracesAfter_blockComment {m : Nat} (hm : Lexeme.restOfComment? t = some m) (pre : Text) :
    bracesAfter pre ('/' :: '*' :: t) =
      bracesAfter (pre ++ '/' :: '*' :: t.take m) (t.drop m) := by
  have hopen : bracesWithin .code (pre.count '\n') ('/' :: '*' :: t) =
      bracesWithin .comment (pre.count '\n') t :=
    bracesWithin_append (p := ['/', '*']) (s := []) (by decide) rfl
  have hend : ¬AtRowStart (pre ++ '/' :: '*' :: t.take m) := by
    simpa using not_atRowStart_of_restOfComment? hm (pre ++ ['/', '*'])
  have hcount : (pre ++ '/' :: '*' :: t.take m).count '\n' =
      pre.count '\n' + (t.take m).count '\n' := by
    simp
  rw [bracesAfter_of_code (by decide) fun _ => by decide, hopen, bracesWithin_comment hm,
    bracesAfter_of_not_atRowStart hend, hcount]

/-- A row that opens with a directive is skipped. -/
theorem bracesAfter_directive (hpre : AtRowStart pre)
    (hline : '\n' ∉ t.take (Lexeme.restOfDirective '#' t)) :
    bracesAfter pre ('#' :: t) = bracesAfter (pre ++ '#' :: t.take (Lexeme.restOfDirective '#' t))
      (t.drop (Lexeme.restOfDirective '#' t)) := by
  have hpiece := newline_not_mem_cons (c := '#') (by decide) hline
  have hskip (v : Text) : readLine false ('#' :: v) = ([], false) := by
    have hbody : body ('#' :: v) = '#' :: v := List.dropWhile_cons_of_neg (by decide)
    rw [readLine, hbody]
    rfl
  rw [bracesAfter_append (by decide) hline, bracesWithin, firstRow_drop_restOfDirective,
    bracesAfter, if_pos hpre]
  conv_lhs =>
    rw [← List.take_append_drop (Lexeme.restOfDirective '#' t) t, ← List.cons_append,
      rows_append hpiece, List.cons_append, bracesFrom, hskip]
  rfl

/-- The scan finds the brace that a token is. -/
theorem bracesAfter_token (h : Lexeme.scan b c t = .ok (.token k, n)) (hblank : isBlank c = false)
    (hsharp : AtRowStart pre → c ≠ '#') (hline : '\n' ∉ t.take n) :
    bracesAfter pre (c :: t) = k.braceSide?.toList.map (⟨·, pre.count '\n'⟩) ++
      bracesAfter (pre ++ c :: t.take n) (t.drop n) := by
  have hread : ScanMode.code.read (c :: t.take n ++ firstRow (t.drop n)) =
      (k.braceSide?.toList ++ (ScanMode.code.read (firstRow (t.drop n))).1,
        (ScanMode.code.read (firstRow (t.drop n))).2) := by
    refine Lexeme.read_token h fun d hd => ?_
    rw [head?_firstRow, Option.mem_def, Option.filter_eq_some_iff] at hd
    exact hd.1
  rw [bracesAfter_append hblank hline, bracesAfter_of_code hblank hsharp,
    ← bracesWithin_append (newline_not_mem_cons hblank hline) hread, List.cons_append,
    List.take_append_drop]

end Nesting

namespace Lexeme

open Nesting Text

/-- A piece that the scan of lines can tell for what it is: only comments and newlines reach beyond
their row, and no more than blanks stand before a directive on its row. -/
structure KeepsToRow (t : Text) (l : Lexeme) : Prop where
  /-- Only comments and newlines have line feeds. -/
  newline_not_mem : l.kind = .newline ∨ l.kind = .comment ∨ '\n' ∉ l.text
  /-- A directive opens its row. -/
  atRowStart : l.kind = .directive → AtRowStart (t.take l.start)

instance (t : Text) (l : Lexeme) : Decidable (KeepsToRow t l) :=
  decidable_of_iff ((l.kind = .newline ∨ l.kind = .comment ∨ '\n' ∉ l.text) ∧
    (l.kind = .directive → AtRowStart (t.take l.start)))
    ⟨fun h => ⟨h.1, h.2⟩, fun h => ⟨h.newline_not_mem, h.atRowStart⟩⟩

variable {b : Bool} {c : Char} {n : Nat} {k : LexemeClass} {pre t : Text}

/-- **The scan finds the brace that a piece is**, and goes on with the next one. -/
theorem bracesAfter_piece (h : scan b c t = .ok (k, n)) (hpre : AtRowStart pre → b = true)
    (hkeeps : KeepsToRow (pre ++ c :: t) ⟨k, pre.length, c :: t.take n⟩) :
    bracesAfter pre (c :: t) =
        k.braces (pre.count '\n') ++ bracesAfter (pre ++ c :: t.take n) (t.drop n) ∧
      (AtRowStart (pre ++ c :: t.take n) → lineStartAfter b k = true) := by
  obtain ⟨hline, hstart⟩ := hkeeps
  rw [List.take_left] at hstart
  have hrest (hnewline : k ≠ .newline) (hcomment : k ≠ .comment) : '\n' ∉ t.take n := fun hmem =>
    (hline.resolve_left hnewline).resolve_left hcomment (List.mem_cons_of_mem _ hmem)
  rcases scan_cases h with ⟨rfl, rfl, rfl⟩ | ⟨rfl, hblank, hne, rfl⟩ | ⟨rfl, rfl, hsecond, rfl⟩ |
    ⟨rfl, rfl, hsecond, m, hm, rfl⟩ | ⟨rfl, rfl, rfl, rfl⟩ | ⟨⟨k, rfl⟩, -, hblank, hsharp⟩
  · simp only [LexemeClass.braces, List.nil_append, List.take_zero, List.drop_zero]
    exact ⟨bracesAfter_newline pre t, fun _ => rfl⟩
  · simp only [LexemeClass.braces, List.nil_append, List.take_zero, List.drop_zero]
    exact ⟨bracesAfter_blank hblank hne pre t, fun h =>
      hpre ((atRowStart_blank hblank hne pre).1 h)⟩
  · simp only [LexemeClass.braces, List.nil_append]
    exact ⟨bracesAfter_lineComment hsecond pre, fun h =>
      absurd h (not_atRowStart (by decide) (newline_not_mem_take_restOfLine t) pre)⟩
  · obtain ⟨t, rfl⟩ := List.head?_eq_some_iff.1 hsecond
    simp only [LexemeClass.braces, List.nil_append, List.take_succ_cons, List.drop_succ_cons]
    refine ⟨bracesAfter_blockComment hm pre, fun h => absurd h ?_⟩
    simpa using not_atRowStart_of_restOfComment? hm (pre ++ ['/', '*'])
  · simp only [LexemeClass.braces, List.nil_append]
    exact ⟨bracesAfter_directive (hstart rfl) (hrest nofun nofun), fun _ => rfl⟩
  · have hline := hrest nofun nofun
    exact ⟨bracesAfter_token h hblank (fun h hc => hsharp ⟨hc, hpre h⟩) hline,
      fun h => absurd h (not_atRowStart hblank hline pre)⟩

end Lexeme

/-! ### Runs of pieces -/

/-- The braces among tokens of a text. -/
def Token.braces (t : Text) (ts : List Token) : List CodeBrace :=
  ts.filterMap fun tok => tok.kind.braceSide?.map (⟨·, Text.rowOf t tok.start⟩)

namespace Lexeme

open Nesting Text

variable {b : Bool} {o : Nat} {t u : Text} {ls : List Lexeme}

theorem braces_cons (t : Text) (l : Lexeme) (ls : List Lexeme) :
    Token.braces t ((l :: ls).filterMap token?) =
      l.kind.braces (rowOf t l.start) ++ Token.braces t (ls.filterMap token?) := by
  obtain ⟨k, o, text⟩ := l
  cases k with
  | token k =>
    have htoken : token? ⟨.token k, o, text⟩ =
        some ⟨k, ⟨o, o + text.length⟩, String.ofList text⟩ := rfl
    rw [List.filterMap_cons_some htoken, Token.braces, List.filterMap_cons]
    cases hk : k.braceSide? <;> simp [LexemeClass.braces, hk, Token.braces, Token.start]
  | newline | blank | comment | directive => rfl

/-- The braces of tokens do not stand above the text in which the tokens lie. -/
theorem rowOf_le_row_of_mem_braces (h : Fill o ls u) {x : CodeBrace}
    (hx : x ∈ Token.braces t (ls.filterMap token?)) : rowOf t o ≤ x.row := by
  obtain ⟨tok, htok, hside⟩ := List.mem_filterMap.1 hx
  obtain ⟨l, hl, htoken⟩ := List.mem_filterMap.1 htok
  obtain ⟨side, -, rfl⟩ := Option.map_eq_some_iff.1 hside
  obtain ⟨xs, ys, rfl⟩ := List.append_of_mem hl
  have hstart : o ≤ l.start := by
    rw [Scrap.start_eq_of_fill h]
    exact Nat.le_add_right _ _
  have hsame : tok.start = l.start := by
    rw [token?] at htoken
    split at htoken
    next => rw [← Option.some.inj htoken]; rfl
    next => cases htoken
  rw [hsame]
  exact rowOf_mono t hstart

/-- **The scan finds the braces that the lexer finds**, as far as pieces keep to their rows. -/
theorem bracesAfter_of_splitFrom {line : Nat} (h : splitFrom b o u = .ok ls) (pre : Text)
    (ho : o = pre.length) (hpre : AtRowStart pre → b = true)
    (hkeeps : ∀ l ∈ ls, rowOf (pre ++ u) l.start < line → KeepsToRow (pre ++ u) l) :
    (bracesAfter pre u).filter (·.row < line) =
      (Token.braces (pre ++ u) (ls.filterMap token?)).filter (·.row < line) := by
  have hfill := fill_of_splitFrom h
  fun_induction splitFrom b o u generalizing ls pre with
  | case1 =>
    cases h
    rw [bracesAfter_nil]
    rfl
  | case2 | case3 | case4 => cases h
  | case5 b o c rest k n hscan text pieces hrest =>
    rename_i ih
    subst ho
    by_cases hrow : pre.count '\n' < line
    · cases h
      obtain ⟨hstep, hnext⟩ := bracesAfter_piece hscan hpre
        (hkeeps _ List.mem_cons_self (by rwa [rowOf_append_length]))
      have happend : (pre ++ text) ++ rest.drop n = pre ++ c :: rest := by simp [text]
      have hpieces := ih hrest (pre ++ text) List.length_append.symm hnext
        (by rw [happend]; exact fun l hl => hkeeps l (List.mem_cons_of_mem _ hl))
        (fill_of_splitFrom hrest)
      rw [happend] at hpieces
      rw [hstep, braces_cons, List.filter_append, List.filter_append, hpieces,
        rowOf_append_length]
    · -- what is left stands below the lines that count
      rw [List.filter_eq_nil_iff.2, List.filter_eq_nil_iff.2]
      · intro x hx
        have hle := rowOf_le_row_of_mem_braces hfill hx
        rw [rowOf_append_length] at hle
        simp only [decide_eq_true_eq]
        omega
      · intro x hx
        have hle := le_row_of_mem_bracesAfter hx
        simp only [decide_eq_true_eq]
        omega

end Lexeme

/-! ### The lexer and the indenter -/

namespace Lexed

open Nesting Text

theorem ofText_of_split {t : Text} {ls : List Lexeme} (h : Lexeme.split t = .ok ls) :
    ofText t = .ok ⟨ls.filterMap Lexeme.token?, Include.ofLexemes 1 ls⟩ := by
  rw [ofText, h]

/-- **The lexer and the scan of lines leave the same braces open** above any line, as far as the
pieces above it keep to their rows.  The scan notes the indentation of lines with the open braces.
When it notes their numbers in its place, these are the rows of the brace tokens that are left open;
so what it notes is the indentation of these rows. -/
theorem open_braces_agree {t : Text} {L : Lexed} {ls : List Lexeme} (hL : ofText t = .ok L)
    (hbreaks : ∀ c ∈ t, isLineBreak c = true → c = '\n') (hls : Lexeme.split t = .ok ls)
    {line : Nat} (hkeeps : ∀ l ∈ ls, rowOf t l.start < line → Lexeme.KeepsToRow t l)
    (style : IndentStyle) :
    let above := ((lines t).take line).map stripNewline
    let indent := fun row => style.columnsOf (indentation (above.getD row []))
    let rows := openRows ((Token.braces t L.tokens).filter (·.row < line))
    scanLines style above = scanNoting style indent 0 {} above ∧
      (scanNoting style id 0 {} above).notes = rows ∧
      (scanLines style above).notes = rows.map indent := by
  intro above indent rows
  have habove : above = (Text.rows t).take line := by
    rw [← map_stripNewline_lines hbreaks, ← List.map_take]
  have htokens : L.tokens = ls.filterMap Lexeme.token? := by
    rw [ofText_of_split hls] at hL
    cases hL
    rfl
  have hbraces : bracesFrom false 0 above = (Token.braces t L.tokens).filter (·.row < line) := by
    have hrun := Lexeme.bracesAfter_of_splitFrom hls [] rfl (fun _ => rfl) hkeeps
    rw [bracesAfter, if_pos atRowStart_nil] at hrun
    rw [habove, bracesFrom_take, htokens, Nat.zero_add]
    exact hrun
  have hnotes (note : Nat → Nat) : (scanNoting style note 0 {} above).notes = rows.map note := by
    rw [notes_scanNoting]
    show openNotes note [] (bracesFrom false 0 above) = _
    rw [hbraces]
    exact (map_openNotes note [] _).symm
  have hscan := scanLines_eq_scanNoting style above
  exact ⟨hscan, by rw [hnotes, List.map_id], by rw [hscan, hnotes]⟩

/-- Braces in a directive, in comments and in a literal do not count for either of the two. -/
theorem open_braces_agree_hidden :
    let t := "#define X \x7b\nf \x7b /* \x7b\n  \x7d */ '\x7b' \x7b // \x7d".toList
    let above := ((lines t).take 3).map stripNewline
    (scanNoting {} id 0 {} above).notes = [2, 1] ∧ (scanLines {} above).notes = [2, 0] := by
  intro t above
  have hls : Lexeme.split t = .ok
      [⟨.directive, 0, "#define X \x7b".toList⟩, ⟨.newline, 11, ['\n']⟩,
        ⟨.token .identifier, 12, ['f']⟩, ⟨.blank, 13, [' ']⟩,
        ⟨.token .lBrace, 14, ['\x7b']⟩, ⟨.blank, 15, [' ']⟩,
        ⟨.comment, 16, "/* \x7b\n  \x7d */".toList⟩, ⟨.blank, 27, [' ']⟩,
        ⟨.token .charLiteral, 28, "'\x7b'".toList⟩, ⟨.blank, 31, [' ']⟩,
        ⟨.token .lBrace, 32, ['\x7b']⟩, ⟨.blank, 33, [' ']⟩,
        ⟨.comment, 34, "// \x7d".toList⟩] := by
    decide +kernel
  have hbreaks := eq_newline_of_all (show t.all (fun c => !isLineBreak c || c == '\n') = true by
    decide)
  obtain ⟨-, hrows, hindents⟩ := open_braces_agree (ofText_of_split hls) hbreaks hls
    (show ∀ l ∈ _, rowOf t l.start < 3 → Lexeme.KeepsToRow t l by decide) {}
  rw [hrows, hindents]
  decide

/-- The indenter finds the brace in a directive that goes on in the next line, and the lexer does
not. -/
theorem exists_open_braces_differ :
    let t := "#define OPEN \\\n  \x7b\nint x;".toList
    let above := ((lines t).take 2).map stripNewline
    ∃ L, ofText t = .ok L ∧ (∀ c ∈ t, isLineBreak c = true → c = '\n') ∧
      openRows ((Token.braces t L.tokens).filter (·.row < 2)) = [] ∧
      (scanNoting {} id 0 {} above).notes = [1] ∧ (scanLines {} above).notes = [2] := by
  intro t above
  have hL : ofText t = .ok
      ⟨[⟨.kwInt, ⟨19, 22⟩, "int"⟩, ⟨.identifier, ⟨23, 24⟩, "x"⟩, ⟨.semicolon, ⟨24, 25⟩, ";"⟩],
        []⟩ := by
    decide +kernel
  exact ⟨_, hL, eq_newline_of_all (by decide), by decide⟩

end Lexed

end Mend
