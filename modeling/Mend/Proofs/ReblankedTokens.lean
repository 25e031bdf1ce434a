import Mend.Code.Lexer
import Mend.Proofs.Reblanking

/-!
# Tokens under other blanks

A text that gets other blanks at the starts of lines falls into the same tokens.  Every scan of the
lexer is followed in both texts at once.  Within a line it reads the same characters.  Where blanks
are exchanged it is between tokens, or in a comment, a directive or a literal, which all read on
over blanks.  Only in a literal do the blanks belong to a token, which is then spelled in another
way.

## Main definitions

* `Lexeme.tokensFrom` — the tokens of a text that lies at an offset.
* `Token.Keeps` — a token with its kind, and with its spelling unless blanks were exchanged in it.

## Main results

* `Lexeme.scan_reblanked` — both texts begin with a piece of the same class.
* `Lexeme.forall₂_tokensFrom` — **both texts have the same tokens, up to blanks within them.**
* `Draft.tokens_reindent?` — giving lines their indentation keeps all kinds, and it keeps all
  spellings just when no line that changes starts within a token.
-/

namespace Mend

open Text

namespace Lexeme

open Reblanked (Cut cut_zero)

variable {D : Nat → Prop} {s b : Bool} {o : Nat} {t t' ws : Text} {c : Char}

/-! ### Scans that read on over blanks -/

/-- Blanks that open a line are neither code nor the end of a line. -/
theorem ne_of_mem_padding {d : Char} (hws : IsPadding ws) (hd : d ∈ ws)
    (hc : isBlank c = false ∨ isLineBreak c = true) : d ≠ c := by
  rintro rfl
  obtain ⟨hblank, hbreak⟩ := hws d hd
  simp [hblank, hbreak] at hc

theorem restOfLine_cons (c : Char) (t : Text) :
    restOfLine (c :: t) = if c = '\n' then 0 else restOfLine t + 1 := by
  by_cases hc : c = '\n' <;> simp [restOfLine, hc]

theorem restOfLine_append (hws : IsPadding ws) (t : Text) :
    restOfLine (ws ++ t) = ws.length + restOfLine t := by
  have hall : ∀ d ∈ ws, (d != '\n') = true := fun d hd =>
    bne_iff_ne.2 (ne_of_mem_padding hws hd (.inr (by decide)))
  rw [restOfLine, List.takeWhile_append_of_pos hall, List.length_append, restOfLine]

/-- A comment up to the end of its line ends at the same place in both texts. -/
theorem cut_restOfLine (h : Reblanked D s o t t') :
    Cut D s o t t' (restOfLine t) (restOfLine t') := by
  induction h with
  | nil => exact cut_zero .nil
  | @cons s o old new t t' c hstep h ih =>
    obtain ⟨hold, hnew⟩ := hstep.isPadding
    rw [restOfLine_append hold, restOfLine_append hnew, restOfLine_cons, restOfLine_cons]
    by_cases hc : c = '\n'
    · rw [if_pos hc, if_pos hc]
      obtain ⟨rfl, rfl⟩ := hstep.eq_nil_of_isBlank (by rw [hc]; decide)
      exact cut_zero (.cons hstep h)
    · rw [if_neg hc, if_neg hc]
      exact ih.cons hstep

theorem restOfComment?_cons (c : Char) (t : Text) :
    restOfComment? (c :: t) =
      if c = '*' ∧ t.head? = some '/' then some 2 else (restOfComment? t).map (· + 1) := by
  split
  next hend =>
    obtain ⟨rfl, hhead⟩ := hend
    obtain ⟨rest, rfl⟩ := List.head?_eq_some_iff.1 hhead
    rfl
  next hend =>
    rw [restOfComment?]
    rintro rest rfl rfl
    exact hend ⟨rfl, rfl⟩

theorem restOfComment?_append (hws : IsPadding ws) (t : Text) :
    restOfComment? (ws ++ t) = (restOfComment? t).map (ws.length + ·) := by
  induction ws with
  | nil => simp
  | cons d ws ih =>
    have hd : d ≠ '*' := ne_of_mem_padding hws List.mem_cons_self (.inl (by decide))
    rw [List.cons_append, restOfComment?_cons, if_neg (fun h => hd h.1),
      ih fun x hx => hws x (List.mem_cons_of_mem _ hx), Option.map_map, List.length_cons]
    congr 1
    funext n
    simp only [Function.comp_apply]
    omega

/-- A block comment ends at the same place in both texts. -/
theorem exists_cut_restOfComment? (h : Reblanked D s o t t') {n : Nat}
    (hn : restOfComment? t = some n) :
    ∃ n', restOfComment? t' = some n' ∧ Cut D s o t t' n n' := by
  induction h generalizing n with
  | nil => cases hn
  | @cons s o old new t t' c hstep h ih =>
    obtain ⟨hold, hnew⟩ := hstep.isPadding
    rw [restOfComment?_append hold] at hn
    obtain ⟨m, hm, rfl⟩ := Option.map_eq_some_iff.1 hn
    rw [restOfComment?_append hnew]
    rw [restOfComment?_cons] at hm ⊢
    -- no blanks are exchanged after the star, so both comments end here or neither does
    have hhead : c = '*' → t'.head? = t.head? := by
      rintro rfl
      exact h.head?_eq
    by_cases hend : c = '*' ∧ t.head? = some '/'
    · obtain ⟨rfl, hslash⟩ := hend
      rw [if_pos ⟨rfl, hslash⟩] at hm
      cases hm
      rw [if_pos ⟨rfl, (hhead rfl).trans hslash⟩]
      refine ⟨_, rfl, Cut.cons hstep ?_⟩
      cases h with
      | nil => cases hslash
      | cons hstep' h' =>
        obtain ⟨rfl, rfl⟩ := hstep'.eq_nil_of_inside
        exact (cut_zero h').cons hstep'
    · have hend' : ¬(c = '*' ∧ t'.head? = some '/') := by
        rintro ⟨hc, hslash⟩
        exact hend ⟨hc, (hhead hc).symm.trans hslash⟩
      rw [if_neg hend] at hm
      obtain ⟨k, hk, rfl⟩ := Option.map_eq_some_iff.1 hm
      obtain ⟨k', hk', hcut⟩ := ih hk
      rw [if_neg hend', hk']
      exact ⟨_, rfl, hcut.cons hstep⟩

theorem restOfDirective_append_cons (hws : IsPadding ws) (hc : c ≠ '\n') (last : Char) (t : Text) :
    restOfDirective last (ws ++ c :: t) = ws.length + (restOfDirective c t + 1) := by
  induction ws generalizing last with
  | nil => simp [restOfDirective, hc]
  | cons d ws ih =>
    have hd : d ≠ '\n' := ne_of_mem_padding hws List.mem_cons_self (.inr (by decide))
    rw [List.cons_append, restOfDirective, if_neg (fun h => hd h.1),
      ih fun x hx => hws x (List.mem_cons_of_mem _ hx), List.length_cons]
    omega

/-- A directive ends at the same place in both texts: no blanks are exchanged before a newline. -/
theorem cut_restOfDirective (h : Reblanked D s o t t') (last : Char) :
    Cut D s o t t' (restOfDirective last t) (restOfDirective last t') := by
  induction h generalizing last with
  | nil => exact cut_zero .nil
  | @cons s o old new t t' c hstep h ih =>
    obtain ⟨hold, hnew⟩ := hstep.isPadding
    by_cases hc : c = '\n'
    · obtain ⟨rfl, rfl⟩ := hstep.eq_nil_of_isBlank (by rw [hc]; decide)
      rw [List.nil_append, List.nil_append, restOfDirective, restOfDirective]
      split
      · exact cut_zero (.cons hstep h)
      · have hcut := (ih c).cons hstep
        simpa using hcut
    · rw [restOfDirective_append_cons hold hc, restOfDirective_append_cons hnew hc]
      exact (ih c).cons hstep

variable {q : Char}

theorem restOfLiteral?_cons (hnewline : c ≠ '\n') (hbackslash : c ≠ '\\') (t : Text) :
    restOfLiteral? q (c :: t) = if c = q then some 1 else (restOfLiteral? q t).map (· + 1) := by
  rw [restOfLiteral?]
  · rintro rfl
    exact hnewline rfl
  · rintro _ _ rfl
    exact absurd rfl hbackslash

theorem restOfLiteral?_append (hq : isBlank q = false) (hws : IsPadding ws) (t : Text) :
    restOfLiteral? q (ws ++ t) = (restOfLiteral? q t).map (ws.length + ·) := by
  induction ws with
  | nil => simp
  | cons d ws ih =>
    have hd : d ∈ d :: ws := List.mem_cons_self
    rw [List.cons_append, restOfLiteral?_cons (ne_of_mem_padding hws hd (.inr (by decide)))
      (ne_of_mem_padding hws hd (.inl (by decide))), if_neg (ne_of_mem_padding hws hd (.inl hq)),
      ih fun x hx => hws x (List.mem_cons_of_mem _ hx), Option.map_map, List.length_cons]
    congr 1
    funext n
    simp only [Function.comp_apply]
    omega

/-- A literal ends at the same place in both texts.  A backslash hides the character after it, and
no blanks are exchanged between the two. -/
theorem exists_cut_restOfLiteral? (hq : isBlank q = false) (hq' : q ≠ '\\')
    (h : Reblanked D s o t t') {n : Nat} (hn : restOfLiteral? q t = some n) :
    ∃ n', restOfLiteral? q t' = some n' ∧ Cut D s o t t' n n' := by
  -- on the length of the text, as a backslash takes two characters at once
  induction hlen : t.length using Nat.strongRecOn generalizing s o t t' n with
  | ind k ih =>
    cases h with
    | nil => cases hn
    | @cons _ _ old new t t' c hstep h =>
      simp only [List.length_append, List.length_cons] at hlen
      obtain ⟨hold, hnew⟩ := hstep.isPadding
      rw [restOfLiteral?_append hq hold] at hn
      obtain ⟨m, hm, rfl⟩ := Option.map_eq_some_iff.1 hn
      rw [restOfLiteral?_append hq hnew]
      by_cases hnewline : c = '\n'
      · rw [hnewline, restOfLiteral?] at hm
        cases hm
      by_cases hbackslash : c = '\\'
      · subst hbackslash
        cases h with
        | nil => simp [restOfLiteral?, Ne.symm hq'] at hm
        | @cons _ _ old' new' t t' c' hstep' h =>
          obtain ⟨rfl, rfl⟩ := hstep'.eq_nil_of_inside
          rw [List.nil_append, restOfLiteral?] at hm
          obtain ⟨i, hi, rfl⟩ := Option.map_eq_some_iff.1 hm
          obtain ⟨i', hi', hcut⟩ := ih t.length (by simp at hlen; omega) h hi rfl
          rw [List.nil_append, restOfLiteral?, hi']
          exact ⟨_, rfl, by simpa using (hcut.cons hstep').cons hstep⟩
      · rw [restOfLiteral?_cons hnewline hbackslash] at hm ⊢
        by_cases hc : c = q
        · rw [if_pos hc] at hm ⊢
          cases hm
          exact ⟨_, rfl, (cut_zero h).cons hstep⟩
        · rw [if_neg hc] at hm ⊢
          obtain ⟨i, hi, rfl⟩ := Option.map_eq_some_iff.1 hm
          obtain ⟨i', hi', hcut⟩ := ih t.length (by omega) h hi rfl
          rw [hi']
          exact ⟨_, rfl, hcut.cons hstep⟩

/-! ### Scans within a line -/

/-- Within a line both texts go on alike. -/
theorem take_eq_and_cut (h : Reblanked D false o t t') {n : Nat} (hn : n ≤ t.length)
    (hline : ∀ d ∈ t.take n, isLineBreak d = false) :
    t'.take n = t.take n ∧ Cut D false o t t' n n := by
  induction n generalizing o t t' with
  | zero => exact ⟨rfl, cut_zero h⟩
  | succ n ih =>
    cases h with
    | nil => simp at hn
    | @cons _ _ old new t t' c hstep h =>
      obtain ⟨rfl, rfl⟩ := hstep.eq_nil_of_inside
      rw [List.nil_append, List.take_succ_cons] at hline
      obtain ⟨hc, hrest⟩ := List.forall_mem_cons.1 hline
      rw [hc] at h
      obtain ⟨htake, hcut⟩ := ih h (Nat.le_of_succ_le_succ hn) hrest
      rw [← hc] at hcut
      refine ⟨?_, by simpa using hcut.cons hstep⟩
      rw [List.nil_append, List.nil_append, List.take_succ_cons, List.take_succ_cons, htake]

/-- No line ends within a word. -/
theorem isLineBreak_of_isWordChar (hc : isWordChar c = true) : isLineBreak c = false :=
  isLineBreak_eq_false_of hc (by decide +kernel)

/-- A word ends at the same place in both texts, and is the same. -/
theorem restOfWord_and_cut (h : Reblanked D false o t t') :
    restOfWord t' = restOfWord t ∧ t'.take (restOfWord t) = t.take (restOfWord t) ∧
      Cut D false o t t' (restOfWord t) (restOfWord t) := by
  have htake : t.take (restOfWord t) = t.takeWhile isWordChar :=
    (List.prefix_iff_eq_take.1 (List.takeWhile_prefix _)).symm
  have hline : ∀ d ∈ t.take (restOfWord t), isLineBreak d = false := by
    intro d hd
    rw [htake] at hd
    exact isLineBreak_of_isWordChar (List.all_eq_true.1 List.all_takeWhile d hd)
  refine ⟨?_, take_eq_and_cut h (List.takeWhile_prefix _).length_le hline⟩
  -- on both texts, as the word ends where the next character is not one of a word
  generalize hs : false = s at h
  clear htake hline
  induction h with
  | nil => rfl
  | @cons s o old new t t' c hstep h ih =>
    subst hs
    obtain ⟨rfl, rfl⟩ := hstep.eq_nil_of_inside
    rw [List.nil_append, List.nil_append, restOfWord, restOfWord]
    by_cases hc : isWordChar c
    · rw [List.takeWhile_cons_of_pos hc, List.takeWhile_cons_of_pos hc, List.length_cons,
        List.length_cons]
      exact congrArg (· + 1) (ih (isLineBreak_of_isWordChar hc).symm)
    · rw [List.takeWhile_cons_of_neg hc, List.takeWhile_cons_of_neg hc]

/-- A number ends at the same place in both texts. -/
theorem restOfNumber_and_cut (h : Reblanked D false o t t') (hex : Bool) (last : Char) :
    restOfNumber hex last t' = restOfNumber hex last t ∧
      Cut D false o t t' (restOfNumber hex last t) (restOfNumber hex last t) := by
  generalize hs : false = s at h
  induction h generalizing last with
  | nil => exact ⟨rfl, cut_zero .nil⟩
  | @cons s o old new t t' c hstep h ih =>
    subst hs
    obtain ⟨rfl, rfl⟩ := hstep.eq_nil_of_inside
    rw [List.nil_append, List.nil_append, restOfNumber, restOfNumber]
    split
    next hc =>
      have hbreak : isLineBreak c = false := by
        refine isLineBreak_eq_false_of
          (p := fun c => c.isAlphanum || c == '_' || c == '.' || c == '+' || c == '-') ?_
          (by decide)
        simp only [Bool.or_eq_true, beq_iff_eq]
        rcases hc with hc | hc | hc | ⟨hc | hc, -⟩ <;> simp [hc]
      obtain ⟨heq, hcut⟩ := ih c hbreak.symm
      refine ⟨congrArg (· + 1) heq, ?_⟩
      have hall := hcut.cons hstep
      rwa [List.nil_append, List.nil_append, List.length_nil, Nat.zero_add] at hall
    next => exact ⟨rfl, cut_zero (.cons hstep h)⟩

/-! ### Punctuation -/

/-- No punctuation has a blank in it. -/
theorem isBlank_of_punctuator? {w : Text} {k : TokenKind}
    (h : TokenKind.punctuator? (String.ofList w) = some k) : ∀ d ∈ w, isBlank d = false := by
  have hall : punctuators.all (fun p => p.1.toList.all (! isBlank ·)) = true := by decide
  simp only [List.all_eq_true, Bool.not_eq_true'] at hall
  obtain ⟨l₁, l₂, heq, -⟩ := List.lookup_eq_some_iff.1 h
  have hmem : (String.ofList w, k) ∈ punctuators := by
    rw [heq]
    exact List.mem_append_right _ List.mem_cons_self
  intro d hd
  exact hall _ hmem d (by rwa [String.toList_ofList])

/-- Both texts open with the same punctuation. -/
theorem scanPunctuator?_eq (h : Reblanked D false o t t') (first : Char) :
    scanPunctuator? first t' = scanPunctuator? first t := by
  have hnone : ∀ (d : Char) (x : Text), isBlank d = true →
      TokenKind.punctuator? (String.ofList (first :: d :: x)) = none := by
    intro d x hd
    rw [Option.eq_none_iff_forall_not_mem]
    intro k hk
    rw [isBlank_of_punctuator? hk d (by simp)] at hd
    cases hd
  cases h with
  | nil => rfl
  | @cons _ _ old new t t' d hstep h =>
    obtain ⟨rfl, rfl⟩ := hstep.eq_nil_of_inside
    by_cases hd : isBlank d
    · -- the punctuation is one character long at most
      simp only [scanPunctuator?, List.findSome?_cons, List.nil_append, List.take_succ_cons,
        List.take_zero, hnone d _ hd, Option.map_none, ite_self, Nat.zero_le, if_true,
        List.findSome?_nil]
    · rw [Bool.not_eq_true] at hd
      rw [isLineBreak_eq_false hd] at h
      cases h with
      | nil => rfl
      | @cons _ _ old' new' t t' e hstep' h =>
        obtain ⟨rfl, rfl⟩ := hstep'.eq_nil_of_inside
        simp [scanPunctuator?, List.findSome?_cons]

theorem cut_scanPunctuator? (h : Reblanked D false o t t') {first : Char} {k : TokenKind} {n : Nat}
    (hk : scanPunctuator? first t = some (k, n)) : Cut D false o t t' n n := by
  obtain ⟨m, -, hm⟩ := List.exists_of_findSome?_eq_some hk
  split at hm
  next hle =>
    obtain ⟨k', hk', heq⟩ := Option.map_eq_some_iff.1 hm
    cases heq
    refine (take_eq_and_cut h hle fun d hd => ?_).2
    exact isLineBreak_eq_false (isBlank_of_punctuator? hk' d (List.mem_cons_of_mem _ hd))
  next => cases hm

/-! ### Pieces of both texts -/

/-- **Both texts begin with a piece of the same class.** -/
theorem scan_reblanked (h : Reblanked D (isLineBreak c) o t t') {k : LexemeClass} {n : Nat}
    (hscan : scan b c t = .ok (k, n)) :
    ∃ n', scan b c t' = .ok (k, n') ∧ Cut D (isLineBreak c) o t t' n n' := by
  rw [scan] at hscan ⊢
  by_cases hnewline : c = '\n'
  · rw [if_pos hnewline] at hscan ⊢
    cases hscan
    exact ⟨0, rfl, cut_zero h⟩
  rw [if_neg hnewline] at hscan ⊢
  by_cases hblank : isBlank c
  · rw [if_pos hblank] at hscan ⊢
    cases hscan
    exact ⟨0, rfl, cut_zero h⟩
  rw [if_neg hblank] at hscan ⊢
  -- from here on the piece has begun, and the next character is in the same line
  rw [isLineBreak_eq_false (Bool.not_eq_true _ ▸ hblank)] at h ⊢
  have hhead : t'.head? = t.head? := h.head?_eq
  rw [hhead]
  by_cases hline : c = '/' ∧ t.head? = some '/'
  · rw [if_pos hline] at hscan ⊢
    cases hscan
    exact ⟨_, rfl, cut_restOfLine h⟩
  rw [if_neg hline] at hscan ⊢
  by_cases hcomment : c = '/' ∧ t.head? = some '*'
  · rw [if_pos hcomment] at hscan ⊢
    cases h with
    | nil => cases hcomment.2
    | @cons _ _ old new t t' star hstep h =>
      obtain ⟨rfl, rfl⟩ := hstep.eq_nil_of_inside
      rw [List.nil_append, List.tail_cons] at hscan ⊢
      split at hscan
      next m hm =>
        cases hscan
        obtain ⟨m', hm', hcut⟩ := exists_cut_restOfComment? h hm
        rw [hm']
        exact ⟨_, rfl, by simpa using hcut.cons hstep⟩
      next => cases hscan
  rw [if_neg hcomment] at hscan ⊢
  by_cases hdirective : c = '#' ∧ b = true
  · rw [if_pos hdirective] at hscan ⊢
    cases hscan
    exact ⟨_, rfl, cut_restOfDirective h c⟩
  rw [if_neg hdirective] at hscan ⊢
  by_cases hstring : c = '\x22'
  · rw [if_pos hstring] at hscan ⊢
    split at hscan
    next m hm =>
      cases hscan
      obtain ⟨m', hm', hcut⟩ := exists_cut_restOfLiteral? (by rw [hstring]; decide)
        (by rw [hstring]; decide) h hm
      rw [hm']
      exact ⟨m', rfl, hcut⟩
    next => cases hscan
  rw [if_neg hstring] at hscan ⊢
  by_cases hchar : c = '\x27'
  · rw [if_pos hchar] at hscan ⊢
    split at hscan
    next m hm =>
      cases hscan
      obtain ⟨m', hm', hcut⟩ := exists_cut_restOfLiteral? (by rw [hchar]; decide)
        (by rw [hchar]; decide) h hm
      rw [hm']
      exact ⟨m', rfl, hcut⟩
    next => cases hscan
  rw [if_neg hchar] at hscan ⊢
  by_cases hnumber : c.isDigit ∨ (c = '.' ∧ t.head?.any Char.isDigit)
  · rw [if_pos hnumber] at hscan ⊢
    have hhex : isHex c t' = isHex c t := by rw [isHex, isHex, hhead]
    obtain ⟨heq, hcut⟩ := restOfNumber_and_cut h (isHex c t) c
    cases hscan
    rw [hhex, heq]
    exact ⟨_, rfl, hcut⟩
  rw [if_neg hnumber] at hscan ⊢
  by_cases hword : c = '_' ∨ isLetter c
  · rw [if_pos hword] at hscan ⊢
    obtain ⟨heq, htake, hcut⟩ := restOfWord_and_cut h
    cases hscan
    dsimp only
    rw [heq, htake]
    exact ⟨_, rfl, hcut⟩
  rw [if_neg hword] at hscan ⊢
  rw [scanPunctuator?_eq h]
  split at hscan
  next kind m hm =>
    cases hscan
    exact ⟨_, rfl, cut_scanPunctuator? h hm⟩
  next => cases hscan

end Lexeme

/-! ### Tokens of both texts -/

/-- A token in another text: it has the same kind, and the same spelling unless blanks are exchanged
within it. -/
def Token.Keeps (D : Nat → Prop) (tok tok' : Token) : Prop :=
  tok'.kind = tok.kind ∧
    (tok'.spelling = tok.spelling ↔ ∀ d, D d → ¬tok.span.StrictlyHolds d)

theorem Token.map_kind_eq {D : Nat → Prop} {ts ts' : List Token}
    (h : List.Forall₂ (Token.Keeps D) ts ts') : ts'.map Token.kind = ts.map Token.kind := by
  induction h with
  | nil => rfl
  | cons htok _ ih => rw [List.map_cons, List.map_cons, htok.1, ih]

theorem Token.map_spelling_eq_iff {D : Nat → Prop} {ts ts' : List Token}
    (h : List.Forall₂ (Token.Keeps D) ts ts') : ts'.map Token.spelling = ts.map Token.spelling ↔
      ∀ tok ∈ ts, ∀ d, D d → ¬tok.span.StrictlyHolds d := by
  induction h with
  | nil => simp
  | cons htok _ ih => rw [List.map_cons, List.map_cons, List.cons.injEq, htok.2, ih,
      List.forall_mem_cons]

namespace Lexeme

variable {D : Nat → Prop} {s b : Bool} {o : Nat} {t t' ws : Text} {c : Char} {ts : List Token}

/-- The tokens of a text that lies at an offset. -/
def tokensFrom (b : Bool) (o : Nat) (t : Text) : Except SyntaxError (List Token) :=
  (splitFrom b o t).map fun ls => ls.filterMap token?

theorem tokensFrom_nil : tokensFrom b o [] = .ok [] := by
  rw [tokensFrom, splitFrom]
  rfl

/-- The tokens of a text whose first piece is known. -/
theorem tokensFrom_cons {k : LexemeClass} {n : Nat} (hscan : scan b c t = .ok (k, n)) :
    tokensFrom b o (c :: t) =
      (tokensFrom (lineStartAfter b k) (o + (c :: t.take n).length) (t.drop n)).map fun ts =>
        (token? ⟨k, o, c :: t.take n⟩).toList ++ ts := by
  rw [tokensFrom, tokensFrom, splitFrom, hscan]
  dsimp only
  cases splitFrom (lineStartAfter b k) (o + (c :: t.take n).length) (t.drop n) with
  | error e => rfl
  | ok ls =>
    simp only [Except.map, List.filterMap_cons]
    cases token? ⟨k, o, c :: t.take n⟩ <;> rfl

/-- A text that has tokens begins with a piece. -/
theorem exists_scan_eq_ok (h : tokensFrom b o (c :: t) = .ok ts) :
    ∃ k n, scan b c t = .ok (k, n) := by
  rw [tokensFrom, splitFrom] at h
  cases hscan : scan b c t with
  | error e =>
    rw [hscan] at h
    cases e <;> cases h
  | ok p => exact ⟨p.1, p.2, rfl⟩

/-- Blanks before a text add no tokens to it. -/
theorem tokensFrom_append (hws : IsPadding ws) :
    tokensFrom b o (ws ++ t) = tokensFrom b (o + ws.length) t := by
  induction ws generalizing o with
  | nil => rfl
  | cons d ws ih =>
    have hnewline : d ≠ '\n' := ne_of_mem_padding hws List.mem_cons_self (.inr (by decide))
    have hblank : isBlank d = true := (hws d List.mem_cons_self).1
    have hscan : scan b d (ws ++ t) = .ok (.blank, 0) := by
      rw [scan, if_neg hnewline, if_pos hblank]
    rw [List.cons_append, tokensFrom_cons hscan, List.drop_zero,
      show lineStartAfter b .blank = b from rfl, ih fun x hx => hws x (List.mem_cons_of_mem _ hx)]
    have hlength : o + (d :: (ws ++ t).take 0).length + ws.length = o + (d :: ws).length := by
      simp only [List.take_zero, List.length_cons, List.length_nil]
      omega
    rw [hlength]
    cases tokensFrom b (o + (d :: ws).length) t <;> rfl

/-- **Both texts have the same tokens, up to blanks within them.** -/
theorem forall₂_tokensFrom (h : Reblanked D s o t t') (hts : tokensFrom b o t = .ok ts) (o' : Nat) :
    ∃ ts', tokensFrom b o' t' = .ok ts' ∧ List.Forall₂ (Token.Keeps D) ts ts' := by
  -- on the length of the text, which is split piece by piece
  induction hlen : t.length using Nat.strongRecOn generalizing s b o t t' ts o' with
  | ind len ih =>
    cases h with
    | nil =>
      rw [tokensFrom_nil] at hts
      cases hts
      exact ⟨[], tokensFrom_nil, .nil⟩
    | @cons _ _ old new t t' c hstep h =>
      obtain ⟨hold, hnew⟩ := hstep.isPadding
      rw [tokensFrom_append hold] at hts
      obtain ⟨k, n, hscan⟩ := exists_scan_eq_ok hts
      obtain ⟨n', hscan', hcut⟩ := scan_reblanked h hscan
      obtain ⟨s', hback⟩ := hcut.back
      have hlength : o + old.length + (c :: t.take n).length = o + old.length + 1 + n := by
        rw [List.length_cons, List.length_take_of_le hcut.le]
        omega
      rw [tokensFrom_cons hscan, hlength] at hts
      rw [tokensFrom_append hnew, tokensFrom_cons hscan']
      cases hrest : tokensFrom (lineStartAfter b k) (o + old.length + 1 + n) (t.drop n) with
      | error e =>
        rw [hrest] at hts
        cases hts
      | ok rest =>
        rw [hrest] at hts
        cases hts
        obtain ⟨rest', hrest', hforall⟩ := ih (t.drop n).length (by simp at hlen ⊢; omega) hback
          hrest (o' + new.length + (c :: t'.take n').length) rfl
        rw [hrest']
        refine ⟨_, rfl, ?_⟩
        cases k with
        | token kind =>
          refine .cons ⟨rfl, ?_⟩ hforall
          -- the first character is the same, and blanks are exchanged only behind it
          rw [String.ofList_inj, List.cons.injEq, hcut.front.eq_iff]
          simp only [true_and, Span.StrictlyHolds, List.length_cons]
          refine forall_congr' fun d => imp_congr_right fun _ => not_congr ?_
          omega
        | newline => exact hforall
        | blank => exact hforall
        | comment => exact hforall
        | directive => exact hforall

end Lexeme

/-! ### Tokens of lexed texts -/

theorem Lexed.tokensFrom_of_ofText {t : Text} {L : Lexed} (h : Lexed.ofText t = .ok L) :
    Lexeme.tokensFrom true 0 t = .ok L.tokens := by
  rw [ofText, Lexeme.split] at h
  rw [Lexeme.tokensFrom]
  split at h
  next ls hls =>
    cases h
    rw [hls]
    rfl
  next => cases h

theorem Lexed.exists_ofText_of_tokensFrom {t : Text} {ts : List Token}
    (h : Lexeme.tokensFrom true 0 t = .ok ts) :
    ∃ L, Lexed.ofText t = .ok L ∧ L.tokens = ts := by
  rw [Lexeme.tokensFrom] at h
  rw [ofText, Lexeme.split]
  cases hls : Lexeme.splitFrom true 0 t with
  | error e =>
    rw [hls] at h
    cases h
  | ok ls =>
    rw [hls] at h
    cases h
    exact ⟨_, rfl, rfl⟩

namespace Draft

/-- **Giving lines their indentation keeps the tokens of a text, up to blanks within them.**  Their
kinds stay.  Their spellings stay just when no line that changes starts within a token: such a line
begins inside a literal, whose blanks belong to it. -/
theorem tokens_reindent? (indenter style : IndentStyle) (d : Draft) {lines : List Nat}
    (hlines : lines.Pairwise (· ≤ ·)) {L : Lexed} (hL : Lexed.ofText d.text = .ok L) :
    ∃ d' cs L', d.reindent? indenter style lines = (d', .ok cs) ∧ Lexed.ofText d'.text = .ok L' ∧
      L'.tokens.map Token.kind = L.tokens.map Token.kind ∧
      (L'.tokens.map Token.spelling = L.tokens.map Token.spelling ↔
        ∀ c ∈ cs, ∀ tok ∈ L.tokens, ¬tok.span.StrictlyHolds (Text.lineStart d.text c.line)) := by
  have hreblanked := reblanked_reindent indenter style d hlines
  obtain ⟨ts', hts', hforall⟩ :=
    Lexeme.forall₂_tokensFrom hreblanked (Lexed.tokensFrom_of_ofText hL) 0
  obtain ⟨L', hL', rfl⟩ := Lexed.exists_ofText_of_tokensFrom hts'
  refine ⟨_, _, L', reindent?_eq_reindent indenter style d lines, hL',
    Token.map_kind_eq hforall, ?_⟩
  rw [Token.map_spelling_eq_iff hforall]
  constructor
  · intro hkeeps c hc tok htok
    exact hkeeps tok htok _ ⟨c, hc, rfl⟩
  · rintro hkeeps tok htok _ ⟨c, hc, rfl⟩
    exact hkeeps c hc tok htok

/-- A line of a block is indented, and its tokens are spelled as before. -/
theorem tokens_reindent?_of_block :
    ∃ d' cs L', (ofDocument (.open "a.c" "if (a)\n  b;".toList)).reindent? {} {} [0, 1]
        = (d', .ok cs) ∧ cs = [⟨1, 7, 2, 4⟩] ∧ Lexed.ofText d'.text = .ok L' ∧
      L'.tokens.map Token.kind
        = [.kwIf, .lParen, .identifier, .rParen, .identifier, .semicolon] ∧
      L'.tokens.map Token.spelling = ["if", "(", "a", ")", "b", ";"] := by
  have hL : Lexed.ofText "if (a)\n  b;".toList = .ok
      { tokens := [⟨.kwIf, ⟨0, 2⟩, "if"⟩, ⟨.lParen, ⟨3, 4⟩, "("⟩, ⟨.identifier, ⟨4, 5⟩, "a"⟩,
          ⟨.rParen, ⟨5, 6⟩, ")"⟩, ⟨.identifier, ⟨9, 10⟩, "b"⟩, ⟨.semicolon, ⟨10, 11⟩, ";"⟩]
        includes := [] } := by
    decide +kernel
  obtain ⟨d', cs, L', hrun, hL', hkinds, hspellings⟩ := tokens_reindent? {} {}
    (ofDocument (.open "a.c" "if (a)\n  b;".toList)) (show [0, 1].Pairwise (· ≤ ·) by decide) hL
  have hchanges : cs = [⟨1, 7, 2, 4⟩] := by
    rw [reindent?_eq_reindent] at hrun
    cases hrun
    decide +kernel
  refine ⟨d', cs, L', hrun, hchanges, hL', hkinds, hspellings.2 ?_⟩
  rw [hchanges]
  decide +kernel

/-- A literal goes on in the next line, which is given other blanks: they are blanks of the
literal. -/
theorem exists_spelling_changed :
    ∃ d' cs L L', (ofDocument (.open "a.cpp" "x = \"a\\\n  b\";".toList)).reindent? {} {} [1]
        = (d', .ok cs) ∧ Lexed.ofText "x = \"a\\\n  b\";".toList = .ok L ∧
      Lexed.ofText d'.text = .ok L' ∧
      L'.tokens.map Token.spelling ≠ L.tokens.map Token.spelling := by
  obtain ⟨d', cs, hrun, htext⟩ := exists_reindent?_eq {} {}
    (ofDocument (.open "a.cpp" "x = \"a\\\n  b\";".toList)) [1]
  have hafter : d'.text = "x = \"a\\\nb\";".toList := by
    rw [htext]
    decide +kernel
  refine ⟨d', cs, ⟨[⟨.identifier, ⟨0, 1⟩, "x"⟩, ⟨.equal, ⟨2, 3⟩, "="⟩,
    ⟨.stringLiteral, ⟨4, 12⟩, "\"a\\\n  b\""⟩, ⟨.semicolon, ⟨12, 13⟩, ";"⟩], []⟩,
    ⟨[⟨.identifier, ⟨0, 1⟩, "x"⟩, ⟨.equal, ⟨2, 3⟩, "="⟩,
      ⟨.stringLiteral, ⟨4, 10⟩, "\"a\\\nb\""⟩, ⟨.semicolon, ⟨10, 11⟩, ";"⟩], []⟩, hrun, ?_, ?_, ?_⟩
  · decide +kernel
  · rw [hafter]
    decide +kernel
  · decide

end Draft

end Mend
