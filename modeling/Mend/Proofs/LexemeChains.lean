import Mend.Proofs.ReadingEnds
import Mend.Proofs.ReblankedTokens

/-!
# What may follow a piece of a text

The lexer takes the longest piece that it can, so what comes after a piece decides where it ends.  A
piece stays as it is when other text comes after it, as long as that text cannot go on with it.  It
cannot when it begins with a character that goes on with no token at all, such as a blank or a
parenthesis.  And there are pieces that nothing goes on with: blanks, block comments, and tokens
made of one such character.

A text is a chain of pieces.  It can be cut where a token begins or ends, its parts can be put
together with other ones, and then they fall into the same pieces as before.

## Main definitions

* `goesOn`, `IsSealed` — a character that goes on with the characters of a token, and a text that
  does not begin with one.
* `MayFollow` — a text that can stand where another one stood.
* `Scrap`, `Scrap.Chain` — a piece without its place, and the pieces that the lexer finds.

## Main results

* `Lexeme.scan_congr` — a token is found again when something else may follow it.
* `Scrap.Chain.congr` — **the same pieces are found with something else after them.**
* `Scrap.exists_chain_of_ofText`, `Scrap.Chain.exists_ofText` — a text that has tokens is a chain of
  pieces, and a chain of pieces is a text that has their tokens.
-/

namespace Mend

/-! ### Characters that end a token -/

/-- A character that could come after the first characters of some token other than a literal in
quotation marks, or make a comment of what stands before it. -/
def goesOn (w : Text) (c : Char) : Bool :=
  isWordChar c || c.isAlphanum || ['.', '+', '-', '/', '*'].contains c ||
    punctuators.any fun p => (w ++ [c]).isPrefixOf p.1.toList

/-- A text that begins with no character that goes on with a token. -/
def IsSealed (w t : Text) : Prop := ∀ c ∈ t.head?, goesOn w c = false

/-- A text can stand where another one stood after the given characters of a token, as far as
someone can tell who looks at `n` characters at most. -/
inductive MayFollow : Text → Nat → Text → Text → Prop
  /-- No one looks. -/
  | zero (w r r' : Text) : MayFollow w 0 r r'
  /-- Both texts end. -/
  | nil (w : Text) (n : Nat) : MayFollow w n [] []
  /-- The next character is the same. -/
  | cons {w : Text} {n : Nat} {r r' : Text} (c : Char) (rest : MayFollow (w ++ [c]) n r r') :
    MayFollow w (n + 1) (c :: r) (c :: r')
  /-- The next character goes on with no token. -/
  | sealed {w : Text} {n : Nat} {r r' : Text} (h : IsSealed w r') : MayFollow w n r r'

/-- Punctuation goes on with no token that it could not be a part of. -/
theorem goesOn_eq_false {w : Text} {d : Char}
    (hd : (isWordChar d || d.isAlphanum || ['.', '+', '-', '/', '*'].contains d) = false)
    (h : ∀ p ∈ punctuators, ¬w ++ [d] <+: p.1.toList) : goesOn w d = false := by
  rw [goesOn, hd, Bool.false_or, List.any_eq_false]
  exact fun p hp hprefix => h p hp (List.isPrefixOf_iff_prefix.1 hprefix)

/-- Punctuation that comes first only goes on with no token. -/
theorem goesOn_of_tail {w : Text} {d : Char} (hw : w ≠ [])
    (hd : (isWordChar d || d.isAlphanum || ['.', '+', '-', '/', '*'].contains d) = false)
    (htail : punctuators.all (fun p => !p.1.toList.tail.contains d) = true) :
    goesOn w d = false := by
  refine goesOn_eq_false hd fun p hp hprefix => ?_
  obtain ⟨c, w, rfl⟩ := List.exists_cons_of_ne_nil hw
  obtain ⟨v, hv⟩ := hprefix
  have hnone := List.all_eq_true.1 htail p hp
  rw [← hv] at hnone
  simp at hnone

namespace MayFollow

variable {n m : Nat} {w r r' : Text}

theorem mono (h : MayFollow w n r r') (hmn : m ≤ n) : MayFollow w m r r' := by
  induction h generalizing m with
  | zero => obtain rfl := Nat.le_zero.1 hmn; exact .zero _ _ _
  | nil => exact .nil _ m
  | cons c _ ih =>
    cases m with
    | zero => exact .zero _ _ _
    | succ m => exact .cons c (ih (Nat.le_of_succ_le_succ hmn))
  | sealed h => exact .sealed h

/-- After some text one sees more than one character of a piece when one comes to what follows. -/
theorem append (h : ∀ w : Text, 2 ≤ w.length → MayFollow w 2 r r') {u : Text} (hw : w ≠ [])
    (hu : u ≠ []) : MayFollow w 2 (u ++ r) (u ++ r') := by
  match u with
  | [] => exact absurd rfl hu
  | [c] =>
    have hlength := List.length_pos_iff.2 hw
    exact .cons c ((h (w ++ [c]) (by simp; omega)).mono (by omega))
  | c :: d :: u => exact .cons c (.cons d (.zero _ _ _))

/-- What one sees first is the same, or goes on with no token. -/
theorem head? (h : MayFollow w (n + 1) r r') : r'.head? = r.head? ∨ IsSealed w r' := by
  cases h with
  | nil | cons => exact .inl rfl
  | sealed h => exact .inr h

/-- What one sees is the same, or there is a character in it that goes on with no token. -/
theorem take (h : MayFollow w n r r') (hm : m ≤ n) (hlength : m ≤ r'.length) :
    (r'.take m = r.take m ∧ m ≤ r.length) ∨
      ∃ v c v', r'.take m = v ++ c :: v' ∧ goesOn (w ++ v) c = false := by
  induction h generalizing m with
  | zero =>
    obtain rfl := Nat.le_zero.1 hm
    exact .inl ⟨rfl, Nat.zero_le _⟩
  | nil => exact .inl ⟨rfl, hlength⟩
  | @cons w _ _ _ c _ ih =>
    cases m with
    | zero => exact .inl ⟨rfl, Nat.zero_le _⟩
    | succ m =>
      rcases ih (Nat.le_of_succ_le_succ hm) (Nat.le_of_succ_le_succ hlength) with
        ⟨htake, hle⟩ | ⟨v, d, v', htake, hseal⟩
      · exact .inl ⟨by rw [List.take_succ_cons, List.take_succ_cons, htake],
          Nat.succ_le_succ hle⟩
      · refine .inr ⟨c :: v, d, v', by rw [List.take_succ_cons, htake]; rfl, ?_⟩
        rwa [List.append_assoc] at hseal
  | @sealed w n r r' h =>
    cases m with
    | zero => exact .inl ⟨rfl, Nat.zero_le _⟩
    | succ m =>
      cases r' with
      | nil => simp at hlength
      | cons c r' => exact .inr ⟨[], c, r'.take m, rfl, by simpa using h c rfl⟩

end MayFollow

/-! ### Scans -/

namespace Lexeme

variable {b hex : Bool} {c last q : Char} {u w r r' t : Text} {n : Nat} {k : TokenKind}

/-- A line goes on as far as before when the same character ends it. -/
theorem restOfLine_congr (h : restOfLine (u ++ r) = u.length) (hhead : r'.head? = r.head?) :
    restOfLine (u ++ r') = u.length := by
  induction u with
  | nil =>
    cases r with
    | nil =>
      rw [List.head?_nil, List.head?_eq_none_iff] at hhead
      rw [hhead]
      rfl
    | cons d r =>
      obtain ⟨r', rfl⟩ := List.head?_eq_some_iff.1 hhead
      rw [List.nil_append, restOfLine_cons] at h ⊢
      split at h
      next hd => rw [if_pos hd, List.length_nil]
      next => cases h
  | cons d u ih =>
    rw [List.cons_append, restOfLine_cons] at h ⊢
    split at h
    next => cases h
    next hd => rw [if_neg hd, ih (Nat.succ.inj h), List.length_cons]

theorem restOfComment?_ne_zero : restOfComment? t ≠ some 0 := by
  intro h
  cases t with
  | nil => cases h
  | cons d t =>
    rw [restOfComment?_cons] at h
    split at h
    next => cases h
    next =>
      obtain ⟨n, -, hn⟩ := Option.map_eq_some_iff.1 h
      cases hn

/-- The end of a comment is a part of it, so nothing after it counts. -/
theorem restOfComment?_congr (h : restOfComment? (u ++ r) = some u.length) :
    restOfComment? (u ++ r') = some u.length := by
  induction u with
  | nil => exact absurd h restOfComment?_ne_zero
  | cons d u ih =>
    rw [List.cons_append, restOfComment?_cons] at h ⊢
    split at h
    next hend =>
      -- the comment ends within `u`
      cases u with
      | nil => cases h
      | cons d' u =>
        obtain rfl : u = [] := List.eq_nil_of_length_eq_zero (by
          have := Option.some.inj h
          simp only [List.length_cons] at this
          omega)
        exact if_pos hend
    next hend =>
      obtain ⟨n, hn, hlength⟩ := Option.map_eq_some_iff.1 h
      obtain rfl : n = u.length := Nat.succ.inj hlength
      have hne : u ≠ [] := by
        rintro rfl
        exact restOfComment?_ne_zero hn
      rw [List.head?_append_of_ne_nil _ hne] at hend ⊢
      rw [if_neg hend, ih hn]
      rfl

/-- A line ends at a newline. -/
theorem eq_newline_of_restOfLine {d : Char} (h : restOfLine (u ++ d :: r) = u.length) :
    d = '\n' := by
  induction u with
  | nil =>
    rw [List.nil_append, restOfLine_cons] at h
    split at h
    next hd => exact hd
    next => cases h
  | cons e u ih =>
    rw [List.cons_append, restOfLine_cons] at h
    split at h
    next => cases h
    next => exact ih (Nat.succ.inj h)

/-- A directive ends at a newline. -/
theorem eq_newline_of_restOfDirective {d : Char}
    (h : restOfDirective last (u ++ d :: r) = u.length) : d = '\n' := by
  induction u generalizing last with
  | nil =>
    rw [List.nil_append, restOfDirective] at h
    split at h
    next hd => exact hd.1
    next => cases h
  | cons e u ih =>
    rw [List.cons_append, restOfDirective] at h
    split at h
    next => cases h
    next => exact ih (Nat.succ.inj h)

/-- A directive goes on as far as before when the same character ends it. -/
theorem restOfDirective_congr (h : restOfDirective last (u ++ r) = u.length)
    (hhead : r'.head? = r.head?) : restOfDirective last (u ++ r') = u.length := by
  induction u generalizing last with
  | nil =>
    cases r with
    | nil =>
      rw [List.head?_nil, List.head?_eq_none_iff] at hhead
      rw [hhead]
      rfl
    | cons d r =>
      obtain ⟨r', rfl⟩ := List.head?_eq_some_iff.1 hhead
      rw [List.nil_append, restOfDirective] at h ⊢
      split at h
      next hd => rw [if_pos hd, List.length_nil]
      next => cases h
  | cons d u ih =>
    rw [List.cons_append, restOfDirective] at h ⊢
    split at h
    next => cases h
    next hd => rw [if_neg hd, ih (Nat.succ.inj h), List.length_cons]

theorem restOfLiteral?_ne_zero : restOfLiteral? q t ≠ some 0 := by
  intro h
  unfold restOfLiteral? at h
  split at h
  case h_1 | h_2 => cases h
  case h_3 =>
    obtain ⟨n, -, hn⟩ := Option.map_eq_some_iff.1 h
    cases hn
  case h_4 =>
    split at h
    · cases h
    · obtain ⟨n, -, hn⟩ := Option.map_eq_some_iff.1 h
      cases hn

/-- The quotation mark that ends a literal is a part of it, so nothing after it counts. -/
theorem restOfLiteral?_congr (hq : q ≠ '\\') (h : restOfLiteral? q (u ++ r) = some u.length) :
    restOfLiteral? q (u ++ r') = some u.length := by
  -- on the length, as a backslash takes two characters at once
  induction hlen : u.length using Nat.strongRecOn generalizing u with
  | ind k ih =>
    subst hlen
    cases u with
    | nil => exact absurd h restOfLiteral?_ne_zero
    | cons d u =>
      by_cases hnewline : d = '\n'
      · rw [hnewline, List.cons_append, restOfLiteral?] at h
        cases h
      by_cases hbackslash : d = '\\'
      · subst hbackslash
        cases u with
        | nil =>
          cases r with
          | nil => simp [restOfLiteral?, Ne.symm hq] at h
          | cons d' r =>
            rw [List.cons_append, List.nil_append, restOfLiteral?] at h
            obtain ⟨n, -, hn⟩ := Option.map_eq_some_iff.1 h
            cases hn
        | cons d' u =>
          rw [List.cons_append, List.cons_append, restOfLiteral?] at h ⊢
          obtain ⟨n, hn, hlength⟩ := Option.map_eq_some_iff.1 h
          obtain rfl : n = u.length := Nat.succ.inj (Nat.succ.inj hlength)
          rw [ih u.length (Nat.lt_succ_of_lt (Nat.lt_succ_self _)) hn rfl]
          rfl
      · rw [List.cons_append, restOfLiteral?_cons hnewline hbackslash] at h ⊢
        split at h
        next hd =>
          rw [if_pos hd]
          exact h
        next hd =>
          obtain ⟨n, hn, hlength⟩ := Option.map_eq_some_iff.1 h
          obtain rfl : n = u.length := Nat.succ.inj hlength
          rw [if_neg hd, ih u.length (by simp) hn rfl]
          rfl

/-- No number goes on with a character that goes on with no token. -/
theorem restOfNumber_of_isSealed (h : IsSealed w t) : restOfNumber hex last t = 0 := by
  cases t with
  | nil => rfl
  | cons d t =>
    have hd := h d rfl
    simp only [goesOn, Bool.or_eq_false_iff] at hd
    obtain ⟨⟨⟨hword, halnum⟩, hsign⟩, -⟩ := hd
    simp only [isWordChar, Bool.or_eq_false_iff, beq_eq_false_iff_ne] at hword
    simp at hsign
    rw [restOfNumber, if_neg]
    simp [halnum, hword.2, hsign]

/-- A number goes on as far as before when nothing may go on with it. -/
theorem restOfNumber_congr (h : restOfNumber hex last (u ++ r) = u.length)
    (hr : MayFollow w (n + 1) r r') : restOfNumber hex last (u ++ r') = u.length := by
  induction u generalizing last with
  | nil =>
    rcases hr.head? with hhead | hseal
    · cases r with
      | nil =>
        rw [List.head?_nil, List.head?_eq_none_iff] at hhead
        rw [hhead]
        rfl
      | cons d r =>
        obtain ⟨r', rfl⟩ := List.head?_eq_some_iff.1 hhead
        rw [List.nil_append, restOfNumber] at h ⊢
        split at h
        next => cases h
        next hd => rw [if_neg hd, List.length_nil]
    · exact restOfNumber_of_isSealed hseal
  | cons d u ih =>
    rw [List.cons_append, restOfNumber] at h ⊢
    split at h
    next hd => rw [if_pos hd, ih (Nat.succ.inj h), List.length_cons]
    next => cases h

/-- A word goes on as far as before when nothing may go on with it. -/
theorem restOfWord_congr (h : restOfWord (u ++ r) = u.length) (hr : MayFollow w (n + 1) r r') :
    restOfWord (u ++ r') = u.length := by
  induction u with
  | nil =>
    cases r' with
    | nil => rfl
    | cons d r' =>
      have hd : ¬isWordChar d = true := by
        rcases hr.head? with hhead | hseal
        · obtain ⟨r, rfl⟩ := List.head?_eq_some_iff.1 hhead.symm
          intro hd
          rw [List.nil_append, restOfWord, List.takeWhile_cons_of_pos hd] at h
          cases h
        · have hd := hseal d rfl
          simp only [goesOn, Bool.or_eq_false_iff] at hd
          simp [hd.1.1.1]
      rw [List.nil_append, restOfWord, List.takeWhile_cons_of_neg hd]
  | cons d u ih =>
    rw [List.cons_append, restOfWord] at h ⊢
    by_cases hd : isWordChar d
    · rw [List.takeWhile_cons_of_pos hd] at h ⊢
      rw [List.length_cons, ← restOfWord, ih (Nat.succ.inj h), List.length_cons]
    · rw [List.takeWhile_cons_of_neg hd] at h
      cases h

theorem exists_mem_punctuators {w : Text} (h : TokenKind.punctuator? (String.ofList w) = some k) :
    ∃ p ∈ punctuators, p.1.toList = w := by
  obtain ⟨l₁, l₂, heq, -⟩ := List.lookup_eq_some_iff.1 h
  refine ⟨(String.ofList w, k), ?_, String.toList_ofList⟩
  rw [heq]
  exact List.mem_append_right _ List.mem_cons_self

/-- No punctuation goes on with a character that goes on with no token. -/
theorem punctuator?_eq_none {v : Text} {d : Char} (h : goesOn w d = false) :
    TokenKind.punctuator? (String.ofList (w ++ d :: v)) = none := by
  rw [Option.eq_none_iff_forall_not_mem]
  intro k hk
  obtain ⟨p, hp, hw⟩ := exists_mem_punctuators hk
  simp only [goesOn, Bool.or_eq_false_iff] at h
  refine List.any_eq_false.1 h.2 p hp (List.isPrefixOf_iff_prefix.2 ?_)
  rw [hw]
  exact ⟨v, by simp⟩

/-- The same punctuation is found when nothing may go on with it. -/
theorem scanPunctuator?_congr (h : scanPunctuator? c (u ++ r) = some (k, u.length))
    (hr : MayFollow (c :: u) 2 r r') : scanPunctuator? c (u ++ r') = some (k, u.length) := by
  rw [scanPunctuator?, List.findSome?_eq_some_iff] at h ⊢
  obtain ⟨longer, n, shorter, hsplit, hfound, hnone⟩ := h
  have hn : ∀ m, m ∈ longer ∨ m = n → m ≤ 2 := by
    intro m hm
    have hmem : m ∈ [2, 1, 0] := by
      rw [hsplit]
      rcases hm with hm | rfl
      · exact List.mem_append_left _ hm
      · exact List.mem_append_right _ List.mem_cons_self
    simp only [List.mem_cons, List.not_mem_nil, or_false] at hmem
    omega
  refine ⟨longer, n, shorter, hsplit, ?_, fun m hm => ?_⟩
  · obtain ⟨k', hk', hpair⟩ := Option.map_eq_some_iff.1 (Option.ite_none_right_eq_some.1 hfound).2
    cases hpair
    rw [if_pos (by simp)]
    rw [List.take_left] at hk' ⊢
    rw [hk']
    rfl
  · -- a longer one would have to begin the same way
    have hm2 := hn m (.inl hm)
    have hm' := hnone m hm
    split
    next hle =>
      rw [Option.map_eq_none_iff]
      rw [List.length_append] at hle
      rw [List.take_append]
      rcases hr.take (m := m - u.length) (by omega) (by omega) with
        ⟨htake, hle'⟩ | ⟨v, d, v', htake, hseal⟩
      · rw [htake, ← List.take_append]
        split at hm'
        next => exact Option.map_eq_none_iff.1 hm'
        next hlt =>
          refine absurd ?_ hlt
          rw [List.length_append]
          omega
      · rcases Nat.le_total u.length m with hu | hu
        · have hnone := punctuator?_eq_none (v := v') hseal
          rw [List.take_of_length_le hu, htake]
          simpa using hnone
        · rw [Nat.sub_eq_zero_of_le hu, List.take_zero] at htake
          cases v <;> cases htake
    next => rfl

/-- What the first character of a piece is followed by is the same, or goes on with no token. -/
theorem head?_append (hr : MayFollow (c :: u) (n + 1) r r') :
    (u ++ r').head? = (u ++ r).head? ∨ IsSealed (c :: u) (u ++ r') := by
  cases u with
  | nil => exact hr.head?
  | cons d u => exact .inl rfl

/-- **A token is found again when something else may follow it.** -/
theorem scan_congr (h : scan b c (u ++ r) = .ok (.token k, u.length))
    (hr : MayFollow (c :: u) 2 r r') :
    scan b c (u ++ r') = .ok (.token k, u.length) := by
  have hhead := head?_append (u := u) hr
  have hsecond (d : Char) (hd : goesOn (c :: u) d = true) :
      (u ++ r').head? = some d → (u ++ r).head? = some d := by
    intro h'
    rcases hhead with hhead | hseal
    · exact hhead ▸ h'
    · rw [hseal d h'] at hd
      cases hd
  rw [scan] at h ⊢
  by_cases hnewline : c = '\n'
  · rw [if_pos hnewline] at h
    cases h
  rw [if_neg hnewline] at h ⊢
  by_cases hblank : isBlank c
  · rw [if_pos hblank] at h
    cases h
  rw [if_neg hblank] at h ⊢
  by_cases hline : c = '/' ∧ (u ++ r).head? = some '/'
  · rw [if_pos hline] at h
    cases h
  rw [if_neg hline] at h
  rw [if_neg fun h' => hline ⟨h'.1, hsecond '/' (by simp [goesOn]) h'.2⟩]
  by_cases hcomment : c = '/' ∧ (u ++ r).head? = some '*'
  · rw [if_pos hcomment] at h
    split at h <;> cases h
  rw [if_neg hcomment] at h
  rw [if_neg fun h' => hcomment ⟨h'.1, hsecond '*' (by simp [goesOn]) h'.2⟩]
  by_cases hdirective : c = '#' ∧ b = true
  · rw [if_pos hdirective] at h
    cases h
  rw [if_neg hdirective] at h ⊢
  by_cases hstring : c = '\x22'
  · rw [if_pos hstring] at h ⊢
    split at h
    next m hm =>
      cases h
      rw [restOfLiteral?_congr (by rw [hstring]; decide) hm]
    next => cases h
  rw [if_neg hstring] at h ⊢
  by_cases hchar : c = '\x27'
  · rw [if_pos hchar] at h ⊢
    split at h
    next m hm =>
      cases h
      rw [restOfLiteral?_congr (by rw [hchar]; decide) hm]
    next => cases h
  rw [if_neg hchar] at h ⊢
  have hdigit : ∀ d : Char, d.isDigit = true → goesOn (c :: u) d = true := by
    intro d hd
    simp [goesOn, Char.isAlphanum, hd]
  by_cases hnumber : c.isDigit ∨ (c = '.' ∧ (u ++ r).head?.any Char.isDigit)
  · rw [if_pos hnumber] at h
    obtain ⟨rfl, hlength⟩ :
        k = .numericLiteral ∧ restOfNumber (isHex c (u ++ r)) c (u ++ r) = u.length := by
      simpa [eq_comm] using h
    have hnumber' : c.isDigit ∨ (c = '.' ∧ (u ++ r').head?.any Char.isDigit) := by
      refine hnumber.imp_right fun hpoint => ⟨hpoint.1, ?_⟩
      -- a digit after the point belongs to the number
      cases u with
      | cons d u => exact hpoint.2
      | nil =>
        obtain ⟨d, hd, hdig⟩ := (Option.any_eq_true _ _).1 hpoint.2
        obtain ⟨r, rfl⟩ := List.head?_eq_some_iff.1 hd
        simp [restOfNumber, Char.isAlphanum, hdig] at hlength
    rw [if_pos hnumber']
    have hagain : restOfNumber (isHex c (u ++ r')) c (u ++ r') = u.length := by
      rcases hhead with hhead | hseal
      · have hhex : isHex c (u ++ r') = isHex c (u ++ r) := by rw [isHex, isHex, hhead]
        rw [hhex]
        exact restOfNumber_congr hlength hr
      · have hzero := restOfNumber_congr hlength hr
        rw [restOfNumber_of_isSealed hseal] at hzero ⊢
        exact hzero
    rw [hagain]
  rw [if_neg hnumber] at h
  have hnumber' : ¬(c.isDigit ∨ (c = '.' ∧ (u ++ r').head?.any Char.isDigit)) := by
    refine fun h' => hnumber (h'.imp_right fun hpoint => ⟨hpoint.1, ?_⟩)
    obtain ⟨d, hd, hdig⟩ := (Option.any_eq_true _ _).1 hpoint.2
    rw [hsecond d (hdigit d hdig) hd]
    exact hdig
  rw [if_neg hnumber']
  by_cases hword : c = '_' ∨ isLetter c
  · rw [if_pos hword] at h ⊢
    have hlength : restOfWord (u ++ r) = u.length := by
      simp only [Except.ok.injEq, Prod.mk.injEq] at h
      exact h.2
    dsimp only at h ⊢
    rw [hlength, List.take_left] at h
    rw [restOfWord_congr hlength hr, List.take_left]
    exact h
  rw [if_neg hword] at h ⊢
  split at h
  next k' m hm =>
    cases h
    rw [scanPunctuator?_congr hm hr]
  next => cases h

/-! ### Punctuation -/

/-- A character that opens nothing but punctuation. -/
def opensPunctuation (c : Char) : Bool :=
  !(c == '\n' || isBlank c || ['/', '#', '\x22', '\x27', '.', '_'].contains c || c.isDigit ||
    isLetter c)

theorem scan_of_opensPunctuation (h : opensPunctuation c = true) :
    scan b c t = match scanPunctuator? c t with
      | some (k, n) => .ok (.token k, n)
      | none => .error .unexpectedChar := by
  simp only [opensPunctuation, Bool.not_eq_true', Bool.or_eq_false_iff, beq_eq_false_iff_ne,
    List.contains_cons, List.contains_nil] at h
  obtain ⟨⟨⟨⟨hnewline, hblank⟩, hslash, hsharp, hstring, hchar, hpoint, hline, -⟩, hdigit⟩,
    hletter⟩ := h
  rw [scan, if_neg hnewline, if_neg (by simp [hblank]), if_neg (by simp [hslash]),
    if_neg (by simp [hslash]), if_neg (by simp [hsharp]), if_neg hstring, if_neg hchar,
    if_neg (by simp [hdigit, hpoint])]
  exact if_neg (by simp [hline, hletter])

/-- Punctuation is found when the text begins with no longer one. -/
theorem scanPunctuator?_of_maximal {w : Text} (hw : w.length ≤ 2)
    (hk : TokenKind.punctuator? (String.ofList (c :: w)) = some k)
    (hlongest : ∀ p ∈ punctuators, c :: w <+: p.1.toList → p.1.toList <+: c :: (w ++ t) →
      p.1.toList = c :: w) : scanPunctuator? c (w ++ t) = some (k, w.length) := by
  have hlonger (m : Nat) (hm : w.length < m) : (if m ≤ (w ++ t).length then
      (TokenKind.punctuator? (String.ofList (c :: (w ++ t).take m))).map (·, m) else none) =
        none := by
    split
    next hle =>
      rw [Option.map_eq_none_iff, Option.eq_none_iff_forall_not_mem]
      intro k' hk'
      obtain ⟨p, hp, hpw⟩ := exists_mem_punctuators hk'
      have hopens : p.1.toList <+: c :: (w ++ t) :=
        hpw ▸ List.cons_prefix_cons.2 ⟨rfl, List.take_prefix _ _⟩
      rw [List.take_append, List.take_of_length_le (Nat.le_of_lt hm)] at hpw
      have hsame := hlongest p hp (hpw ▸ ⟨t.take (m - w.length), rfl⟩) hopens
      have hlength := congrArg List.length (hpw.symm.trans hsame)
      rw [List.length_append] at hle
      simp only [List.length_cons, List.length_append, List.length_take] at hlength
      omega
    next => rfl
  have hfound : (if w.length ≤ (w ++ t).length then
      (TokenKind.punctuator? (String.ofList (c :: (w ++ t).take w.length))).map (·, w.length)
        else none) = some (k, w.length) := by
    rw [if_pos (by simp), List.take_left, hk]
    rfl
  rw [scanPunctuator?, List.findSome?_eq_some_iff]
  rcases hlength : w.length with _ | _ | _ | n
  · rw [hlength] at hfound
    refine ⟨[2, 1], 0, [], rfl, hfound, fun m hm => hlonger m ?_⟩
    simp only [List.mem_cons, List.not_mem_nil, or_false] at hm
    omega
  · rw [hlength] at hfound
    refine ⟨[2], 1, [0], rfl, hfound, fun m hm => hlonger m ?_⟩
    simp only [List.mem_cons, List.not_mem_nil, or_false] at hm
    omega
  · rw [hlength] at hfound
    exact ⟨[], 2, [1, 0], rfl, hfound, by simp⟩
  · omega

/-- Punctuation is found when no longer one begins with it. -/
theorem scanPunctuator?_of_longest {w : Text} (hw : w.length ≤ 2)
    (hk : TokenKind.punctuator? (String.ofList (c :: w)) = some k)
    (hlongest : ∀ p ∈ punctuators, c :: w <+: p.1.toList → p.1.toList = c :: w) (t : Text) :
    scanPunctuator? c (w ++ t) = some (k, w.length) :=
  scanPunctuator?_of_maximal hw hk fun p hp hprefix _ => hlongest p hp hprefix

/-- Punctuation that is found is spelled like that. -/
theorem mem_punctuators_of_scanPunctuator? (h : scanPunctuator? c t = some (k, n)) :
    (String.ofList (c :: t.take n), k) ∈ punctuators := by
  obtain ⟨j, -, hj⟩ := List.exists_of_findSome?_eq_some h
  obtain ⟨k', hk', hpair⟩ := Option.map_eq_some_iff.1 (Option.ite_none_right_eq_some.1 hj).2
  cases hpair
  obtain ⟨l₁, l₂, heq, -⟩ := List.lookup_eq_some_iff.1 hk'
  rw [heq]
  exact List.mem_append_right _ List.mem_cons_self

/-- What the first character of a token says about it. -/
theorem scan_token_cases (h : scan b c t = .ok (.token k, n)) :
    ((k = .stringLiteral ∨ k = .charLiteral) ∧ (c = '\x22' ∨ c = '\x27') ∧
        restOfLiteral? c t = some n) ∨
      (k = .numericLiteral ∧ (c.isDigit = true ∨ c = '.') ∧ n = restOfNumber (isHex c t) c t) ∨
      ((k = .identifier ∨ (String.ofList (c :: t.take n), k) ∈ keywords) ∧ isWordChar c = true ∧
        n = restOfWord t) ∨
      ((String.ofList (c :: t.take n), k) ∈ punctuators ∧
        ¬(c = '/' ∧ (t.head? = some '/' ∨ t.head? = some '*'))) := by
  rw [scan] at h
  split at h
  · cases h
  split at h
  · cases h
  split at h
  · cases h
  next hline =>
  split at h
  · split at h <;> cases h
  next hcomment =>
  split at h
  · cases h
  split at h
  next hstring =>
    split at h
    next m hm =>
      cases h
      exact .inl ⟨.inl rfl, .inl hstring, hm⟩
    next => cases h
  split at h
  next hchar =>
    split at h
    next m hm =>
      cases h
      exact .inl ⟨.inr rfl, .inr hchar, hm⟩
    next => cases h
  split at h
  next hnumber =>
    cases h
    exact .inr (.inl ⟨rfl, hnumber.imp_right And.left, rfl⟩)
  split at h
  next hword =>
    have hchar : isWordChar c = true := by
      rw [isWordChar, isLetterOrDigit]
      rcases hword with rfl | hletter
      · simp
      · simp [hletter]
    obtain ⟨hkind, rfl⟩ := Prod.mk.inj (Except.ok.inj h)
    refine .inr (.inr (.inl ⟨?_, hchar, rfl⟩))
    rw [← LexemeClass.token.inj hkind]
    cases hkeyword : TokenKind.keyword? (String.ofList (c :: t.take (restOfWord t))) with
    | none => exact .inl rfl
    | some k' =>
      obtain ⟨l₁, l₂, heq, -⟩ := List.lookup_eq_some_iff.1 hkeyword
      exact .inr (heq ▸ List.mem_append_right _ List.mem_cons_self)
  split at h
  next k' m hm =>
    cases h
    refine .inr (.inr (.inr ⟨mem_punctuators_of_scanPunctuator? hm, ?_⟩))
    rintro ⟨hslash, hhead | hhead⟩
    · exact hline ⟨hslash, hhead⟩
    · exact hcomment ⟨hslash, hhead⟩
  next => cases h

/-- A token of punctuation is spelled like that. -/
theorem mem_punctuators_of_scan (h : scan b c t = .ok (.token k, n))
    (hk : punctuators.any (·.2 == k) = true) :
    (String.ofList (c :: t.take n), k) ∈ punctuators := by
  have hkeywords : ∀ p ∈ keywords, punctuators.any (·.2 == p.2) = false := by decide
  rcases scan_token_cases h with ⟨rfl | rfl, -⟩ | ⟨rfl, -⟩ | ⟨rfl | hp, -⟩ | ⟨hmem, -⟩
  · exact absurd hk (by decide)
  · exact absurd hk (by decide)
  · exact absurd hk (by decide)
  · exact absurd hk (by decide)
  · rw [hkeywords _ hp] at hk
    cases hk
  · exact hmem

/-- A token that is a keyword is spelled like that. -/
theorem mem_keywords_of_scan (h : scan b c t = .ok (.token k, n))
    (hk : TokenKind.isKeyword k = true) : (String.ofList (c :: t.take n), k) ∈ keywords := by
  have hpunctuators : ∀ p ∈ punctuators, TokenKind.isKeyword p.2 = false := by decide
  rcases scan_token_cases h with ⟨rfl | rfl, -⟩ | ⟨rfl, -⟩ | ⟨rfl | hp, -⟩ | ⟨hmem, -⟩
  · exact absurd hk (by decide)
  · exact absurd hk (by decide)
  · exact absurd hk (by decide)
  · exact absurd hk (by decide)
  · exact hp
  · rw [hpunctuators _ hmem] at hk
    cases hk

/-- What the first character of a piece says about it. -/
theorem scan_cases {t : Text} {k : LexemeClass} {n : Nat} (h : scan b c t = .ok (k, n)) :
    (k = .newline ∧ c = '\n' ∧ n = 0) ∨ (k = .blank ∧ isBlank c = true ∧ c ≠ '\n' ∧ n = 0) ∨
      (k = .comment ∧ c = '/' ∧ t.head? = some '/' ∧ n = restOfLine t) ∨
      (k = .comment ∧ c = '/' ∧ t.head? = some '*' ∧
        ∃ m, restOfComment? t.tail = some m ∧ n = m + 1) ∨
      (k = .directive ∧ c = '#' ∧ b = true ∧ n = restOfDirective c t) ∨
      ((∃ k', k = .token k') ∧ c ≠ '\n' ∧ isBlank c = false ∧ ¬(c = '#' ∧ b = true)) := by
  rw [scan] at h
  by_cases hnewline : c = '\n'
  · rw [if_pos hnewline] at h
    cases h
    exact .inl ⟨rfl, hnewline, rfl⟩
  rw [if_neg hnewline] at h
  by_cases hblank : isBlank c
  · rw [if_pos hblank] at h
    cases h
    exact .inr (.inl ⟨rfl, hblank, hnewline, rfl⟩)
  rw [if_neg hblank] at h
  by_cases hline : c = '/' ∧ t.head? = some '/'
  · rw [if_pos hline] at h
    cases h
    exact .inr (.inr (.inl ⟨rfl, hline.1, hline.2, rfl⟩))
  rw [if_neg hline] at h
  by_cases hcomment : c = '/' ∧ t.head? = some '*'
  · rw [if_pos hcomment] at h
    split at h
    next m hm =>
      cases h
      exact .inr (.inr (.inr (.inl ⟨rfl, hcomment.1, hcomment.2, m, hm, rfl⟩)))
    next => cases h
  rw [if_neg hcomment] at h
  by_cases hdirective : c = '#' ∧ b = true
  · rw [if_pos hdirective] at h
    cases h
    exact .inr (.inr (.inr (.inr (.inl ⟨rfl, hdirective.1, hdirective.2, rfl⟩))))
  rw [if_neg hdirective] at h
  refine .inr (.inr (.inr (.inr (.inr ⟨?_, hnewline, Bool.not_eq_true _ ▸ hblank, hdirective⟩))))
  by_cases hstring : c = '\x22'
  · rw [if_pos hstring] at h
    split at h <;> cases h
    exact ⟨_, rfl⟩
  rw [if_neg hstring] at h
  by_cases hchar : c = '\x27'
  · rw [if_pos hchar] at h
    split at h <;> cases h
    exact ⟨_, rfl⟩
  rw [if_neg hchar] at h
  by_cases hnumber : c.isDigit ∨ (c = '.' ∧ t.head?.any Char.isDigit)
  · rw [if_pos hnumber] at h
    cases h
    exact ⟨_, rfl⟩
  rw [if_neg hnumber] at h
  by_cases hword : c = '_' ∨ isLetter c
  · rw [if_pos hword] at h
    cases h
    exact ⟨_, rfl⟩
  rw [if_neg hword] at h
  split at h <;> cases h
  exact ⟨_, rfl⟩

theorem scan_blank (h : isBlank c = true) (hnewline : c ≠ '\n') (t : Text) :
    scan b c t = .ok (.blank, 0) := by
  rw [scan, if_neg hnewline, if_pos h]

theorem scan_line (h : t.head? = some '/') : scan b '/' t = .ok (.comment, restOfLine t) := by
  rw [scan, if_neg (by decide), if_neg (by decide), if_pos ⟨rfl, h⟩]

theorem scan_block {m : Nat} (h : t.head? = some '*') (hm : restOfComment? t.tail = some m) :
    scan b '/' t = .ok (.comment, m + 1) := by
  rw [scan, if_neg (by decide), if_neg (by decide), if_neg (by simp [h]), if_pos ⟨rfl, h⟩, hm]

theorem scan_directive (t : Text) : scan true '#' t = .ok (.directive, restOfDirective '#' t) := by
  rw [scan, if_neg (by decide), if_neg (by decide), if_neg (by simp), if_neg (by simp),
    if_pos ⟨rfl, rfl⟩]

/-- A block comment is found again whatever comes after it. -/
theorem scan_block_congr {m : Nat} (h : (u ++ r).head? = some '*')
    (hm : restOfComment? (u ++ r).tail = some m) (hu : u.length = m + 1) :
    scan b '/' (u ++ r') = .ok (.comment, u.length) := by
  cases u with
  | nil => cases hu
  | cons d u =>
    obtain rfl : u.length = m := Nat.succ.inj hu
    exact scan_block h (restOfComment?_congr hm)

/-- What is no token is found again when the same character comes after it, or when it did not end
with its line. -/
theorem scan_congr_of_head? {k : LexemeClass} (h : scan b c (u ++ r) = .ok (k, u.length))
    (hk : ∀ k', k ≠ .token k') (hhead : r'.head? = r.head? ∨ ∃ d ∈ r.head?, d ≠ '\n') :
    scan b c (u ++ r') = .ok (k, u.length) := by
  rcases scan_cases h with ⟨rfl, rfl, hu⟩ | ⟨rfl, hc, hne, hu⟩ | ⟨rfl, rfl, hsecond, hu⟩ |
    ⟨rfl, rfl, hsecond, m, hm, hu⟩ | ⟨rfl, rfl, rfl, hu⟩ | ⟨⟨k', rfl⟩, -⟩
  · rw [hu]
    rfl
  · rw [hu]
    exact scan_blank hc hne _
  · have hne : u ≠ [] := by
      rintro rfl
      rw [List.nil_append] at hsecond hu
      obtain ⟨t, rfl⟩ := List.head?_eq_some_iff.1 hsecond
      rw [restOfLine_cons, if_neg (by decide)] at hu
      cases hu
    rcases hhead with hhead | ⟨d, hd, hne'⟩
    · rw [scan_line (by rwa [List.head?_append_of_ne_nil _ hne] at hsecond ⊢),
        restOfLine_congr hu.symm hhead]
    · obtain ⟨r, rfl⟩ := List.head?_eq_some_iff.1 hd
      exact absurd (eq_newline_of_restOfLine hu.symm) hne'
  · exact scan_block_congr hsecond hm hu
  · rcases hhead with hhead | ⟨d, hd, hne⟩
    · rw [scan_directive, restOfDirective_congr hu.symm hhead]
    · obtain ⟨r, rfl⟩ := List.head?_eq_some_iff.1 hd
      exact absurd (eq_newline_of_restOfDirective hu.symm) hne
  · exact absurd rfl (hk k')

/-- What is found where no directive may stand is found where one may. -/
theorem scan_of_flag {k : LexemeClass} (h : scan false c t = .ok (k, n)) (b : Bool) :
    scan b c t = .ok (k, n) := by
  by_cases hsharp : c = '#'
  · -- no token begins like a directive
    subst hsharp
    have hnone : scanPunctuator? '#' t = none := by
      rw [scanPunctuator?, List.findSome?_eq_none_iff]
      intro m _
      split
      next =>
        rw [Option.map_eq_none_iff, Option.eq_none_iff_forall_not_mem]
        intro k' hk'
        obtain ⟨p, hp, hw⟩ := exists_mem_punctuators hk'
        have hall : punctuators.all (fun p => p.1.toList.head? != some '#') = true := by decide
        have hne := List.all_eq_true.1 hall p hp
        rw [hw] at hne
        cases hne
      next => rfl
    rw [scan, if_neg (by decide), if_neg (by decide), if_neg (by simp), if_neg (by simp),
      if_neg (by simp), if_neg (by decide), if_neg (by decide), if_neg (by simp),
      if_neg (by decide +kernel), hnone] at h
    cases h
  · rw [scan] at h ⊢
    simpa [hsharp] using h

/-- A token is found wherever on a line it stands. -/
theorem scan_token_of_scan (h : scan b c t = .ok (.token k, n)) (b' : Bool) :
    scan b' c t = .ok (.token k, n) := by
  cases b with
  | false => exact scan_of_flag h b'
  | true =>
    have hsharp : c ≠ '#' := by
      rintro rfl
      rw [scan_directive] at h
      cases h
    rw [scan] at h ⊢
    simpa [hsharp] using h

end Lexeme

/-! ### Pieces without their places -/

/-- A token without its place. -/
def Token.word (t : Token) : TokenKind × String := (t.kind, t.spelling)

/-- A piece of a text without its place. -/
structure Scrap where
  /-- What it is. -/
  kind : LexemeClass
  /-- Its characters. -/
  text : Text
  deriving DecidableEq, Repr

/-- A piece without its place. -/
def Lexeme.scrap (l : Lexeme) : Scrap := ⟨l.kind, l.text⟩

namespace Scrap

/-- The characters of pieces. -/
def chars (ps : List Scrap) : Text := ps.flatMap text

/-- Whether no token stands on the line after pieces. -/
def lineStartAfter (b : Bool) (ps : List Scrap) : Bool :=
  ps.foldl (fun b p => Lexeme.lineStartAfter b p.kind) b

/-- The token that a piece is, if it is one. -/
def token? (p : Scrap) : Option (TokenKind × String) :=
  match p.kind with
  | .token k => some (k, String.ofList p.text)
  | _ => none

/-- A piece is a token. -/
def IsToken (p : Scrap) : Prop := ∃ k, p.kind = .token k

/-- The characters of pieces, with a text after them, begin with these pieces. -/
inductive Chain : Bool → List Scrap → Text → Prop
  /-- No pieces. -/
  | nil (b : Bool) (r : Text) : Chain b [] r
  /-- A piece, and then others. -/
  | cons {b : Bool} {k : LexemeClass} {c : Char} {u r : Text} {ps : List Scrap}
      (scan : Lexeme.scan b c (u ++ (chars ps ++ r)) = .ok (k, u.length))
      (rest : Chain (Lexeme.lineStartAfter b k) ps r) : Chain b (⟨k, c :: u⟩ :: ps) r

variable {b : Bool} {o : Nat} {t r r' : Text} {p : Scrap} {ps qs : List Scrap} {ls : List Lexeme}

@[simp] theorem chars_nil : chars [] = [] := rfl

@[simp] theorem chars_cons : chars (p :: ps) = p.text ++ chars ps := rfl

@[simp] theorem chars_append : chars (ps ++ qs) = chars ps ++ chars qs := List.flatMap_append

theorem lineStartAfter_append :
    lineStartAfter b (ps ++ qs) = lineStartAfter (lineStartAfter b ps) qs := List.foldl_append

/-- More of a line follows a token. -/
theorem lineStartAfter_of_getLast? (h : ∃ p ∈ ps.getLast?, p.IsToken) :
    lineStartAfter b ps = false := by
  obtain ⟨⟨k, t⟩, hp, k', hk'⟩ := h
  obtain rfl : k = .token k' := hk'
  obtain ⟨qs, rfl⟩ := List.getLast?_eq_some_iff.1 hp
  rw [lineStartAfter_append]
  rfl

theorem token?_scrap (l : Lexeme) : l.scrap.token? = l.token?.map Token.word := by
  obtain ⟨k, o, t⟩ := l
  cases k <;> rfl

theorem filterMap_token?_map_scrap (ls : List Lexeme) :
    (ls.map Lexeme.scrap).filterMap token? = (ls.filterMap Lexeme.token?).map Token.word := by
  rw [List.filterMap_map, List.map_filterMap]
  exact congrArg (fun f => ls.filterMap f) (funext token?_scrap)

theorem chars_map_scrap (ls : List Lexeme) :
    chars (ls.map Lexeme.scrap) = (ls.map (·.text)).flatten := by
  rw [chars, List.flatMap_map, List.flatMap_def]
  rfl

/-- The pieces of a text are a chain. -/
theorem chain_of_splitFrom (h : Lexeme.splitFrom b o t = .ok ls) :
    Chain b (ls.map Lexeme.scrap) [] := by
  fun_induction Lexeme.splitFrom b o t generalizing ls with
  | case1 =>
    cases h
    exact .nil _ _
  | case2 | case3 | case4 => cases h
  | case5 _ _ c rest _ n hscan _ _ hrest =>
    rename_i ih
    cases h
    have hlength : (rest.take n).length = n :=
      List.length_take_of_le (Lexeme.scan_le_length hscan)
    refine .cons ?_ (ih hrest)
    rw [chars_map_scrap, Lexeme.texts_splitFrom hrest, List.append_nil, List.take_append_drop,
      hscan, hlength]

/-- A chain falls into its pieces, wherever it lies. -/
theorem splitFrom_of_chain (h : Chain b ps []) (o : Nat) :
    ∃ ls, Lexeme.splitFrom b o (chars ps) = .ok ls ∧ ls.map Lexeme.scrap = ps := by
  generalize hr : ([] : Text) = r at h
  induction h generalizing o with
  | nil => exact ⟨[], by rw [chars_nil, Lexeme.splitFrom], rfl⟩
  | @cons b k c u r ps hscan _ ih =>
    subst hr
    rw [List.append_nil] at hscan
    obtain ⟨ls, hls, hps⟩ := ih (o + (c :: u).length) rfl
    refine ⟨⟨k, o, c :: u⟩ :: ls, ?_, by rw [List.map_cons, hps]; rfl⟩
    rw [chars_cons, List.cons_append, Lexeme.splitFrom, hscan]
    simp only [List.take_left, List.drop_left, hls]

namespace Chain

/-- A chain can be cut anywhere between its pieces. -/
theorem append_iff : Chain b (ps ++ qs) r ↔
    Chain b ps (chars qs ++ r) ∧ Chain (lineStartAfter b ps) qs r := by
  induction ps generalizing b with
  | nil => exact ⟨fun h => ⟨.nil _ _, h⟩, fun h => h.2⟩
  | cons p ps ih =>
    have happend : chars (ps.append qs) = chars ps ++ chars qs := chars_append
    constructor
    · intro h
      cases h with
      | cons hscan hrest =>
        obtain ⟨hps, hqs⟩ := ih.1 hrest
        rw [happend, List.append_assoc] at hscan
        exact ⟨.cons hscan hps, hqs⟩
    · rintro ⟨h, hqs⟩
      cases h with
      | cons hscan hps =>
        refine .cons ?_ (ih.2 ⟨hps, hqs⟩)
        rwa [happend, List.append_assoc]

/-- More may stand on the line. -/
theorem of_flag (h : Chain false ps r) (b : Bool) : Chain b ps r := by
  generalize hb : false = b₀ at h
  induction h generalizing b with
  | nil => exact .nil _ _
  | @cons b₀ k c u r ps hscan hrest ih =>
    subst hb
    refine .cons (Lexeme.scan_of_flag hscan b) ?_
    cases k with
    | newline | token => exact hrest
    | blank | comment | directive => exact ih b rfl

/-- No piece is empty. -/
theorem text_ne_nil (h : Chain b ps r) : ∀ p ∈ ps, p.text ≠ [] := by
  induction h with
  | nil => nofun
  | cons _ _ ih =>
    intro p hp
    rcases List.mem_cons.1 hp with rfl | hp
    · exact List.cons_ne_nil _ _
    · exact ih p hp

/-- **The same pieces are found with something else after them.**  The last piece is a token, or it
did not end with its line; and no token goes on with what comes now, neither the last one nor what
more than one character was seen of. -/
theorem congr (h : Chain b ps r)
    (hend : (∃ d ∈ r.head?, d ≠ '\n') ∨ ∃ p ∈ ps.getLast?, p.IsToken)
    (hr : ∀ w : Text, w ≠ [] → (∃ p ∈ ps, p.IsToken) →
      2 ≤ w.length ∨ (∃ p ∈ ps.getLast?, p.text = w) → MayFollow w 2 r r') :
    Chain b ps r' := by
  induction h with
  | nil => exact .nil _ _
  | @cons b k c u r ps hscan hrest ih =>
    cases hrest with
    | nil =>
      refine .cons ?_ (.nil _ _)
      by_cases hk : ∃ k', k = .token k'
      · obtain ⟨k', rfl⟩ := hk
        exact Lexeme.scan_congr hscan
          (hr _ (List.cons_ne_nil _ _) ⟨_, List.mem_singleton_self _, k', rfl⟩ (.inr ⟨_, rfl, rfl⟩))
      · refine Lexeme.scan_congr_of_head? hscan (fun k' hk' => hk ⟨k', hk'⟩)
          (.inr (hend.resolve_right ?_))
        rintro ⟨p, hp, hkind⟩
        cases hp
        exact hk hkind
    | @cons _ k' d v _ ps hscan' hrest =>
      -- something of the chain is left, so the same character comes next
      refine .cons ?_
        (ih hend fun w hne hp => hr w hne (hp.imp fun _ hp => ⟨.tail _ hp.1, hp.2⟩))
      by_cases hk : ∃ k', k = .token k'
      · obtain ⟨k', rfl⟩ := hk
        have hr (w : Text) (hw : 2 ≤ w.length) : MayFollow w 2 r r' :=
          hr w (List.ne_nil_of_length_pos (by omega)) ⟨_, .head _, k', rfl⟩ (.inl hw)
        exact Lexeme.scan_congr hscan (.append hr (List.cons_ne_nil _ _) (List.cons_ne_nil _ _))
      · exact Lexeme.scan_congr_of_head? hscan (fun k' hk' => hk ⟨k', hk'⟩) (.inl rfl)

/-- Punctuation before a chain, when no longer one begins with it. -/
theorem punctuation {k : TokenKind} {c : Char} {w : Text} (h : Chain false ps r)
    (hc : Lexeme.opensPunctuation c = true)
    (hw : w.length ≤ 2) (hk : TokenKind.punctuator? (String.ofList (c :: w)) = some k)
    (hlongest : ∀ p ∈ punctuators, c :: w <+: p.1.toList → p.1.toList = c :: w) :
    Chain b (⟨.token k, c :: w⟩ :: ps) r := by
  refine .cons ?_ h
  rw [Lexeme.scan_of_opensPunctuation hc, Lexeme.scanPunctuator?_of_longest hw hk hlongest]

/-- Punctuation in a chain is spelled like that. -/
theorem mem_punctuators {k : TokenKind} (h : Chain b ps r) (hp : p ∈ ps) (hkind : p.kind = .token k)
    (hk : punctuators.any (·.2 == k) = true) : (String.ofList p.text, k) ∈ punctuators := by
  induction h with
  | nil => cases hp
  | cons hscan _ ih =>
    rcases List.mem_cons.1 hp with rfl | hp
    · obtain rfl : _ = LexemeClass.token k := hkind
      have hmem := Lexeme.mem_punctuators_of_scan hscan hk
      rwa [List.take_left] at hmem
    · exact ih hp

/-- A bar alone is an operator. -/
theorem kind_of_bar (h : Chain b ps r) (hp : p ∈ ps) (htext : p.text = ['|']) :
    p.kind = .token .pipe := by
  induction h with
  | nil => cases hp
  | @cons b k c u r ps hscan _ ih =>
    rcases List.mem_cons.1 hp with rfl | hp
    · obtain ⟨rfl, rfl⟩ := List.cons.inj htext
      rw [Lexeme.scan_of_opensPunctuation (by decide +kernel)] at hscan
      split at hscan
      next k' n hfound =>
        obtain ⟨rfl, rfl⟩ : .token k' = k ∧ n = 0 := by simpa using hscan
        obtain ⟨j, -, hj⟩ := List.exists_of_findSome?_eq_some hfound
        obtain ⟨k'', hk'', hpair⟩ :=
          Option.map_eq_some_iff.1 (Option.ite_none_right_eq_some.1 hj).2
        cases hpair
        exact congrArg LexemeClass.token (Option.some.inj hk'').symm
      next => cases hscan
    · exact ih hp

end Chain

/-! ### Texts -/

/-- A piece begins where those before it end. -/
theorem start_eq_of_fill {xs ys : List Lexeme} {l : Lexeme}
    (h : Lexeme.Fill o (xs ++ l :: ys) t) :
    l.start = o + (chars (xs.map Lexeme.scrap)).length := by
  induction xs generalizing o t with
  | nil =>
    cases h
    rfl
  | cons x xs ih =>
    cases h with
    | cons _ h =>
      rw [ih h, List.map_cons, chars_cons, List.length_append, Nat.add_assoc]
      rfl

theorem chars_of_fill (h : Lexeme.Fill o ls t) : chars (ls.map Lexeme.scrap) = t := by
  induction h with
  | nil => rfl
  | cons _ _ ih => rw [List.map_cons, chars_cons, ih]; rfl

/-- **A text that has tokens is a chain**, and its tokens are those of the chain. -/
theorem exists_chain_of_ofText {L : Lexed} (h : Lexed.ofText t = .ok L) :
    ∃ ls, Chain true (ls.map Lexeme.scrap) [] ∧ Lexeme.Fill 0 ls t ∧
      L.tokens = ls.filterMap Lexeme.token? := by
  rw [Lexed.ofText] at h
  split at h
  next ls hls =>
    cases h
    exact ⟨ls, chain_of_splitFrom hls, Lexeme.fill_of_splitFrom hls, rfl⟩
  next => cases h

/-- **A chain is a text that has the tokens of the chain.** -/
theorem Chain.exists_ofText (h : Chain true ps []) :
    ∃ L, Lexed.ofText (chars ps) = .ok L ∧ L.tokens.map Token.word = ps.filterMap token? := by
  obtain ⟨ls, hls, rfl⟩ := splitFrom_of_chain h 0
  refine ⟨⟨ls.filterMap Lexeme.token?, Include.ofLexemes 1 ls⟩, ?_,
    (filterMap_token?_map_scrap ls).symm⟩
  rw [Lexed.ofText, Lexeme.split, hls]

end Scrap

end Mend
