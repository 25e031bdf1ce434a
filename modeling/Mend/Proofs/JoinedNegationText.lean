import Mend.Proofs.JoinedNegations
import Mend.Proofs.LexemeStretches
import Mend.Proofs.WovenStretches

/-!
# The text of joined negations

Five changes make the text with `!(A || B)` for `!A && !B`.  They are woven into the text where its
pieces meet.  No piece grows together with its new neighbour: punctuation is all that is exchanged,
and what is negated does not end with a bar.  So the new text falls into the pieces of the old one,
up to those that are exchanged.

## Main definitions

* `Scrap.NegationPieces` — two negations among the pieces of a text.

## Main results

* `Scrap.chain_joinNegations` — the pieces of the new text follow on each other.
* `Change.weave_joinNegations` — the five changes, woven into the text.
* `Lexed.exists_ofText_joinNegations` — **the new text has the tokens of the old one, up to those
  that are exchanged.**
-/

namespace Mend

namespace Scrap

variable {b : Bool} {r : Text} {front left gap right rest : List Scrap}

/-- A bar goes on with a bar only. -/
theorem goesOn_bar {w : Text} (hw : w ≠ []) (hbar : w ≠ ['|']) : goesOn w '|' = false := by
  refine goesOn_eq_false (by decide +kernel) fun p hp ⟨v, hv⟩ => ?_
  have hall : punctuators.all (fun p => !(p.1.toList.drop 2).contains '|' &&
      (p.1.toList.tail.head? != some '|' || p.1.toList.head? == some '|')) = true := by decide
  have hp := List.all_eq_true.1 hall p hp
  rw [← hv] at hp
  match w, hw with
  | [c], _ =>
    have hc : c ≠ '|' := fun h => hbar (congrArg (fun x => [x]) h)
    simp [hc] at hp
  | _ :: _ :: w, _ => simp at hp

/-- **The text with the negations joined falls into the pieces that it had before**, up to those
that are exchanged. -/
theorem chain_joinNegations
    (h : Chain b (front ++ ⟨.token .exclaim, ['!']⟩ :: (left ++ ⟨.token .ampAmp, ['&', '&']⟩ ::
      (gap ++ ⟨.token .exclaim, ['!']⟩ :: (right ++ rest)))) [])
    (hleft : ∀ p ∈ left.getLast?, p.text ≠ ['|']) (hgap : ∀ p ∈ gap, ¬p.IsToken)
    (hright : ∃ p ∈ right.getLast?, p.IsToken) :
    Chain b (front ++ ⟨.token .exclaim, ['!']⟩ :: ⟨.token .lParen, ['(']⟩ ::
      (left ++ ⟨.token .pipePipe, ['|', '|']⟩ ::
        (gap ++ (right ++ ⟨.token .rParen, [')']⟩ :: rest)))) [] := by
  obtain ⟨hfront, h⟩ := Chain.append_iff.1 h
  cases h with | cons hsign h
  obtain ⟨hl, h⟩ := Chain.append_iff.1 h
  cases h with | cons _ h
  obtain ⟨hg, h⟩ := Chain.append_iff.1 h
  cases h with | cons _ h
  obtain ⟨hr, hrest⟩ := Chain.append_iff.1 h
  -- from the end of the text to its beginning
  rw [lineStartAfter_of_getLast? hright] at hrest
  have hclose : Chain (lineStartAfter (lineStartAfter false gap) right)
      (⟨.token .rParen, [')']⟩ :: rest) [] :=
    hrest.longest (isLongest_of_mem (by decide))
  have hright : Chain (lineStartAfter false gap)
      (right ++ ⟨.token .rParen, [')']⟩ :: rest) [] :=
    Chain.append_iff.2 ⟨(hr.of_flag _).before hright (by decide) _, hclose⟩
  have hgap : Chain false (gap ++ (right ++ ⟨.token .rParen, [')']⟩ :: rest)) [] :=
    Chain.append_iff.2 ⟨hg.of_blank hgap ⟨'!', rfl, by decide⟩ _, hright⟩
  have hleft : Chain false left (chars (⟨.token .pipePipe, ['|', '|']⟩ ::
      (gap ++ (right ++ ⟨.token .rParen, [')']⟩ :: rest))) ++ []) := by
    refine hl.congr (.inl ⟨'&', rfl, by decide⟩) fun w hw _ hlast => .sealed fun c hc => ?_
    cases hc
    refine goesOn_bar hw ?_
    rintro rfl
    rcases hlast with hlast | ⟨p, hp, hw⟩
    · exact absurd hlast (by decide)
    · exact hleft p hp hw
  have hjoined : Chain false (left ++ ⟨.token .pipePipe, ['|', '|']⟩ ::
      (gap ++ (right ++ ⟨.token .rParen, [')']⟩ :: rest))) [] :=
    Chain.append_iff.2
      ⟨hleft, hgap.longest (isLongest_of_mem (by decide))⟩
  have hopen : Chain false (⟨.token .lParen, ['(']⟩ :: (left ++ ⟨.token .pipePipe, ['|', '|']⟩ ::
      (gap ++ (right ++ ⟨.token .rParen, [')']⟩ :: rest)))) [] :=
    hjoined.longest (isLongest_of_mem (by decide))
  have hsign : Chain (lineStartAfter b front) (⟨.token .exclaim, ['!']⟩ ::
      ⟨.token .lParen, ['(']⟩ :: (left ++ ⟨.token .pipePipe, ['|', '|']⟩ ::
        (gap ++ (right ++ ⟨.token .rParen, [')']⟩ :: rest)))) [] :=
    .cons (Lexeme.scan_congr hsign (.sealed (isSealed_of_separator (by simp) (by decide)))) hopen
  refine Chain.append_iff.2 ⟨hfront.congr (.inl ⟨'!', rfl, by decide⟩) fun w _ _ _ => ?_, hsign⟩
  exact .cons '!' (.sealed (isSealed_of_separator (by simp) (by decide)))

end Scrap

open Text in
/-- Joining negations puts the signs and parentheses where they belong. -/
theorem Change.weave_joinNegations {P A G C Q : Text} {p q r e : Nat} (hp : p = P.length)
    (hq : q = p + 1 + A.length) (hr : r = q + 2 + G.length) (he : e = r + 1 + C.length) :
    weave [.replace ⟨q, q + 2⟩ "||".toList, .remove ⟨p, p + 1⟩, .remove ⟨r, r + 1⟩,
      .insert p "!(".toList, .insert e ")".toList]
        (P ++ '!' :: (A ++ '&' :: '&' :: (G ++ '!' :: (C ++ Q)))) =
      P ++ '!' :: '(' :: (A ++ '|' :: '|' :: (G ++ (C ++ ')' :: Q))) := by
  let put (x : Nat) : Text := (if q = x then ['|', '|'] else []) ++
    ((if p = x then ['!', '('] else []) ++ if e = x then [')'] else [])
  let gone (x : Nat) : Prop := (q ≤ x ∧ x < q + 2) ∨ x = p ∨ x = r
  have hkept {lo hi : Nat} (h : (lo ≤ p → hi ≤ p) ∧ (lo ≤ q + 1 → hi ≤ q) ∧ (lo ≤ r → hi ≤ r) ∧
      (lo ≤ e → hi ≤ e)) (x : Nat) (hlo : lo ≤ x) (hhi : x < hi) : put x = [] ∧ ¬gone x := by
    have hne : q ≠ x ∧ p ≠ x ∧ e ≠ x := by omega
    simp only [put, gone, if_neg hne.1, if_neg hne.2.1, if_neg hne.2.2, List.nil_append, true_and]
    omega
  have hput (x : Nat) (hx : x ≠ q ∧ x ≠ p ∧ x ≠ e) : put x = [] := by
    simp [put, hx.1.symm, hx.2.1.symm, hx.2.2.symm]
  have hatp : put p = ['!', '('] := by
    have hne : q ≠ p ∧ e ≠ p := by omega
    simp [put, hne.1, hne.2]
  have hatq : put q = ['|', '|'] := by
    have hne : p ≠ q ∧ e ≠ q := by omega
    simp [put, hne.1, hne.2]
  have hate : put e = [')'] := by
    have hne : q ≠ e ∧ p ≠ e := by omega
    simp [put, hne.1, hne.2]
  have hweave (t : Text) : weave [.replace ⟨q, q + 2⟩ "||".toList, .remove ⟨p, p + 1⟩,
      .remove ⟨r, r + 1⟩, .insert p "!(".toList, .insert e ")".toList] t =
        Text.weave t put gone := by
    refine weave_congr (fun x => by simp [put, placedAt]) fun x _ => ?_
    simp [gone, Destroys, Span.Holds]
    omega
  rw [hweave, weave_eq_weaveFrom]
  have hgonep : gone p := .inr (.inl rfl)
  have hgoneq : gone q ∧ gone (q + 1) := ⟨.inl (by omega), .inl (by omega)⟩
  have hgoner : gone r := .inr (.inr rfl)
  -- the text from its beginning to its end
  rw [weaveFrom_append (hkept (by omega)), Nat.zero_add, ← hp, weaveFrom_cons_of_gone hgonep, hatp,
    weaveFrom_append (hkept (by omega)), ← hq, weaveFrom_cons_of_gone hgoneq.1, hatq,
    weaveFrom_cons_of_gone hgoneq.2, hput (q + 1) (by omega), List.nil_append,
    weaveFrom_append (hkept (by omega)), ← hr, weaveFrom_cons_of_gone hgoner, hput r (by omega),
    List.nil_append, weaveFrom_append (hkept (by omega)), ← he,
    weaveFrom_of_forall (fun x _ => hput x (by omega)) fun x _ => by simp [gone]; omega, hate]
  rfl

/-- Two negations joined by `&&` among the pieces of a text: the pieces of what is negated, what is
between the operator and the sign after it, and what comes before and after all of them. -/
structure Scrap.NegationPieces (t : Text) (pre as bs post : List Token) (n₁ op n₂ z : Token)
    (front left gap right rest : List Scrap) : Prop where
  /-- The pieces follow on each other. -/
  chain : Chain true (front ++ ⟨.token .exclaim, ['!']⟩ :: (left ++
    ⟨.token .ampAmp, ['&', '&']⟩ :: (gap ++ ⟨.token .exclaim, ['!']⟩ :: (right ++ rest)))) []
  /-- They make up the text. -/
  chars_eq : t = chars front ++ '!' :: (chars left ++ '&' :: '&' :: (chars gap ++
    '!' :: (chars right ++ chars rest)))
  /-- The words of their tokens. -/
  words_eq : front.filterMap token? = pre.map Token.word ∧
    left.filterMap token? = as.map Token.word ∧ right.filterMap token? = bs.map Token.word ∧
    rest.filterMap token? = post.map Token.word
  /-- What is negated on the left does not end with a bar. -/
  bar : ∀ p ∈ left.getLast?, p.text ≠ ['|']
  /-- No token is between the operator and the sign after it. -/
  blank : ∀ p ∈ gap, ¬p.IsToken
  /-- What is negated on the right ends with a token. -/
  token : ∃ p ∈ right.getLast?, p.IsToken
  /-- The words of the signs and of the operator. -/
  signs_eq : n₁.word = (.exclaim, "!") ∧ op.word = (.ampAmp, "&&") ∧ n₂.word = (.exclaim, "!")
  /-- The left sign lies behind what comes before both. -/
  left_span : n₁.span = ⟨(chars front).length, (chars front).length + 1⟩
  /-- The operator lies behind what is negated on the left. -/
  operator_span : op.span =
    ⟨n₁.span.start + 1 + (chars left).length, n₁.span.start + 1 + (chars left).length + 2⟩
  /-- The right sign lies behind the operator and what comes after it. -/
  right_span : n₂.span =
    ⟨op.span.start + 2 + (chars gap).length, op.span.start + 2 + (chars gap).length + 1⟩
  /-- What is negated on the right lies behind its sign. -/
  stop_eq : z.span.stop = n₂.span.start + 1 + (chars right).length

namespace Lexed

open Lexeme Scrap

variable {t : Text} {L : Lexed} {pre as bs post : List Token} {n₁ op n₂ z : Token}
  {old a b : PieceTree}

/-- **Two negations among the tokens of a text are negations among its pieces.** -/
theorem exists_negationPieces (hL : Lexed.ofText t = .ok L)
    (h : PieceTree.NegationsAt L.tokens pre as bs post n₁ op n₂ old a b)
    (has : ∀ t ∈ as.getLast?, t.kind.precedence? = none) (hz : z ∈ bs.getLast?) :
    ∃ front left gap right rest,
      NegationPieces t pre as bs post n₁ op n₂ z front left gap right rest := by
  obtain ⟨ls, hchain, hfill, htokens⟩ := exists_chain_of_ofText hL
  rw [h.tokens_eq] at htokens
  obtain ⟨bs, rfl⟩ := List.getLast?_eq_some_iff.1 hz
  -- the pieces that the tokens are
  obtain ⟨front, l₁, rest, rfl, hfront, hl₁, hrest⟩ := exists_of_filterMap_token? htokens.symm
  obtain ⟨left, lop, rest, rfl, hleft, hlop, hrest⟩ := exists_of_filterMap_token? hrest
  rw [← List.nil_append (n₂ :: _)] at hrest
  obtain ⟨gap, l₂, rest, rfl, hgap, hl₂, hrest⟩ := exists_of_filterMap_token? hrest
  rw [List.append_assoc] at hrest
  obtain ⟨right, lz, rest, rfl, hright, hlz, hrest⟩ := exists_of_filterMap_token? hrest
  have hscrap₁ : l₁.scrap = ⟨.token .exclaim, ['!']⟩ :=
    scrap_eq_of_punctuator (s := "!") hchain hl₁ (by simp) h.left (by decide) (by decide)
  have hscrap : lop.scrap = ⟨.token .ampAmp, ['&', '&']⟩ :=
    scrap_eq_of_punctuator (s := "&&") hchain hlop (by simp) h.operator (by decide) (by decide)
  have hscrap₂ : l₂.scrap = ⟨.token .exclaim, ['!']⟩ :=
    scrap_eq_of_punctuator (s := "!") hchain hl₂ (by simp) h.right (by decide) (by decide)
  have hscraps : (front ++ l₁ :: (left ++ lop :: (gap ++ l₂ :: (right ++ lz :: rest)))).map scrap =
      front.map scrap ++ ⟨.token .exclaim, ['!']⟩ :: (left.map scrap ++
        ⟨.token .ampAmp, ['&', '&']⟩ :: (gap.map scrap ++ ⟨.token .exclaim, ['!']⟩ ::
          ((right ++ [lz]).map scrap ++ rest.map scrap))) := by
    simp [hscrap₁, hscrap, hscrap₂]
  have hspan₁ : n₁.span =
      ⟨(chars (front.map scrap)).length, (chars (front.map scrap)).length + 1⟩ := by
    rw [span_eq_of_fill front _ hfill rfl hl₁, hscrap₁]
    rfl
  have hspan : op.span = ⟨n₁.span.start + 1 + (chars (left.map scrap)).length,
      n₁.span.start + 1 + (chars (left.map scrap)).length + 2⟩ := by
    rw [span_eq_of_fill (front ++ l₁ :: left) (gap ++ l₂ :: (right ++ lz :: rest)) hfill (by simp)
      hlop, hscrap, hspan₁]
    simp [hscrap₁]
    omega
  have hspan₂ : n₂.span = ⟨op.span.start + 2 + (chars (gap.map scrap)).length,
      op.span.start + 2 + (chars (gap.map scrap)).length + 1⟩ := by
    rw [span_eq_of_fill (front ++ l₁ :: (left ++ lop :: gap)) (right ++ lz :: rest) hfill (by simp)
      hl₂, hscrap₂, hspan, hspan₁]
    simp [hscrap₁, hscrap]
    omega
  refine ⟨front.map scrap, left.map scrap, gap.map scrap, (right ++ [lz]).map scrap,
    rest.map scrap,
    { chain := hscraps ▸ hchain
      chars_eq := by
        rw [← chars_of_fill hfill, hscraps]
        simp
      words_eq := by
        simp only [filterMap_token?_map_scrap, hfront, hleft, List.filterMap_append, hright,
          List.filterMap_cons_some hlz, List.filterMap_nil, hrest, true_and]
        rfl
      bar := ?_
      blank := ?_
      token := ?_
      signs_eq := ⟨word_eq_of_scrap hl₁ hscrap₁, word_eq_of_scrap hlop hscrap,
        word_eq_of_scrap hl₂ hscrap₂⟩
      left_span := hspan₁
      operator_span := hspan
      right_span := hspan₂
      stop_eq := ?_ }⟩
  · -- a bar would be a token, and so an operator
    intro p hp htext
    rw [List.getLast?_map] at hp
    obtain ⟨l, hl, rfl⟩ := Option.map_eq_some_iff.1 hp
    obtain ⟨left, rfl⟩ := List.getLast?_eq_some_iff.1 hl
    have hkind : l.kind = .token .pipe := hchain.kind_of_bar (by simp) htext
    obtain ⟨tok, htok, hpipe⟩ : ∃ tok, l.token? = some tok ∧ tok.kind = .pipe := by
      rw [Lexeme.token?, hkind]
      exact ⟨_, rfl, rfl⟩
    have hnone := has tok (by simp [← hleft, htok])
    rw [hpipe] at hnone
    cases hnone
  · exact not_isToken_of_filterMap hgap
  · exact ⟨lz.scrap, by simp, isToken_scrap hlz⟩
  · rw [span_eq_of_fill (front ++ l₁ :: (left ++ lop :: (gap ++ l₂ :: right))) rest hfill (by simp)
      hlz, hspan₂, hspan, hspan₁]
    simp [hscrap₁, hscrap, hscrap₂]
    omega

/-- **The text with `!(A || B)` for `!A && !B` has the tokens that it had before**, up to those that
are exchanged. -/
theorem exists_ofText_joinNegations (hL : Lexed.ofText t = .ok L)
    (h : PieceTree.NegationsAt L.tokens pre as bs post n₁ op n₂ old a b)
    (has : ∀ t ∈ as.getLast?, t.kind.precedence? = none) (hz : z ∈ bs.getLast?) :
    (n₁.word = (.exclaim, "!") ∧ op.word = (.ampAmp, "&&") ∧ n₂.word = (.exclaim, "!")) ∧
    ∃ L', Lexed.ofText (Change.weave [.replace op.span "||".toList, .remove n₁.span,
        .remove n₂.span, .insert n₁.span.start "!(".toList, .insert z.span.stop ")".toList] t) =
          .ok L' ∧
      L'.tokens.map Token.word = pre.map Token.word ++ (.exclaim, "!") :: (.lParen, "(") ::
        (as.map Token.word ++ (.pipePipe, "||") :: (bs.map Token.word ++
          (.rParen, ")") :: post.map Token.word)) := by
  obtain ⟨front, left, gap, right, rest, hpieces⟩ := exists_negationPieces hL h has hz
  obtain ⟨L', hL', hwords⟩ :=
    (chain_joinNegations hpieces.chain hpieces.bar hpieces.blank hpieces.token).exists_ofText
  have hspan₁ := hpieces.left_span
  have hspan := hpieces.operator_span
  have hspan₂ := hpieces.right_span
  have hweave := Change.weave_joinNegations (Q := chars rest) (congrArg Span.start hspan₁)
    (congrArg Span.start hspan) (congrArg Span.start hspan₂) hpieces.stop_eq
  refine ⟨hpieces.signs_eq, L', ?_, ?_⟩
  · have hop : op.span = ⟨op.span.start, op.span.start + 2⟩ := by rw [hspan]
    have hleft : n₁.span = ⟨n₁.span.start, n₁.span.start + 1⟩ := by rw [hspan₁]
    have hright : n₂.span = ⟨n₂.span.start, n₂.span.start + 1⟩ := by rw [hspan₂]
    rw [← hop, ← hleft, ← hright, ← hpieces.chars_eq] at hweave
    rw [← hL', hweave]
    simp
  · obtain ⟨hfront, hleft, hright, hrest⟩ := hpieces.words_eq
    have hgap := filterMap_token?_eq_nil hpieces.blank
    rw [hwords]
    simp only [List.filterMap_append, List.filterMap_cons, hfront, hleft, hgap, hright, hrest]
    rfl

end Lexed

end Mend
