import Mend.Proofs.LexemeChains

/-!
# Stretches of pieces

Some tokens of a text that follow on each other are a stretch of its pieces: from the first of them
to the last one, with the blanks and comments in between.  A stretch can be put elsewhere in a text.
It begins with a token, so no directive is made of it where a line begins, and it ends with a token,
so it is found again before whatever goes on with no token.

What is put between stretches are keywords, punctuation, blanks and newlines, and these are found
where they stand when they do not grow together with what comes after them.

## Main definitions

* `separators` — characters that go on with no token.
* `Lexeme.opensWord` — a character that opens nothing but a word.
* `Lexeme.IsStretch` — pieces that go from the first of some tokens to the last one.

## Main results

* `Lexeme.exists_stretch` — **some tokens that follow on each other are a stretch of pieces.**
* `Lexeme.IsStretch.start_eq`, `Lexeme.IsStretch.stop_eq` — where a stretch lies.
* `Scrap.Chain.of_token`, `Scrap.Chain.before` — a stretch is found where a line begins, and before
  a separator.
* `Scrap.Chain.keyword`, `Scrap.Chain.blank`, `Scrap.Chain.newline` — what is put between stretches.
-/

namespace Mend

/-! ### Separators -/

/-- Characters that go on with no token. -/
def separators : List Char := [' ', '\n', '(', ')', '\x7b', '\x7d']

/-- No word and no number goes on with a separator. -/
theorem goesNowhere_of_separator {d : Char} (hd : separators.contains d = true) :
    (isWordChar d || d.isAlphanum || ['.', '+', '-', '/', '*'].contains d) = false := by
  have hall : separators.all (fun d => !(isWordChar d || d.isAlphanum ||
      ['.', '+', '-', '/', '*'].contains d)) = true := by decide +kernel
  simpa using List.all_eq_true.1 hall d (List.contains_iff_mem.1 hd)

/-- No token goes on with a separator. -/
theorem isSealed_of_separator {w r : Text} {d : Char} (hw : w ≠ [])
    (hd : separators.contains d = true) : IsSealed w (d :: r) := by
  have htail : separators.all (fun d => punctuators.all fun p => !p.1.toList.tail.contains d) =
      true := by decide
  rintro c ⟨⟩
  exact goesOn_of_tail hw (goesNowhere_of_separator hd)
    (List.all_eq_true.1 htail d (List.contains_iff_mem.1 hd))

namespace Lexeme

variable {b : Bool} {c : Char} {w t : Text} {n : Nat} {k : TokenKind} {ls xs ys mid : List Lexeme}
  {l : Lexeme} {tok : Token} {pre ts post : List Token}

/-! ### Keywords -/

/-- A character that opens nothing but a word. -/
def opensWord (c : Char) : Bool :=
  !(c == '\n' || isBlank c || ['/', '#', '\x22', '\x27', '.'].contains c || c.isDigit) && isLetter c

/-- The letters that keywords are made of. -/
def lowerCase : List Char := "abcdefghijklmnopqrstuvwxyz".toList

theorem isWord_of_mem_lowerCase (h : c ∈ lowerCase) :
    opensWord c = true ∧ isWordChar c = true := by
  have hall : lowerCase.all (fun c => opensWord c && isWordChar c) = true := by decide +kernel
  exact (Bool.and_eq_true _ _).mp (List.all_eq_true.1 hall c h)

theorem scan_of_opensWord (h : opensWord c = true) :
    scan b c t = .ok (.token ((TokenKind.keyword?
      (String.ofList (c :: t.take (restOfWord t)))).getD .identifier), restOfWord t) := by
  simp only [opensWord, Bool.and_eq_true, Bool.not_eq_true', Bool.or_eq_false_iff,
    beq_eq_false_iff_ne, List.contains_cons, List.contains_nil] at h
  obtain ⟨⟨⟨⟨hnewline, hblank⟩, hslash, hsharp, hstring, hchar, hpoint, -⟩, hdigit⟩, hletter⟩ := h
  rw [scan, if_neg hnewline, if_neg (by simp [hblank]), if_neg (by simp [hslash]),
    if_neg (by simp [hslash]), if_neg (by simp [hsharp]), if_neg hstring, if_neg hchar,
    if_neg (by simp [hdigit, hpoint]), if_pos (.inr hletter)]

/-- A keyword is found when the word ends with it. -/
theorem scan_keyword (hc : opensWord c = true) (hw : w.all isWordChar = true)
    (hk : TokenKind.keyword? (String.ofList (c :: w)) = some k)
    (ht : ∀ d ∈ t.head?, isWordChar d = false) : scan b c (w ++ t) = .ok (.token k, w.length) := by
  have hlength : restOfWord (w ++ t) = w.length := by
    have hnone : t.takeWhile isWordChar = [] := by
      cases t with
      | nil => rfl
      | cons d t => rw [List.takeWhile_cons_of_neg (by simp [ht d rfl])]
    rw [restOfWord, List.takeWhile_append_of_pos (List.all_eq_true.1 hw), hnone, List.append_nil]
  rw [scan_of_opensWord hc, hlength, List.take_left, hk, Option.getD_some]

/-! ### Stretches -/

/-- The piece that a token is, among the pieces of a text. -/
theorem exists_of_filterMap_token? (h : ls.filterMap token? = pre ++ tok :: post) :
    ∃ front l rest, ls = front ++ l :: rest ∧ front.filterMap token? = pre ∧
      l.token? = some tok ∧ rest.filterMap token? = post := by
  obtain ⟨front, rest, rfl, hfront, hrest⟩ := List.filterMap_eq_append_iff.1 h
  obtain ⟨blanks, l, rest, rfl, hblanks, hl, hrest⟩ := List.filterMap_eq_cons_iff.1 hrest
  refine ⟨front ++ blanks, l, rest, by simp, ?_, hl, hrest⟩
  rw [List.filterMap_append, hfront, List.filterMap_eq_nil_iff.2 hblanks, List.append_nil]

/-- Pieces that go from the first of some tokens to the last one. -/
structure IsStretch (mid : List Lexeme) (ts : List Token) : Prop where
  /-- Their tokens. -/
  tokens_eq : mid.filterMap token? = ts
  /-- They begin with the first one. -/
  head_eq : mid.head?.bind token? = ts.head?
  /-- They end with the last one. -/
  last_eq : mid.getLast?.bind token? = ts.getLast?

/-- **Some tokens that follow on each other are a stretch of pieces.** -/
theorem exists_stretch (h : ls.filterMap token? = pre ++ (ts ++ post)) (hts : ts ≠ []) :
    ∃ front mid rest, ls = front ++ (mid ++ rest) ∧ front.filterMap token? = pre ∧
      IsStretch mid ts ∧ rest.filterMap token? = post := by
  obtain ⟨tok, ts, rfl⟩ := List.exists_cons_of_ne_nil hts
  obtain ⟨front, l, rest, rfl, hfront, hl, hrest⟩ := exists_of_filterMap_token? h
  rcases List.eq_nil_or_concat' ts with rfl | ⟨ts, last, rfl⟩
  · exact ⟨front, [l], rest, rfl, hfront, ⟨by simp [hl], hl, hl⟩, hrest⟩
  · have hrest : rest.filterMap token? = ts ++ last :: post := by simpa using hrest
    obtain ⟨inner, z, rest, rfl, hinner, hz, hrest⟩ := exists_of_filterMap_token? hrest
    refine ⟨front, l :: (inner ++ [z]), rest, by simp, hfront,
      ⟨by simp [hl, hinner, hz], hl, ?_⟩, hrest⟩
    rw [← List.cons_append, List.getLast?_concat, ← List.cons_append, List.getLast?_concat]
    exact hz

theorem isToken_scrap (h : l.token? = some tok) : l.scrap.IsToken := by
  unfold token? at h
  split at h
  next k hk => exact ⟨k, hk⟩
  next => cases h

/-- Pieces without tokens are no tokens. -/
theorem not_isToken_of_filterMap (h : ls.filterMap token? = []) :
    ∀ p ∈ ls.map scrap, ¬p.IsToken := by
  rintro p hp ⟨k, hk⟩
  obtain ⟨l, hl, rfl⟩ := List.mem_map.1 hp
  have hnone := List.filterMap_eq_nil_iff.1 h l hl
  rw [token?, show l.kind = .token k from hk] at hnone
  cases hnone

open Scrap in
/-- A token lies where the pieces before it end. -/
theorem span_eq_of_fill (xs ys : List Lexeme) (h : Fill 0 ls t) (hls : ls = xs ++ l :: ys)
    (hl : l.token? = some tok) : tok.span =
      ⟨(chars (xs.map scrap)).length, (chars (xs.map scrap)).length + l.scrap.text.length⟩ := by
  subst hls
  rw [(span_of_token?_eq_some hl).1, span, start_eq_of_fill h, Nat.zero_add]
  rfl

namespace IsStretch

open Scrap

theorem exists_head (h : IsStretch mid ts) (hts : ts ≠ []) :
    ∃ p ∈ (mid.map scrap).head?, p.IsToken := by
  have hhead := h.head_eq.trans (List.head?_eq_some_head hts)
  obtain ⟨l, hl, htok⟩ := Option.bind_eq_some_iff.1 hhead
  exact ⟨l.scrap, by rw [List.head?_map, hl]; rfl, isToken_scrap htok⟩

theorem exists_last (h : IsStretch mid ts) (hts : ts ≠ []) :
    ∃ p ∈ (mid.map scrap).getLast?, p.IsToken := by
  have hlast := h.last_eq.trans (List.getLast?_eq_some_getLast hts)
  obtain ⟨l, hl, htok⟩ := Option.bind_eq_some_iff.1 hlast
  exact ⟨l.scrap, by rw [List.getLast?_map, hl]; rfl, isToken_scrap htok⟩

/-- The first token of a stretch begins where the stretch does. -/
theorem start_eq (h : IsStretch mid ts) (htok : tok ∈ ts.head?) (xs ys : List Lexeme)
    (hfill : Fill 0 ls t) (hls : ls = xs ++ (mid ++ ys)) :
    tok.span.start = (chars (xs.map scrap)).length := by
  obtain ⟨l, hl, htok⟩ := Option.bind_eq_some_iff.1 (h.head_eq.trans htok)
  obtain ⟨mid, rfl⟩ := List.head?_eq_some_iff.1 hl
  rw [span_eq_of_fill xs (mid ++ ys) hfill hls htok]

/-- The last token of a stretch ends where the stretch does. -/
theorem stop_eq (h : IsStretch mid ts) (htok : tok ∈ ts.getLast?) (xs ys : List Lexeme)
    (hfill : Fill 0 ls t) (hls : ls = xs ++ (mid ++ ys)) :
    tok.span.stop = (chars (xs.map scrap)).length + (chars (mid.map scrap)).length := by
  obtain ⟨l, hlast, hl⟩ := Option.bind_eq_some_iff.1 (h.last_eq.trans htok)
  obtain ⟨mid, rfl⟩ := List.getLast?_eq_some_iff.1 hlast
  rw [span_eq_of_fill (xs ++ mid) ys hfill (by simp [hls]) hl]
  simp
  omega

end IsStretch

end Lexeme

/-! ### How tokens are spelled -/

/-- The piece that is a token. -/
def Scrap.ofWord (w : TokenKind × String) : Scrap := ⟨.token w.1, w.2.toList⟩

@[simp] theorem Scrap.token?_ofWord (w : TokenKind × String) : (ofWord w).token? = some w := by
  rw [token?, ofWord, String.ofList_toList]

/-- The piece that is a token with only one spelling. -/
def Scrap.mark (k : TokenKind) : Scrap := ofWord (k, k.spelling)

/-- Punctuation that no other punctuation begins with. -/
def Scrap.isLongest (k : TokenKind) : Bool :=
  match k.spelling.toList with
  | [] => false
  | c :: w => Lexeme.opensPunctuation c && decide (w.length ≤ 2) &&
      TokenKind.punctuator? (String.ofList (c :: w)) == some k &&
      punctuators.all fun p => !(c :: w).isPrefixOf p.1.toList || p.1.toList == c :: w

theorem Scrap.isLongest_of_mem {k : TokenKind} (h : k ∈ [.lParen, .rParen, .lBrace, .rBrace,
    .pipePipe, .ampAmp, .colonColon, .tilde, .comma, .semicolon]) : isLongest k = true := by
  have hall : [.lParen, .rParen, .lBrace, .rBrace, .pipePipe, .ampAmp, .colonColon, .tilde, .comma,
      .semicolon].all isLongest = true := by decide +kernel
  exact List.all_eq_true.1 hall k h

/-- A keyword in a chain is spelled like that. -/
theorem Scrap.Chain.mem_keywords {b : Bool} {ps : List Scrap} {r : Text} {p : Scrap}
    {k : TokenKind} (h : Chain b ps r) (hp : p ∈ ps) (hkind : p.kind = .token k)
    (hk : k.isKeyword = true) : (String.ofList p.text, k) ∈ keywords := by
  induction h with
  | nil => cases hp
  | cons hscan _ ih =>
    rcases List.mem_cons.1 hp with rfl | hp
    · obtain rfl : _ = LexemeClass.token k := hkind
      have hmem := Lexeme.mem_keywords_of_scan hscan hk
      rwa [List.take_left] at hmem
    · exact ih hp

namespace Lexeme

variable {b : Bool} {ps : List Scrap} {r : Text} {l : Lexeme} {tok : Token} {k : TokenKind}
  {s : String}

theorem scrap_eq_of_spelled (hl : l.token? = some tok) (hkind : tok.kind = k)
    (hs : l.scrap.kind = .token k → String.ofList l.scrap.text = s) :
    l.scrap = .ofWord (k, s) := by
  obtain ⟨k', o, u⟩ := l
  cases k' with
  | token k' =>
    obtain rfl : _ = tok := Option.some.inj hl
    obtain rfl : k' = k := hkind
    rw [← hs rfl, Scrap.ofWord, String.toList_ofList]
    rfl
  | _ => cases hl

/-- Punctuation that is spelled in one way only is spelled in this way. -/
theorem scrap_eq_of_punctuator (h : Scrap.Chain b ps r) (hl : l.token? = some tok)
    (hmem : l.scrap ∈ ps) (hkind : tok.kind = k) (hk : punctuators.any (·.2 == k) = true)
    (hs : ∀ p ∈ punctuators, p.2 = k → p.1 = s) : l.scrap = .ofWord (k, s) :=
  scrap_eq_of_spelled hl hkind fun hp => hs _ (h.mem_punctuators hmem hp hk) rfl

/-- A keyword that is spelled in one way only is spelled in this way. -/
theorem scrap_eq_of_keyword (h : Scrap.Chain b ps r) (hl : l.token? = some tok)
    (hmem : l.scrap ∈ ps) (hkind : tok.kind = k) (hk : k.isKeyword = true)
    (hs : ∀ p ∈ keywords, p.2 = k → p.1 = s) : l.scrap = .ofWord (k, s) :=
  scrap_eq_of_spelled hl hkind fun hp => hs _ (h.mem_keywords hmem hp hk) rfl

/-- A token is spelled like its piece. -/
theorem word_eq_of_scrap {w : TokenKind × String} (hl : l.token? = some tok)
    (hp : l.scrap = .ofWord w) : tok.word = w := by
  have hscrap := Scrap.token?_scrap l
  rw [hl, hp, Scrap.token?_ofWord] at hscrap
  exact (Option.some.inj hscrap).symm

end Lexeme

namespace Scrap

variable {b : Bool} {r r' w : Text} {ps : List Scrap} {p : Scrap} {k : TokenKind} {c : Char}

/-- A space. -/
def space : Scrap := ⟨.blank, [' ']⟩

/-- The end of a line. -/
def lineBreak : Scrap := ⟨.newline, ['\n']⟩

@[simp] theorem token?_space : space.token? = none := rfl

@[simp] theorem token?_lineBreak : lineBreak.token? = none := rfl

/-- Pieces that are no tokens have no words. -/
theorem filterMap_token?_eq_nil (h : ∀ p ∈ ps, ¬p.IsToken) : ps.filterMap token? = [] := by
  refine List.filterMap_eq_nil_iff.2 fun p hp => ?_
  unfold token?
  split
  next k hk => exact absurd ⟨k, hk⟩ (h p hp)
  next => rfl

namespace Chain

/-- What begins with a token is found where a line begins, and where none does. -/
theorem of_token (h : Chain b ps r) (hps : ∃ p ∈ ps.head?, p.IsToken) (b' : Bool) :
    Chain b' ps r := by
  obtain ⟨p, hp, k, hk⟩ := hps
  obtain ⟨ps, rfl⟩ := List.head?_eq_some_iff.1 hp
  cases h with
  | @cons _ k' c u _ _ hscan hrest =>
    obtain rfl : k' = .token k := hk
    exact .cons (Lexeme.scan_token_of_scan hscan b') hrest

/-- What ends with a token is found before a separator. -/
theorem before (h : Chain b ps r) (hps : ∃ p ∈ ps.getLast?, p.IsToken) {d : Char}
    (hd : separators.contains d = true) (t : Text) : Chain b ps (d :: t) :=
  h.congr (.inr hps) fun _ hw _ _ => .sealed (isSealed_of_separator hw hd)

/-- What ends with a token can be put before what begins with a separator. -/
theorem append_before {qs : List Scrap} (h : Chain b ps r') (hps : ∃ p ∈ ps.getLast?, p.IsToken)
    (hqs : Chain false (p :: qs) r) {d : Char} (hp : p.text.head? = some d)
    (hd : separators.contains d = true) : Chain b (ps ++ p :: qs) r := by
  obtain ⟨u, hu⟩ := List.head?_eq_some_iff.1 hp
  refine append_iff.2 ⟨?_, lineStartAfter_of_getLast? hps ▸ hqs⟩
  rw [chars_cons, hu]
  exact h.before hps hd _

/-- What was found before a separator is found before it again, whatever comes after that. -/
theorem before_same {d : Char} (h : Chain b ps (d :: r)) (hd : separators.contains d = true)
    (hne : d ≠ '\n') (r' : Text) : Chain b ps (d :: r') :=
  h.congr (.inl ⟨d, rfl, hne⟩) fun _ hw _ _ => .sealed (isSealed_of_separator hw hd)

/-- No token begins with the end of a line. -/
theorem head?_chars_ne_newline (h : Chain b ps r) (hps : ∃ p ∈ ps.head?, p.IsToken) :
    ∃ d ∈ (chars ps).head?, d ≠ '\n' := by
  obtain ⟨p, hp, k, hk⟩ := hps
  obtain ⟨ps, rfl⟩ := List.head?_eq_some_iff.1 hp
  cases h with
  | @cons _ k' c u _ _ hscan hrest =>
    obtain rfl : k' = .token k := hk
    obtain ⟨hne, -⟩ : ¬c = '\n' ∧ isBlank c = false ∧ (c = '#' → b = false) := by
      simpa using Lexeme.scan_cases hscan
    exact ⟨c, rfl, hne⟩

/-- Pieces without tokens are found before whatever does not end the line. -/
theorem of_blank (h : Chain b ps r) (hps : ∀ p ∈ ps, ¬p.IsToken) (hr : ∃ d ∈ r.head?, d ≠ '\n')
    (r' : Text) : Chain b ps r' :=
  h.congr (.inl hr) fun _ _ ⟨p, hp, htoken⟩ => absurd htoken (hps p hp)

/-- Punctuation that no other punctuation begins with, before anything. -/
theorem longest (h : Chain false ps r) (hk : isLongest k = true) : Chain b (mark k :: ps) r := by
  unfold isLongest at hk
  split at hk
  next => cases hk
  next c w hw =>
    simp only [Bool.and_eq_true, decide_eq_true_eq, beq_iff_eq, List.all_eq_true] at hk
    obtain ⟨⟨⟨hc, hlength⟩, hk⟩, hlongest⟩ := hk
    rw [mark, ofWord, hw]
    refine h.punctuation hc hlength hk ?_
    intro p hp hprefix
    have hp := hlongest p hp
    rw [List.isPrefixOf_iff_prefix.2 hprefix] at hp
    simpa using hp

/-- A keyword of lower-case letters before a separator. -/
theorem keyword (h : Chain false ps r) (hw : (c :: w).all Lexeme.lowerCase.contains = true)
    (hk : TokenKind.keyword? (String.ofList (c :: w)) = some k)
    (hnext : ∀ d ∈ (chars ps ++ r).head?, separators.contains d = true) :
    Chain b (⟨.token k, c :: w⟩ :: ps) r := by
  have hword (d : Char) (hd : d ∈ c :: w) : Lexeme.opensWord d = true ∧ isWordChar d = true :=
    Lexeme.isWord_of_mem_lowerCase (List.contains_iff_mem.1 (List.all_eq_true.1 hw d hd))
  refine .cons (Lexeme.scan_keyword (hword c List.mem_cons_self).1 ?_ hk ?_) h
  · exact List.all_eq_true.2 fun d hd => (hword d (List.mem_cons_of_mem c hd)).2
  · intro d hd
    have hnone := goesNowhere_of_separator (hnext d hd)
    simp only [Bool.or_eq_false_iff] at hnone
    exact hnone.1.1

/-- A space. -/
theorem blank (h : Chain b ps r) : Chain b (space :: ps) r :=
  .cons (Lexeme.scan_blank (by decide) (by decide) _) h

/-- The end of a line. -/
theorem newline (h : Chain true ps r) : Chain b (lineBreak :: ps) r :=
  .cons rfl h

end Chain

end Scrap

/-- A keyword that is spelled in one way only is spelled in this way in a text. -/
theorem Lexed.word_of_keyword {t : Text} {L : Lexed} {tok : Token} {k : TokenKind} {s : String}
    (hL : Lexed.ofText t = .ok L) (hmem : tok ∈ L.tokens) (hkind : tok.kind = k)
    (hk : k.isKeyword = true) (hs : ∀ p ∈ keywords, p.2 = k → p.1 = s) : tok.word = (k, s) := by
  obtain ⟨ls, hchain, -, htokens⟩ := Scrap.exists_chain_of_ofText hL
  rw [htokens] at hmem
  obtain ⟨l, hl, htok⟩ := List.mem_filterMap.1 hmem
  exact Lexeme.word_eq_of_scrap htok
    (Lexeme.scrap_eq_of_keyword hchain htok (List.mem_map_of_mem hl) hkind hk hs)

end Mend
