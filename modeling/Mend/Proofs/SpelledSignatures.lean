import Mend.Fix.Member
import Mend.Proofs.SpacedTokens

/-!
# How signatures are spelled

A function is declared by its return type, its name and its parameters.  A type is spelled with
words, which are keywords or names, and with signs after them.  Spaces stand between words, between
a word and a sign, and between a type without signs and a name; elsewhere there are none.

What is spelled like that falls into the tokens of its parts.  A word ends at every character that
may come after it, and the signs are taken from the left, two references as one token.

## Main definitions

* `TypeWord`, `TypeSpelling`, `NameSpelling`, `ParameterSpelling`, `SignatureSpelling` — the parts,
  each with its pieces, its tokens and what it spells.
* `IsSound` — made of tokens that the lexer finds, in an order in which they can be read.

## Main results

* `Scrap.chain_intercalate` — parts with separators between them are a chain.
* `SignatureSpelling.chars_scraps` — the pieces of a signature are the text of its declaration.
* `SignatureSpelling.chain_scraps` — **the text of a declaration falls into these pieces.**
-/

namespace Mend

/-! ### Lists with separators -/

section

variable {α β : Type} {sep xs : List α} {xss : List (List α)}

/-- After the first part, each part comes with a separator before it. -/
theorem intercalate_cons_eq_append (sep xs : List α) (xss : List (List α)) :
    sep.intercalate (xs :: xss) = xs ++ xss.flatMap (sep ++ ·) := by
  induction xss generalizing xs with
  | nil => simp
  | cons ys xss ih =>
    rw [List.intercalate_cons_cons, ih, List.flatMap_cons, List.append_assoc, List.append_assoc]

theorem intercalate_nil_eq_flatten (xss : List (List α)) :
    ([] : List α).intercalate xss = xss.flatten := by
  cases xss with
  | nil => rfl
  | cons xs xss => simp [intercalate_cons_eq_append, List.flatMap]

/-- What is done part by part is done to the parts and to the separators. -/
theorem map_intercalate {f : List α → List β} (hnil : f [] = [])
    (happend : ∀ xs ys, f (xs ++ ys) = f xs ++ f ys) (sep : List α) (xss : List (List α)) :
    f (sep.intercalate xss) = (f sep).intercalate (xss.map f) := by
  cases xss with
  | nil => exact hnil
  | cons xs xss =>
    rw [List.map_cons, intercalate_cons_eq_append, intercalate_cons_eq_append, happend,
      List.flatMap_map]
    congr 1
    induction xss with
    | nil => exact hnil
    | cons ys xss ih => rw [List.flatMap_cons, List.flatMap_cons, happend, happend, ih]

theorem filterMap_intercalate (f : α → Option β) (sep : List α) (xss : List (List α)) :
    (sep.intercalate xss).filterMap f =
      (sep.filterMap f).intercalate (xss.map fun xs => xs.filterMap f) :=
  map_intercalate List.filterMap_nil (fun _ _ => List.filterMap_append) sep xss

theorem subset_intercalate (h : xs ∈ xss) : xs ⊆ sep.intercalate xss := by
  cases xss with
  | nil => cases h
  | cons ys xss =>
    rw [intercalate_cons_eq_append]
    rcases List.mem_cons.1 h with rfl | h
    · exact List.subset_append_left _ _
    · exact fun a ha => List.mem_append_right _
        (List.mem_flatMap.2 ⟨xs, h, List.mem_append_right _ ha⟩)

/-- Parts with separators between them end with the last part. -/
theorem exists_getLast?_intercalate {P : α → Prop} (hne : xss ≠ [])
    (h : ∀ xs ∈ xss, ∃ a ∈ xs.getLast?, P a) : ∃ a ∈ (sep.intercalate xss).getLast?, P a := by
  induction xss with
  | nil => exact absurd rfl hne
  | cons xs xss ih =>
    obtain ⟨hxs, hrest⟩ := List.forall_mem_cons.1 h
    cases xss with
    | nil => simpa using hxs
    | cons ys xss =>
      obtain ⟨a, ha, hP⟩ := ih (List.cons_ne_nil _ _) hrest
      rw [List.intercalate_cons_cons]
      exact ⟨a, List.mem_getLast?_append_of_mem_getLast? ha, hP⟩

end

/-! ### Tokens and separators -/

namespace Scrap

theorem filterMap_token?_map_ofWord (ws : List (TokenKind × String)) :
    (ws.map ofWord).filterMap token? = ws := by
  rw [List.filterMap_map]
  refine (List.filterMap_congr fun w _ => token?_ofWord w).trans ?_
  exact List.filterMap_some

@[simp] theorem token?_mark (k : TokenKind) : (mark k).token? = some (k, k.spelling) :=
  token?_ofWord _

theorem filterMap_token?_map_mark (ks : List TokenKind) :
    (ks.map mark).filterMap token? = ks.map fun k => (k, k.spelling) := by
  rw [← filterMap_token?_map_ofWord (ks.map _), List.map_map]
  rfl

end Scrap

/-- A character at which every word ends. -/
def isStop (c : Char) : Bool := [' ', ',', '(', ')', ';', ':'].contains c

/-- A text that begins with no character of a word. -/
def Text.Stops (t : Text) : Prop := ∀ c ∈ t.head?, isStop c = true

theorem Text.stops_cons {c : Char} (h : isStop c = true) (t : Text) : Text.Stops (c :: t) := by
  intro d hd
  obtain rfl : c = d := Option.some.inj hd
  exact h

/-- A word, wherever the lexer finds it, is made of the characters of words. -/
theorem Scrap.IsFound.isWordChar {k : TokenKind} {t : Text}
    (h : IsFound ⟨.token k, t⟩) (hk : k = .identifier ∨ k.isKeyword = true) :
    t ≠ [] ∧ ∀ c ∈ t, isWordChar c = true := by
  obtain ⟨k', b, c, u, r, heq, hscan⟩ := h
  obtain ⟨hkind, rfl⟩ : LexemeClass.token k = .token k' ∧ t = c :: u := by
    rw [Scrap.mk.injEq] at heq
    exact heq
  obtain rfl : k = k' := LexemeClass.token.inj hkind
  refine ⟨List.cons_ne_nil c u, ?_⟩
  have hmarks : punctuators.all (fun p => p.2 != .identifier && !p.2.isKeyword) = true := by decide
  rcases Lexeme.scan_token_cases hscan with ⟨rfl | rfl, -⟩ | ⟨rfl, -⟩ | ⟨-, hc, hu⟩ | ⟨hmem, -⟩
  · exact absurd hk (by decide)
  · exact absurd hk (by decide)
  · exact absurd hk (by decide)
  · refine List.forall_mem_cons.2 ⟨hc, fun d hd => ?_⟩
    have htake : u = (u ++ r).takeWhile Mend.isWordChar := by
      rw [List.prefix_iff_eq_take.1 (List.takeWhile_prefix _), ← Lexeme.restOfWord, ← hu,
        List.take_left]
    rw [htake] at hd
    exact List.all_eq_true.1 List.all_takeWhile d hd
  · have hmark := List.all_eq_true.1 hmarks _ hmem
    simp only [Bool.and_eq_true, bne_iff_ne, Bool.not_eq_true'] at hmark
    simp [hmark] at hk

/-- No word goes on with a character that ends it. -/
theorem goesOn_of_isStop {c d : Char} {u : Text} (hc : isWordChar c = true)
    (hd : isStop d = true) : goesOn (c :: u) d = false := by
  have hmarks : punctuators.all (fun p => p.1.toList.head?.all fun c => !isWordChar c) = true := by
    decide +kernel
  refine goesOn_eq_false ?_ fun p hp hprefix => ?_
  · have hstops : [' ', ',', '(', ')', ';', ':'].all (fun d =>
        !(isWordChar d || d.isAlphanum || ['.', '+', '-', '/', '*'].contains d)) = true := by
      decide +kernel
    have hnone := List.all_eq_true.1 hstops d (List.contains_iff_mem.1 hd)
    rwa [Bool.not_eq_true'] at hnone
  · obtain ⟨v, hv⟩ := hprefix
    have hnone := List.all_eq_true.1 hmarks p hp
    rw [← hv] at hnone
    simp [hc] at hnone

namespace Scrap

variable {b : Bool} {r : Text} {w : TokenKind × String} {ps : List Scrap}

/-- A word is found wherever it ends. -/
theorem chain_word (h : (ofWord w).IsFound) (hk : w.1 = .identifier ∨ w.1.isKeyword = true)
    (hr : r.Stops) : Chain b [ofWord w] r := by
  have hchars := (h.isWordChar hk).2
  obtain ⟨k, b', c, u, r', heq, hscan⟩ := h
  rw [heq]
  have hc : isWordChar c = true := by
    obtain ⟨-, htext⟩ : LexemeClass.token w.1 = .token k ∧ w.2.toList = c :: u := by
      rw [ofWord, Scrap.mk.injEq] at heq
      exact heq
    exact hchars c (htext ▸ List.mem_cons_self)
  refine .cons (Lexeme.scan_anywhere hscan ?_ b) (.nil _ _)
  exact fun d hd => goesOn_of_isStop hc (hr d hd)

theorem chain_space (b : Bool) (r : Text) : Chain b [space] r :=
  Chain.blank (.nil _ _)

/-- Punctuation that no other punctuation begins with is found whatever comes after it. -/
theorem chain_mark {k : TokenKind} (h : isLongest k = true) (b : Bool) (r : Text) :
    Chain b [mark k] r :=
  .longest (.nil _ _) h

theorem chain_mark_cons {k : TokenKind} (hk : isLongest k = true) (hps : ∀ b, Chain b ps r)
    (b : Bool) : Chain b (mark k :: ps) r :=
  Chain.append_iff.2 ⟨chain_mark hk b _, hps _⟩

/-- Punctuation of one character is found where no longer one can be meant. -/
theorem chain_sign {k : TokenKind} {c : Char} (next : List Char) (hk : k.spelling.toList = [c])
    (hc : Lexeme.opensPunctuation c = true)
    (hfound : TokenKind.punctuator? (String.ofList [c]) = some k)
    (hnext : punctuators.all (fun p => p.1.toList.head? != some c || p.1.toList == [c] ||
      p.1.toList.tail.head?.any next.contains) = true)
    (hr : ∀ d ∈ r.head?, d ∉ next) : Chain b [mark k] r := by
  have hscan : Lexeme.scanPunctuator? c ([] ++ r) = some (k, ([] : Text).length) := by
    refine Lexeme.scanPunctuator?_of_maximal (Nat.zero_le 2) hfound ?_
    intro p hp hprefix hopens
    have hp := List.all_eq_true.1 hnext p hp
    obtain ⟨v, hv⟩ := hprefix
    rw [← hv] at hp hopens ⊢
    cases v with
    | nil => rfl
    | cons d v =>
      -- a longer one would go on with the next character
      obtain ⟨-, u, hu⟩ := List.cons_prefix_cons.1 hopens
      have hd : d ∈ r.head? := by
        rw [← List.nil_append r, ← hu]
        rfl
      exact absurd (by simpa using hp) (hr d hd)
  rw [mark, ofWord, hk]
  refine .cons (u := []) ?_ (.nil _ _)
  rw [Lexeme.scan_of_opensPunctuation hc, chars_nil, List.nil_append, hscan]

theorem chars_intercalate (sep : List Scrap) (pss : List (List Scrap)) :
    chars (sep.intercalate pss) = (chars sep).intercalate (pss.map chars) :=
  map_intercalate chars_nil (fun _ _ => chars_append) sep pss

/-- **Parts with separators between them are a chain**, when each part is one before a character at
which words end, and the separator begins with such a character. -/
theorem chain_intercalate {sep : List Scrap} {pss : List (List Scrap)}
    (hsep : ∀ b r, Chain b sep r) (hstop : ∀ t, (chars sep ++ t).Stops)
    (hpss : ∀ ps ∈ pss, ∀ b r, r.Stops → Chain b ps r) (hr : r.Stops) (b : Bool) :
    Chain b (sep.intercalate pss) r := by
  induction pss generalizing b with
  | nil => exact .nil _ _
  | cons ps pss ih =>
    obtain ⟨hps, hrest⟩ := List.forall_mem_cons.1 hpss
    cases pss with
    | nil =>
      rw [List.intercalate_singleton]
      exact hps b r hr
    | cons qs pss =>
      rw [List.intercalate_cons_cons, List.append_assoc]
      refine Chain.append_iff.2 ⟨hps b _ ?_, Chain.append_iff.2 ⟨hsep _ _, ih hrest _⟩⟩
      rw [chars_append, List.append_assoc]
      exact hstop _

end Scrap

/-! ### Types -/

/-- A word of a type. -/
inductive TypeWord
  /-- A keyword. -/
  | keyword (kind : TokenKind) (spelling : String)
  /-- A name, with its qualifiers. -/
  | name (words : List String)

namespace TypeWord

/-- How a word is spelled. -/
def text : TypeWord → String
  | keyword _ spelling => spelling
  | name words => qualified words

/-- The tokens of a word. -/
def tokens : TypeWord → List (TokenKind × String)
  | keyword k spelling => [(k, spelling)]
  | name words => [(.colonColon, "::")].intercalate (words.map fun w => [(.identifier, w)])

/-- Whether a word is a keyword. -/
def isKeyword : TypeWord → Bool
  | keyword _ _ => true
  | name _ => false

/-- Whether a word names a type by itself. -/
def namesType : TypeWord → Bool
  | keyword k _ => k.isTypeKeyword
  | name _ => true

end TypeWord

/-- A keyword that is a part of the spelling of a type. -/
def TokenKind.isTypePart (k : TokenKind) : Bool :=
  k.isTypeKeyword || k == .kwConst || k == .kwVolatile

/-- The lexer finds a token of a kind with a spelling somewhere. -/
def TokenKind.Spells (k : TokenKind) (s : String) : Prop := (Scrap.ofWord (k, s)).IsFound

theorem TokenKind.spells_const : kwConst.Spells "const" :=
  ⟨.kwConst, true, 'c', ['o', 'n', 's', 't'], [], rfl, by decide +kernel⟩

/-- A word that can be read. -/
def TypeWord.IsSound : TypeWord → Prop
  | keyword k spelling => k.isTypePart = true ∧ k.Spells spelling
  | name words => words ≠ [] ∧ ∀ w ∈ words, TokenKind.identifier.Spells w

namespace TypeWord

variable {w : TypeWord}

/-- The pieces of a word. -/
def scraps : TypeWord → List Scrap
  | keyword k spelling => [Scrap.ofWord (k, spelling)]
  | name words => [Scrap.mark .colonColon].intercalate
      (words.map fun w => [Scrap.ofWord (.identifier, w)])

theorem filterMap_token?_scraps (w : TypeWord) : w.scraps.filterMap Scrap.token? = w.tokens := by
  cases w with
  | keyword k spelling => simp [scraps, tokens]
  | name words =>
    rw [scraps, filterMap_intercalate, List.map_map]
    refine congrArg₂ List.intercalate rfl (List.map_congr_left fun w _ => ?_)
    simp

theorem chars_scraps (w : TypeWord) : Scrap.chars w.scraps = w.text.toList := by
  cases w with
  | keyword k spelling => exact List.append_nil _
  | name words =>
    rw [scraps, Scrap.chars_intercalate, text, qualified, String.toList_intercalate,
      List.map_map]
    refine congrArg _ (List.map_congr_left fun w _ => ?_)
    exact List.append_nil _

theorem isKeyword_of_isTypePart {k : TokenKind} (h : k.isTypePart = true) : k.isKeyword = true := by
  revert h
  cases k <;> decide

/-- A word of a type ends with a character of words. -/
theorem IsSound.exists_getLast? (h : w.IsSound) :
    ∃ c ∈ w.text.toList.getLast?, isWordChar c = true := by
  have hword {k : TokenKind} {s : String} (hs : k.Spells s)
      (hk : k = .identifier ∨ k.isKeyword = true) :
      ∃ c ∈ s.toList.getLast?, isWordChar c = true := by
    obtain ⟨hne, hchars⟩ := Scrap.IsFound.isWordChar hs hk
    exact ⟨_, List.getLast?_eq_some_getLast hne, hchars _ (List.getLast_mem hne)⟩
  cases w with
  | keyword k spelling => exact hword h.2 (.inr (isKeyword_of_isTypePart h.1))
  | name words =>
    rw [text, qualified, String.toList_intercalate]
    refine exists_getLast?_intercalate (by simpa using h.1) ?_
    intro t ht
    obtain ⟨w, hw, rfl⟩ := List.mem_map.1 ht
    exact hword (h.2 w hw) (.inl rfl)

/-- A word of a type is found wherever words end. -/
theorem chain_scraps (h : w.IsSound) (b : Bool) {r : Text} (hr : r.Stops) :
    Scrap.Chain b w.scraps r := by
  cases w with
  | keyword k spelling => exact Scrap.chain_word h.2 (.inr (isKeyword_of_isTypePart h.1)) hr
  | name words =>
    have hstop (t : Text) : (Scrap.chars [Scrap.mark .colonColon] ++ t).Stops :=
      Text.stops_cons (c := ':') (by decide) _
    refine Scrap.chain_intercalate (Scrap.chain_mark (Scrap.isLongest_of_mem (by decide))) hstop
      (fun ps hps b r hr => ?_) hr b
    obtain ⟨w, hw, rfl⟩ := List.mem_map.1 hps
    exact Scrap.chain_word (h.2 w hw) (.inl rfl) hr

end TypeWord

/-- The signs of a type, taken from the left; two references are one token. -/
def signTokens : Text → List TokenKind
  | [] => []
  | '&' :: '&' :: t => .ampAmp :: signTokens t
  | '&' :: t => .amp :: signTokens t
  | _ :: t => .star :: signTokens t

/-- A sign of a type. -/
def isSign (c : Char) : Bool := c == '*' || c == '&'

/-- Neither a sign nor an equals sign is a character of a word. -/
theorem not_mem_of_isWordChar {c : Char} (h : isWordChar c = true) : c ∉ ['=', '&', '*'] := by
  have hall : ['=', '&', '*'].all (fun c => !isWordChar c) = true := by decide +kernel
  intro hmem
  simpa [h] using List.all_eq_true.1 hall c hmem

/-- A text that cannot go on with a sign. -/
def Text.EndsSigns (t : Text) : Prop := ∀ c ∈ t.head?, c ≠ '=' ∧ c ≠ '&'

theorem Text.Stops.endsSigns {t : Text} (h : t.Stops) : t.EndsSigns := by
  intro c hc
  have hstop := h c hc
  constructor
  all_goals
    rintro rfl
    revert hstop
    decide

theorem eq_star_of_isSign {c : Char} (h : isSign c = true) (hamp : c ≠ '&') : c = '*' := by
  simpa [isSign, hamp] using h

theorem chars_signTokens {t : Text} (h : t.all isSign = true) :
    Scrap.chars ((signTokens t).map Scrap.mark) = t := by
  fun_induction signTokens t with
  | case1 => rfl
  | case2 t ih =>
    simp only [List.all_cons, Bool.and_eq_true] at h
    rw [List.map_cons, Scrap.chars_cons, ih h.2.2]
    rfl
  | case3 t _ ih =>
    simp only [List.all_cons, Bool.and_eq_true] at h
    rw [List.map_cons, Scrap.chars_cons, ih h.2]
    rfl
  | case4 c t _ hamp ih =>
    simp only [List.all_cons, Bool.and_eq_true] at h
    obtain rfl : c = '*' := eq_star_of_isSign h.1 hamp
    rw [List.map_cons, Scrap.chars_cons, ih h.2]
    rfl

namespace Scrap

theorem opensPunctuation_of_isSign {c : Char} (h : isSign c = true) :
    Lexeme.opensPunctuation c = true := by
  have hall : ['*', '&'].all Lexeme.opensPunctuation = true := by decide +kernel
  exact List.all_eq_true.1 hall c (by simpa [isSign] using h)

theorem chain_amp (b : Bool) {r : Text} (hr : r.EndsSigns) : Chain b [mark .amp] r := by
  refine @chain_sign b r .amp '&' ['=', '&'] rfl (opensPunctuation_of_isSign rfl) rfl (by decide) ?_
  intro d hd
  simp [hr d hd]

theorem chain_star (b : Bool) {r : Text} (hr : ∀ d ∈ r.head?, d ≠ '=') :
    Chain b [mark .star] r := by
  refine @chain_sign b r .star '*' ['='] rfl (opensPunctuation_of_isSign rfl) rfl (by decide) ?_
  intro d hd
  simp [hr d hd]

/-- **Signs are found one after another.** -/
theorem chain_signTokens {t r : Text} (h : t.all isSign = true) (hr : r.EndsSigns)
    (b : Bool) : Chain b ((signTokens t).map mark) r := by
  fun_induction signTokens t generalizing b with
  | case1 => exact .nil _ _
  | case2 t ih =>
    simp only [List.all_cons, Bool.and_eq_true] at h
    exact Chain.append_iff.2 ⟨chain_mark (isLongest_of_mem (by decide)) b _, ih h.2.2 _⟩
  | case3 t hsingle ih =>
    simp only [List.all_cons, Bool.and_eq_true] at h
    refine Chain.append_iff.2 ⟨chain_amp b ?_, ih h.2 _⟩
    rw [chars_signTokens h.2]
    cases t with
    | nil => exact hr
    | cons c t =>
      intro d hd
      obtain rfl : c = d := Option.some.inj hd
      obtain ⟨hsign, -⟩ := Bool.and_eq_true_iff.1 h.2
      have hamp : c ≠ '&' := fun h => hsingle t (h ▸ rfl)
      exact ⟨eq_star_of_isSign hsign hamp ▸ by decide, hamp⟩
  | case4 c t _ hamp ih =>
    simp only [List.all_cons, Bool.and_eq_true] at h
    obtain rfl : c = '*' := eq_star_of_isSign h.1 hamp
    refine Chain.append_iff.2 ⟨chain_star b ?_, ih h.2 _⟩
    rw [chars_signTokens h.2]
    cases t with
    | nil => exact fun d hd => (hr d hd).1
    | cons c t =>
      rintro d hd rfl
      obtain rfl : c = '=' := Option.some.inj hd
      simp [isSign] at h

end Scrap

/-- A space comes behind a type unless its last character is a sign. -/
theorem SpelledType.beforeFunction_eq {T : SpelledType} {c : Char}
    (hc : c ∈ T.render.toList.getLast?) :
    T.beforeFunction = if isSign c then T.render else T.render ++ " " := by
  rw [beforeFunction, Option.mem_def.1 hc]
  split
  next heq => cases heq
  next heq =>
    obtain rfl := Option.some.inj heq
    rfl
  next heq =>
    obtain rfl := Option.some.inj heq
    rfl
  next c' hstar hamp heq =>
    obtain rfl : c = c' := Option.some.inj heq
    have hsign : isSign c = false := by
      simp only [isSign, Bool.or_eq_false_iff, beq_eq_false_iff_ne]
      exact ⟨hstar, hamp⟩
    rw [hsign, if_neg Bool.false_ne_true]

/-- A type, word by word. -/
structure TypeSpelling where
  /-- The words, in order. -/
  words : List TypeWord
  /-- The signs. -/
  signs : String

namespace TypeSpelling

variable {T : TypeSpelling} {b : Bool} {r : Text}

/-- The type that is spelled. -/
def type (T : TypeSpelling) : SpelledType := ⟨" ".intercalate (T.words.map TypeWord.text), T.signs⟩

/-- The pieces of a type. -/
def scraps (T : TypeSpelling) : List Scrap :=
  [Scrap.space].intercalate (T.words.map TypeWord.scraps) ++
    ((if T.words = [] ∨ T.signs = "" then [] else [Scrap.space]) ++
      (signTokens T.signs.toList).map Scrap.mark)

/-- The tokens of a type. -/
def tokens (T : TypeSpelling) : List (TokenKind × String) :=
  T.words.flatMap TypeWord.tokens ++
    (signTokens T.signs.toList).map fun k => (k, k.spelling)

/-- A type that can be read: after a word that names a type, no name is a part of it. -/
structure IsSound (T : TypeSpelling) : Prop where
  /-- The words can be read. -/
  words : ∀ w ∈ T.words, w.IsSound
  /-- A name comes before all words that name a type. -/
  ordered : T.words.Pairwise fun v w => v.namesType = true → w.isKeyword = true
  /-- The signs are signs. -/
  signs : T.signs.toList.all isSign = true

theorem filterMap_token?_scraps (T : TypeSpelling) :
    T.scraps.filterMap Scrap.token? = T.tokens := by
  have hspace : (if T.words = [] ∨ T.signs = "" then [] else [Scrap.space]).filterMap
      Scrap.token? = [] := by
    split <;> rfl
  have hwords : (T.words.map TypeWord.scraps).map (List.filterMap Scrap.token?) =
      T.words.map TypeWord.tokens := by
    rw [List.map_map]
    exact List.map_congr_left fun w _ => w.filterMap_token?_scraps
  rw [scraps, List.filterMap_append, List.filterMap_append, filterMap_intercalate, hspace,
    hwords, Scrap.filterMap_token?_map_mark, List.nil_append, tokens]
  refine congrArg (· ++ _) ?_
  rw [List.flatMap_def]
  exact intercalate_nil_eq_flatten _

namespace IsSound

/-- A type with words ends its base with a character of words. -/
theorem exists_getLast? (h : T.IsSound) (hne : T.words ≠ []) :
    ∃ c ∈ T.type.base.toList.getLast?, isWordChar c = true := by
  rw [type, String.toList_intercalate]
  refine exists_getLast?_intercalate (by simpa using hne) ?_
  intro t ht
  simp only [List.map_map, List.mem_map, Function.comp_apply] at ht
  obtain ⟨w, hw, rfl⟩ := ht
  exact (h.words w hw).exists_getLast?

theorem base_eq_empty_iff (h : T.IsSound) : T.type.base = "" ↔ T.words = [] := by
  constructor
  · intro hbase
    apply Decidable.byContradiction
    intro hne
    obtain ⟨c, hc, -⟩ := h.exists_getLast? hne
    rw [hbase] at hc
    cases hc
  · intro hnil
    rw [type, hnil]
    rfl

/-- **The pieces of a type are its text.** -/
theorem chars_scraps (h : T.IsSound) : Scrap.chars T.scraps = T.type.render.toList := by
  have hwords : Scrap.chars ([Scrap.space].intercalate (T.words.map TypeWord.scraps)) =
      T.type.base.toList := by
    rw [Scrap.chars_intercalate, type, String.toList_intercalate, List.map_map, List.map_map]
    exact congrArg _ (List.map_congr_left fun w _ => w.chars_scraps)
  have hbase := h.base_eq_empty_iff
  rw [scraps, Scrap.chars_append, Scrap.chars_append, hwords, chars_signTokens h.signs,
    SpelledType.render]
  simp only [String.isEmpty_iff]
  by_cases hsigns : T.signs = ""
  · rw [if_pos (.inr hsigns), if_pos (show T.type.signs = "" from hsigns), hsigns]
    exact List.append_nil _
  · rw [if_neg (show ¬T.type.signs = "" from hsigns)]
    by_cases hnil : T.words = []
    · rw [if_pos (.inl hnil), if_pos (hbase.2 hnil), hbase.2 hnil]
      rfl
    · rw [if_neg (by simp [hsigns, hnil]), if_neg (mt hbase.1 hnil), String.toList_append,
        String.toList_append, List.append_assoc]
      rfl

/-- **A type is found** where words end or, when it has signs, where signs end. -/
theorem chain_scraps (h : T.IsSound) (hr : if T.signs = "" then r.Stops else r.EndsSigns)
    (b : Bool) : Scrap.Chain b T.scraps r := by
  have hwords {r : Text} (hr : r.Stops) (b : Bool) :
      Scrap.Chain b ([Scrap.space].intercalate (T.words.map TypeWord.scraps)) r := by
    refine Scrap.chain_intercalate Scrap.chain_space
      (fun t => Text.stops_cons (c := ' ') (by decide) t) (fun ps hps b r hr => ?_) hr b
    obtain ⟨w, hw, rfl⟩ := List.mem_map.1 hps
    exact TypeWord.chain_scraps (h.words w hw) b hr
  rw [scraps]
  by_cases hsigns : T.signs = ""
  · rw [if_pos hsigns] at hr
    rw [if_pos (.inr hsigns), hsigns]
    exact Scrap.Chain.append_iff.2 ⟨hwords hr b, .nil _ _⟩
  · rw [if_neg hsigns] at hr
    have hchain := fun b => Scrap.chain_signTokens h.signs hr b
    by_cases hnil : T.words = []
    · rw [if_pos (.inl hnil), hnil]
      exact hchain b
    · rw [if_neg (by simp [hsigns, hnil])]
      refine Scrap.Chain.append_iff.2 ⟨hwords (Text.stops_cons (c := ' ') (by decide) _) b, ?_⟩
      exact Scrap.Chain.append_iff.2 ⟨Scrap.chain_space _ _, hchain _⟩

/-- A type ends with its last sign, or else with a character of a word. -/
theorem exists_getLast?_render (h : T.IsSound) (hne : ¬(T.words = [] ∧ T.signs = "")) :
    ∃ c ∈ T.type.render.toList.getLast?, isSign c = !T.signs.isEmpty := by
  by_cases hsigns : T.signs = ""
  · have hrender : T.type.render = T.type.base := if_pos (String.isEmpty_iff.2 hsigns)
    obtain ⟨c, hc, hword⟩ := h.exists_getLast? fun hnil => hne ⟨hnil, hsigns⟩
    refine ⟨c, hrender ▸ hc, ?_⟩
    rw [hsigns]
    have hnone := not_mem_of_isWordChar hword
    simp only [List.mem_cons, List.not_mem_nil, or_false, not_or] at hnone
    simp only [isSign, beq_eq_false_iff_ne.2 hnone.2.2, beq_eq_false_iff_ne.2 hnone.2.1]
    rfl
  · have hlast : T.signs.toList ≠ [] := by simpa using hsigns
    have hmem : T.signs.toList.getLast hlast ∈ T.signs.toList.getLast? :=
      List.getLast?_eq_some_getLast hlast
    refine ⟨T.signs.toList.getLast hlast, ?_, ?_⟩
    · rw [SpelledType.render, if_neg (by simpa [type] using hsigns)]
      split
      · exact hmem
      · rw [String.toList_append]
        exact List.mem_getLast?_append_of_mem_getLast? hmem
    · rw [List.all_eq_true.1 h.signs _ (List.getLast_mem hlast)]
      simpa using hsigns

/-- A space goes between a type and the name of a function unless the type ends with a sign or is
empty. -/
theorem beforeFunction (h : T.IsSound) : T.type.beforeFunction.toList = Scrap.chars T.scraps ++
    Scrap.chars (if T.words = [] ∨ T.signs ≠ "" then [] else [Scrap.space]) := by
  rw [h.chars_scraps]
  by_cases hempty : T.words = [] ∧ T.signs = ""
  · obtain ⟨hnil, hsigns⟩ := hempty
    have hrender : T.type.render = "" :=
      (if_pos (String.isEmpty_iff.2 hsigns)).trans (h.base_eq_empty_iff.2 hnil)
    rw [SpelledType.beforeFunction, hrender, if_pos (.inl hnil)]
    rfl
  · obtain ⟨c, hc, hsign⟩ := h.exists_getLast?_render hempty
    rw [SpelledType.beforeFunction_eq hc, hsign]
    by_cases hsigns : T.signs = ""
    · have hwords : T.words ≠ [] := fun hnil => hempty ⟨hnil, hsigns⟩
      rw [if_neg (by simp [hsigns]), if_neg (by simp [hwords, hsigns]), String.toList_append]
      rfl
    · rw [if_pos (by simpa using hsigns), if_pos (.inr hsigns), Scrap.chars_nil, List.append_nil]

end IsSound

end TypeSpelling

/-! ### Names -/

/-- The name of a function or of a parameter. -/
structure NameSpelling where
  /-- Whether it is the name of a destructor. -/
  isDestructor : Bool
  /-- The word. -/
  word : String

namespace NameSpelling

variable {N : NameSpelling} {b : Bool} {r : Text}

/-- How a name is spelled. -/
def text (N : NameSpelling) : String := if N.isDestructor then "~" ++ N.word else N.word

/-- The tokens of a name. -/
def tokens (N : NameSpelling) : List (TokenKind × String) :=
  (if N.isDestructor then [(.tilde, "~")] else []) ++ [(.identifier, N.word)]

/-- The pieces of a name. -/
def scraps (N : NameSpelling) : List Scrap := N.tokens.map Scrap.ofWord

/-- A name that can be read. -/
def IsSound (N : NameSpelling) : Prop := TokenKind.identifier.Spells N.word

theorem chars_scraps (N : NameSpelling) : Scrap.chars N.scraps = N.text.toList := by
  rw [scraps, tokens, text]
  split
  · rw [String.toList_append]
    simp [Scrap.ofWord]
  · simp [Scrap.ofWord]

theorem chain_scraps (h : N.IsSound) (hr : r.Stops) (b : Bool) : Scrap.Chain b N.scraps r := by
  have hword := fun b => Scrap.chain_word (b := b) h (.inl rfl) hr
  rw [scraps, tokens, List.map_append]
  split
  · exact Scrap.Chain.append_iff.2
      ⟨Scrap.chain_mark (k := .tilde) (Scrap.isLongest_of_mem (by decide)) b _, hword _⟩
  · exact hword b

/-- No sign goes on with a name. -/
theorem endsSigns (h : N.IsSound) (t : Text) : (Scrap.chars N.scraps ++ t).EndsSigns := by
  obtain ⟨hne, hchars⟩ := Scrap.IsFound.isWordChar h (.inl rfl)
  rw [chars_scraps, text]
  split
  · rw [String.toList_append]
    intro c hc
    obtain rfl : '~' = c := Option.some.inj hc
    decide
  · intro c hc
    rw [List.head?_append_of_ne_nil _ hne] at hc
    have hnone := not_mem_of_isWordChar (hchars c (List.mem_of_head? hc))
    simp only [List.mem_cons, not_or] at hnone
    exact ⟨hnone.1, hnone.2.1⟩

end NameSpelling

/-! ### Parameters -/

/-- A parameter. -/
structure ParameterSpelling where
  /-- The type. -/
  type : TypeSpelling
  /-- The name, if there is one. -/
  name : Option NameSpelling

namespace ParameterSpelling

variable {P : ParameterSpelling} {b : Bool} {r : Text}

/-- The parameter that is spelled. -/
def parameter (P : ParameterSpelling) : Parameter := ⟨P.type.type, P.name.map NameSpelling.text⟩

/-- The tokens of a parameter. -/
def tokens (P : ParameterSpelling) : List (TokenKind × String) :=
  P.type.tokens ++ (P.name.map NameSpelling.tokens).getD []

/-- The pieces of a parameter. -/
def scraps (P : ParameterSpelling) : List Scrap :=
  P.type.scraps ++ match P.name with
    | none => []
    | some N => (if P.type.signs = "" then [Scrap.space] else []) ++ N.scraps

/-- A parameter that can be read.  A name right after the words is not one of them only if the words
name a type, or if it is the name of a destructor. -/
structure IsSound (P : ParameterSpelling) : Prop where
  /-- The type can be read. -/
  type : P.type.IsSound
  /-- There are words. -/
  words_ne_nil : P.type.words ≠ []
  /-- The name can be read. -/
  name : ∀ N ∈ P.name, N.IsSound
  /-- The name is no part of the type. -/
  apart : ∀ N ∈ P.name, N.isDestructor = false → P.type.signs = "" →
    P.type.words.any TypeWord.namesType = true

theorem filterMap_token?_scraps (P : ParameterSpelling) :
    P.scraps.filterMap Scrap.token? = P.tokens := by
  rw [scraps, tokens, List.filterMap_append, TypeSpelling.filterMap_token?_scraps]
  cases P.name with
  | none => rfl
  | some N =>
    have hspace : (if P.type.signs = "" then [Scrap.space] else []).filterMap Scrap.token? =
        [] := by
      split <;> rfl
    simp only [List.filterMap_append, hspace, List.nil_append, Option.map_some, Option.getD_some]
    rw [NameSpelling.scraps, Scrap.filterMap_token?_map_ofWord]

theorem chars_scraps (h : P.IsSound) : Scrap.chars P.scraps = P.parameter.render.toList := by
  rw [scraps, Scrap.chars_append, h.type.chars_scraps, Parameter.render, parameter]
  cases P.name with
  | none => exact List.append_nil _
  | some N =>
    simp only [Option.map_some, String.isEmpty_iff, String.toList_append, Scrap.chars_append,
      N.chars_scraps, List.append_assoc]
    refine congrArg (_ ++ ·) (congrArg (· ++ _) ?_)
    show _ = (if P.type.signs = "" then " " else "").toList
    split <;> rfl

theorem chain_scraps (h : P.IsSound) (hr : r.Stops) (b : Bool) : Scrap.Chain b P.scraps r := by
  rw [scraps]
  cases hname : P.name with
  | none =>
    rw [List.append_nil]
    refine h.type.chain_scraps ?_ b
    split
    · exact hr
    · exact hr.endsSigns
  | some N =>
    have hN := h.name N hname
    by_cases hsigns : P.type.signs = ""
    · simp only [if_pos hsigns]
      refine Scrap.Chain.append_iff.2 ⟨h.type.chain_scraps ?_ b, ?_⟩
      · rw [if_pos hsigns]
        exact Text.stops_cons (c := ' ') (by decide) _
      · exact Scrap.Chain.append_iff.2
          ⟨Scrap.chain_space _ _, NameSpelling.chain_scraps hN hr _⟩
    · simp only [if_neg hsigns, List.nil_append]
      refine Scrap.Chain.append_iff.2
        ⟨h.type.chain_scraps ?_ b, NameSpelling.chain_scraps hN hr _⟩
      rw [if_neg hsigns]
      exact NameSpelling.endsSigns hN r

end ParameterSpelling

/-! ### Signatures -/

/-- A function, as it is declared. -/
structure SignatureSpelling where
  /-- What it returns. -/
  returnType : TypeSpelling
  /-- Its name. -/
  name : NameSpelling
  /-- Its parameters, in order. -/
  parameters : List ParameterSpelling
  /-- Whether `const` follows the parameters. -/
  isConst : Bool

namespace SignatureSpelling

variable {S : SignatureSpelling} {g : FunctionSymbol}

/-- A function is spelled like that. -/
structure Describes (S : SignatureSpelling) (g : FunctionSymbol) : Prop where
  /-- Its name. -/
  name : g.name = S.name.text
  /-- What it returns. -/
  returnType : g.returnType = S.returnType.type
  /-- Its parameters. -/
  parameters : g.parameters = S.parameters.map ParameterSpelling.parameter
  /-- Whether `const` follows the parameters. -/
  isConst : g.isConst = S.isConst

/-- A signature that can be read.  A single `void` would stand for no parameters. -/
structure IsSound (S : SignatureSpelling) : Prop where
  /-- The type can be read. -/
  returnType : S.returnType.IsSound
  /-- The name can be read. -/
  name : S.name.IsSound
  /-- The parameters can be read. -/
  parameters : ∀ P ∈ S.parameters, P.IsSound
  /-- The parameters stand for themselves. -/
  not_void : S.parameters.map ParameterSpelling.parameter ≠ [⟨.named "void", none⟩]

/-- The tokens of a declaration. -/
def tokens (S : SignatureSpelling) : List (TokenKind × String) :=
  S.returnType.tokens ++ (S.name.tokens ++ ((.lParen, "(") ::
    ([(.comma, ",")].intercalate (S.parameters.map ParameterSpelling.tokens) ++ ((.rParen, ")") ::
      ((if S.isConst then [(.kwConst, "const")] else []) ++ [(.semicolon, ";")])))))

/-- The pieces of a declaration. -/
def scraps (S : SignatureSpelling) : List Scrap :=
  S.returnType.scraps ++
    ((if S.returnType.words = [] ∨ S.returnType.signs ≠ "" then [] else [Scrap.space]) ++
      (S.name.scraps ++ (Scrap.mark .lParen ::
        ([Scrap.mark .comma, Scrap.space].intercalate (S.parameters.map ParameterSpelling.scraps) ++
          (Scrap.mark .rParen :: ((if S.isConst then [Scrap.space, Scrap.mark .kwConst] else []) ++
            [Scrap.mark .semicolon]))))))

theorem filterMap_token?_scraps (S : SignatureSpelling) :
    S.scraps.filterMap Scrap.token? = S.tokens := by
  have hspace : (if S.returnType.words = [] ∨ S.returnType.signs ≠ "" then []
      else [Scrap.space]).filterMap Scrap.token? = [] := by
    split <;> rfl
  have hparameters : (S.parameters.map ParameterSpelling.scraps).map (List.filterMap Scrap.token?) =
      S.parameters.map ParameterSpelling.tokens := by
    rw [List.map_map]
    exact List.map_congr_left fun P _ => P.filterMap_token?_scraps
  have hconst : (if S.isConst then [Scrap.space, Scrap.mark .kwConst] else []).filterMap
      Scrap.token? = if S.isConst then [(.kwConst, "const")] else [] := by
    split <;> rfl
  have hname : S.name.scraps.filterMap Scrap.token? = S.name.tokens :=
    Scrap.filterMap_token?_map_ofWord _
  simp only [scraps, List.filterMap_append, List.filterMap_cons_some (Scrap.token?_mark _),
    filterMap_intercalate, hspace, hparameters, hconst, hname,
    TypeSpelling.filterMap_token?_scraps, List.nil_append]
  rfl

/-- **The pieces of a signature are the text of its declaration.** -/
theorem chars_scraps (h : S.IsSound) (hg : S.Describes g) :
    Scrap.chars S.scraps = (g.signature g.name ++ ";").toList := by
  have hparameters : (S.parameters.map ParameterSpelling.scraps).map Scrap.chars =
      (g.parameters.map Parameter.render).map String.toList := by
    rw [hg.parameters, List.map_map, List.map_map, List.map_map]
    exact List.map_congr_left fun P hP => ParameterSpelling.chars_scraps (h.parameters P hP)
  have hconst : Scrap.chars (if S.isConst then [Scrap.space, Scrap.mark .kwConst] else []) =
      (if g.isConst then " const" else "").toList := by
    rw [hg.isConst]
    split <;> rfl
  simp only [FunctionSymbol.signature, FunctionSymbol.parameterText, String.toList_append,
    String.toList_intercalate, hg.returnType, h.returnType.beforeFunction, hg.name,
    ← S.name.chars_scraps, ← hparameters, ← hconst]
  simp only [scraps, Scrap.chars_append, Scrap.chars_cons, Scrap.chars_intercalate,
    List.append_assoc]
  rfl

/-- **The text of a declaration falls into these pieces.** -/
theorem chain_scraps (h : S.IsSound) (b : Bool) : Scrap.Chain b S.scraps [] := by
  let after : List Scrap := Scrap.mark .rParen ::
    ((if S.isConst then [Scrap.space, Scrap.mark .kwConst] else []) ++ [Scrap.mark .semicolon])
  let list : List Scrap :=
    [Scrap.mark .comma, Scrap.space].intercalate (S.parameters.map ParameterSpelling.scraps)
  have hafter : ∀ b, Scrap.Chain b after [] := by
    refine Scrap.chain_mark_cons (Scrap.isLongest_of_mem (by decide)) fun b => ?_
    have hsemicolon : ∀ b, Scrap.Chain b [Scrap.mark .semicolon] [] :=
      fun b => Scrap.chain_mark (Scrap.isLongest_of_mem (by decide)) b _
    split
    · refine Scrap.Chain.append_iff.2 ⟨?_, hsemicolon _⟩
      refine Scrap.Chain.append_iff.2 ⟨Scrap.chain_space b _, ?_⟩
      exact Scrap.chain_word TokenKind.spells_const (.inr rfl)
        (Text.stops_cons (c := ';') (by decide) _)
    · exact hsemicolon b
  have hlist : ∀ b, Scrap.Chain b list (Scrap.chars after ++ []) := by
    refine Scrap.chain_intercalate (fun b r => ?_)
      (fun t => Text.stops_cons (c := ',') (by decide) _) (fun ps hps b r hr => ?_)
      (Text.stops_cons (c := ')') (by decide) _)
    · exact Scrap.Chain.append_iff.2
        ⟨Scrap.chain_mark (k := .comma) (Scrap.isLongest_of_mem (by decide)) b _,
          Scrap.chain_space _ _⟩
    · obtain ⟨P, hP, rfl⟩ := List.mem_map.1 hps
      exact ParameterSpelling.chain_scraps (h.parameters P hP) hr b
  have hname : ∀ b,
      Scrap.Chain b (S.name.scraps ++ (Scrap.mark .lParen :: (list ++ after))) [] := by
    refine fun b => Scrap.Chain.append_iff.2 ⟨NameSpelling.chain_scraps h.name ?_ b, ?_⟩
    · exact Text.stops_cons (c := '(') (by decide) _
    · exact Scrap.chain_mark_cons (Scrap.isLongest_of_mem (by decide))
        (fun b => Scrap.Chain.append_iff.2 ⟨hlist b, hafter _⟩) _
  rw [scraps]
  by_cases hsigns : S.returnType.signs = ""
  · by_cases hnil : S.returnType.words = []
    · -- a constructor or a destructor
      have hempty : S.returnType.scraps = [] := by
        simp [TypeSpelling.scraps, hnil, hsigns, signTokens]
      rw [hempty, if_pos (.inl hnil)]
      exact hname b
    · rw [if_neg (by simp [hsigns, hnil])]
      refine Scrap.Chain.append_iff.2 ⟨h.returnType.chain_scraps ?_ b, ?_⟩
      · rw [if_pos hsigns]
        exact Text.stops_cons (c := ' ') (by decide) _
      · exact Scrap.Chain.append_iff.2 ⟨Scrap.chain_space _ _, hname _⟩
  · rw [if_pos (.inr hsigns), List.nil_append]
    refine Scrap.Chain.append_iff.2 ⟨h.returnType.chain_scraps ?_ b, hname _⟩
    rw [if_neg hsigns, Scrap.chars_append, List.append_assoc]
    exact NameSpelling.endsSigns h.name _

end SignatureSpelling

end Mend
