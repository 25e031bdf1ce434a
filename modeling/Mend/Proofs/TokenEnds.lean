import Mend.Proofs.IncludeLines
import Mend.Proofs.ScopesAtTokens

/-!
# Tokens end with no blank

A blank stands in a literal at most, and a literal ends with its quotation mark.  So the last
character of a token is not blank: where nothing but blanks stands before an offset, back to another
one, no token reaches beyond that other one.

## Main results

* `isBlank_eq_false_of` — characters that are not blank are told by a test of all blanks.
* `Lexeme.isBlank_of_getLast?` — **the last character of a token is not blank.**
* `SourceCode.tokenStop_le_of_blank` — no token reaches into blanks.
-/

namespace Mend

/-- The codes of the blanks. -/
def blankCodes : List Nat :=
  [0x9, 0xA, 0xB, 0xC, 0xD, 0x20, 0x85, 0xA0, 0x1680, 0x2000, 0x2001, 0x2002, 0x2003, 0x2004,
    0x2005, 0x2006, 0x2007, 0x2008, 0x2009, 0x200A, 0x2028, 0x2029, 0x202F, 0x205F, 0x3000]

/-- A class holds the characters of its first run, and of those that follow. -/
theorem CharClass.mem_cons_cons {n a b : Nat} {rest : CharClass} :
    mem n (a :: b :: rest) = true ↔ a ≤ n ∧ (n < b ∨ mem n rest = true) := by
  rw [mem, mem]
  by_cases ha : n < a
  · simp [ha]
  · by_cases hb : n < b <;> simp [ha, hb, Nat.le_of_not_lt]

theorem toNat_mem_blankCodes {c : Char} (h : isBlank c = true) : c.toNat ∈ blankCodes := by
  unfold isBlank blanks at h
  simp only [CharClass.mem_cons_cons] at h
  simp only [CharClass.mem, Bool.false_eq_true, or_false] at h
  simp only [blankCodes, List.mem_cons, List.not_mem_nil, or_false]
  omega

/-- A character that passes a test which no blank passes is not blank. -/
theorem isBlank_eq_false_of {p : Char → Bool} {c : Char} (hc : p c = true)
    (hp : (blankCodes.map Char.ofNat).any p = false) : isBlank c = false := by
  rw [Bool.eq_false_iff]
  intro hblank
  have hmem : Char.ofNat c.toNat ∈ blankCodes.map Char.ofNat :=
    List.mem_map_of_mem (toNat_mem_blankCodes hblank)
  rw [Char.ofNat_toNat] at hmem
  exact absurd hc (List.any_eq_false.1 hp c hmem)

namespace Lexeme

variable {b hex : Bool} {c q last : Char} {n : Nat} {t u r : Text} {k : TokenKind}

/-- A literal ends with its quotation mark. -/
theorem getLast?_of_restOfLiteral? (h : restOfLiteral? q t = some n) :
    (t.take n).getLast? = some q := by
  fun_induction restOfLiteral? q t generalizing n with
  | case1 | case2 => cases h
  | case3 d rest ih =>
    obtain ⟨m, hm, rfl⟩ := Option.map_eq_some_iff.1 h
    rw [List.take_succ_cons, List.take_succ_cons, List.getLast?_cons, List.getLast?_cons, ih hm]
    rfl
  | case4 rest hnewline _ =>
    cases h
    rfl
  | case5 d rest hnewline _ _ ih =>
    obtain ⟨m, hm, rfl⟩ := Option.map_eq_some_iff.1 h
    rw [List.take_succ_cons, List.getLast?_cons, ih hm]
    rfl

/-- No blank stands in a number. -/
theorem isBlank_of_mem_number : ∀ d ∈ t.take (restOfNumber hex last t), isBlank d = false := by
  induction t generalizing last with
  | nil => exact fun d hd => absurd hd List.not_mem_nil
  | cons c t ih =>
    rw [restOfNumber]
    split
    next hc =>
      rw [List.take_succ_cons]
      refine List.forall_mem_cons.2 ⟨?_, ih⟩
      refine isBlank_eq_false_of
        (p := fun c => c.isAlphanum || c == '_' || c == '.' || c == '+' || c == '-') ?_ (by decide)
      simp only [Bool.or_eq_true, beq_iff_eq]
      rcases hc with hc | hc | hc | ⟨hc | hc, -⟩ <;> simp [hc]
    next => exact fun d hd => absurd hd List.not_mem_nil

/-- No blank stands in a word. -/
theorem isBlank_of_isWordChar (hc : isWordChar c = true) : isBlank c = false :=
  isBlank_eq_false_of hc (by decide +kernel)

/-- **The last character of a token is not blank.** -/
theorem isBlank_of_getLast? (h : scan b c (u ++ r) = .ok (.token k, u.length)) :
    ∀ d ∈ (c :: u).getLast?, isBlank d = false := by
  have htake : (u ++ r).take u.length = u := List.take_left
  rcases scan_token_cases h with ⟨-, hquote, hn⟩ | ⟨-, hc, hn⟩ | ⟨-, hc, hn⟩ | ⟨hp, -⟩
  · have hlast := getLast?_of_restOfLiteral? hn
    rw [htake] at hlast
    intro d hd
    rw [List.getLast?_cons, hlast] at hd
    obtain rfl : c = d := Option.some.inj hd
    rcases hquote with rfl | rfl
    · decide
    · decide
  all_goals
    suffices hall : ∀ d ∈ c :: u, isBlank d = false from
      fun d hd => hall d (List.mem_of_mem_getLast? hd)
  · refine List.forall_mem_cons.2 ⟨?_, ?_⟩
    · refine isBlank_eq_false_of (p := fun c => c.isDigit || c == '.') ?_ (by decide)
      simpa using hc
    · rw [← htake, hn]
      exact isBlank_of_mem_number
  · refine List.forall_mem_cons.2 ⟨isBlank_of_isWordChar hc, ?_⟩
    intro d hd
    rw [← htake, hn, restOfWord, ← List.prefix_iff_eq_take.1 (List.takeWhile_prefix _)] at hd
    exact isBlank_of_isWordChar (List.all_eq_true.1 List.all_takeWhile d hd)
  · have hblank : punctuators.all (fun p => p.1.toList.all (! isBlank ·)) = true := by decide
    have hword := List.all_eq_true.1 hblank _ hp
    rw [String.toList_ofList, htake] at hword
    simpa using hword

end Lexeme

/-- The last character of a piece of a text. -/
theorem Text.getLast?_slice {t : Text} {s : Span} (hs : s.start < s.stop) (ht : s.stop ≤ t.length) :
    (slice t s).getLast? = t[s.stop - 1]? := by
  rw [slice, List.getLast?_eq_getElem?, List.length_drop, List.length_take_of_le ht,
    List.getElem?_drop, List.getElem?_take_of_lt (by omega)]
  congr 1
  omega

namespace SourceCode

variable {c : SourceCode} {text : Text} {i o e : Nat}

/-- The last character of a token of a text is not blank. -/
theorem isBlank_before_tokenStop (hc : ofText text = .ok c) (hi : i < c.tokens.size) :
    ∃ d, c.text[c.tokenStop i - 1]? = some d ∧ isBlank d = false := by
  have hlt := tokenStart_lt_tokenStop hc hi
  have hstop := ((isOrdered_of_ofText_eq_ok hc).tokenSpan i).2
  have hspan : c.tokens[i].span = ⟨c.tokenStart i, c.tokenStop i⟩ := by
    simp only [tokenStart, tokenStop, Array.getElem?_eq_getElem hi]
    rfl
  have hend : (Text.slice c.text c.tokens[i].span).getLast? = c.text[c.tokenStop i - 1]? := by
    rw [hspan]
    exact Text.getLast?_slice hlt hstop
  rw [← hend]
  obtain ⟨L, p, hL, -, rfl⟩ := ofText_eq_ok_iff.1 hc
  have hmem : L.tokens.toArray[i] ∈ L.tokens := by simp
  obtain ⟨b, d, u, r, hchars, hscan⟩ := Lexed.exists_scan_of_mem_tokens hL hmem
  have hslice : Text.slice text L.tokens.toArray[i].span = d :: u := by
    obtain ⟨ls, hls, rfl⟩ := Lexed.exists_split_of_ofText hL
    obtain ⟨l, hl, htoken⟩ := List.mem_filterMap.1 hmem
    obtain ⟨-, hpiece, hspelling⟩ := Lexeme.eq_of_token? htoken
    rw [hpiece, (Lexeme.slice_span_of_split hls hl).2, ← hspelling, hchars]
  show ∃ e, (Text.slice text L.tokens.toArray[i].span).getLast? = some e ∧ isBlank e = false
  rw [hslice]
  have hlength : (d :: u).getLast? = some ((d :: u).getLast (List.cons_ne_nil d u)) :=
    List.getLast?_eq_some_getLast _
  exact ⟨_, hlength, Lexeme.isBlank_of_getLast? hscan _ hlength⟩

/-- **No token reaches into blanks.** -/
theorem tokenStop_le_of_blank (hc : ofText text = .ok c) (hi : i < c.tokens.size)
    (he : c.tokenStop i ≤ e) (hblank : (c.slice ⟨o, e⟩).all isBlank = true) :
    c.tokenStop i ≤ o := by
  have hlt := tokenStart_lt_tokenStop hc hi
  obtain ⟨d, hd, hnot⟩ := isBlank_before_tokenStop hc hi
  by_contra hlast
  have hmem : d ∈ c.slice ⟨o, e⟩ := by
    rw [slice, Text.slice, List.mem_iff_getElem?]
    refine ⟨c.tokenStop i - 1 - o, ?_⟩
    rw [List.getElem?_drop, List.getElem?_take_of_lt (by dsimp only; omega), ← hd]
    congr 1
    dsimp only
    omega
  exact absurd (List.all_eq_true.1 hblank d hmem) (by simp [hnot])

end SourceCode

end Mend
