import Mend.Fix.IntegerLiteral
import Mend.Proofs.JsonText

/-!
# Integers written in another base

What is written in one of the three bases is read back as the same value in the same base, whatever
letters tell its type after it.  The three spellings do not get into each other's way: the digits
of base sixteen hold no point and no sign of an exponent that would count there, a number of base
ten opens with a zero only if it is zero, and the sign of base sixteen is no digit of base eight.

## Main definitions

* `Radix.sign`, `Radix.digits` — how a base is told, and the digits of a value in it.
* `IntegerLiteral.typeLetters` — the letters that tell the type of an integer.

## Main results

* `valueAfter_map_toDigits` — the digits of a value spell it.
* `IntegerLiteral.read?_write_append` — **what is written in a base is read back.**
* `IntegerLiteral.conversions_keep_value` — **writing a literal in another base keeps its value,** and
  changes its base and its digits.
-/

namespace Mend

/-! ### Digits -/

/-- Digits are read whether they are written small or large. -/
theorem digitValue?_digitChar : ∀ d < 16,
    digitValue? d.digitChar = some d ∧ digitValue? d.digitChar.toUpper = some d := by
  decide

/-- The digits of base ten are the characters that stand for the numbers below ten. -/
theorem digitChar_of_digitValue? {c : Char} {d : Nat} (h : digitValue? c = some d) (hd : d < 10) :
    d.digitChar = c := by
  unfold digitValue? at h
  split at h
  next hdigit =>
    have hrange : 48 ≤ c.toNat ∧ c.toNat ≤ 57 := by
      simpa [Char.isDigit, UInt32.le_iff_toNat_le] using hdigit
    obtain rfl : c.toNat - 48 = d := Option.some.inj h
    apply Char.toNat_inj.1
    rw [Nat.toNat_digitChar_of_lt_ten hd]
    omega
  next =>
    -- a letter stands for ten at least
    split at h
    next => cases h; omega
    next =>
      split at h
      next => cases h; omega
      next => cases h

/-- Every digit of a value is the character of a number below the base. -/
theorem exists_of_mem_toDigits {b n : Nat} {c : Char} (hb : 1 < b) (h : c ∈ Nat.toDigits b n) :
    ∃ d < b, d.digitChar = c := by
  induction n using Nat.strongRecOn with
  | ind n ih =>
    rw [Nat.toDigits_eq_if hb] at h
    split at h
    next hn => exact ⟨n, hn, (List.mem_singleton.1 h).symm⟩
    next hn =>
      rcases List.mem_append.1 h with h | h
      · exact ih (n / b) (Nat.div_lt_self (by omega) hb) h
      · exact ⟨n % b, Nat.mod_lt n (by omega), (List.mem_singleton.1 h).symm⟩

/-- Digits after digits are read from where the first ones lead. -/
theorem valueAfter_append (b n : Nat) (s t : Text) :
    valueAfter b n (s ++ t) = (valueAfter b n s).bind fun m => valueAfter b m t := by
  induction s generalizing n with
  | nil => rfl
  | cons c s ih =>
    rw [List.cons_append, valueAfter, valueAfter]
    cases digitValue? c with
    | none => rfl
    | some d => by_cases hd : d < b <;> simp [hd, ih]

/-- **The digits of a value spell it,** also when each of them is written in another way. -/
theorem valueAfter_map_toDigits {b : Nat} {f : Char → Char} (hb : 1 < b)
    (hf : ∀ d < b, digitValue? (f d.digitChar) = some d) (n : Nat) :
    valueAfter b 0 ((Nat.toDigits b n).map f) = some n := by
  induction n using Nat.strongRecOn with
  | ind n ih =>
    rw [Nat.toDigits_eq_if hb]
    split
    next hn => simp [valueAfter, hf n hn, hn]
    next hn =>
      have hmod : n % b < b := Nat.mod_lt n (by omega)
      rw [List.map_append, valueAfter_append, ih (n / b) (Nat.div_lt_self (by omega) hb)]
      simp [valueAfter, hf _ hmod, hmod, Nat.div_add_mod']

namespace Radix

/-- What stands before the digits. -/
def sign : Radix → Text
  | hexadecimal => ['0', 'x']
  | octal => ['0']
  | decimal => []

/-- The digits of a value, without the sign of the base. -/
def digits (n : Nat) : Radix → Text
  | hexadecimal => (Nat.toDigits 16 n).map Char.toUpper
  | octal => Nat.toDigits 8 n
  | decimal => Nat.toDigits 10 n

theorem digits_ne_nil (r : Radix) (n : Nat) : r.digits n ≠ [] := by
  cases r <;> simp [digits, Nat.toDigits_ne_nil]

/-- A digit of a value is a digit of base sixteen.  No point is one, nor a sign of an exponent that
would count in the base. -/
theorem isHexDigit_of_mem_digits {r : Radix} {n : Nat} {c : Char} (h : c ∈ r.digits n) :
    isHexDigit c ∧ c.toLower ≠ '.' ∧ c.toLower ≠ 'p' ∧ (c.toLower = 'e' → r = hexadecimal) := by
  cases r with
  | hexadecimal =>
    obtain ⟨c, hc, rfl⟩ := List.mem_map.1 h
    obtain ⟨d, hd, rfl⟩ := exists_of_mem_toDigits (by decide) hc
    clear h hc
    decide +revert
  | octal =>
    obtain ⟨d, hd, rfl⟩ := exists_of_mem_toDigits (by decide) h
    clear h
    decide +revert
  | decimal =>
    obtain ⟨d, hd, rfl⟩ := exists_of_mem_toDigits (by decide) h
    clear h
    decide +revert

/-- The digits of a value are read. -/
theorem valueOf?_digits (r : Radix) (n : Nat) : valueOf? r.base (r.digits n) = some n := by
  have hread : valueAfter r.base 0 (r.digits n) = some n := by
    cases r with
    | hexadecimal =>
      exact valueAfter_map_toDigits (by decide) (fun d hd => (digitValue?_digitChar d hd).2) n
    | octal =>
      rw [digits, ← List.map_id (Nat.toDigits 8 n)]
      exact valueAfter_map_toDigits (by decide) (by decide) n
    | decimal =>
      rw [digits, ← List.map_id (Nat.toDigits 10 n)]
      exact valueAfter_map_toDigits (by decide) (by decide) n
  -- a sign before the digits would be no digit
  cases hdigits : r.digits n with
  | nil => exact absurd hdigits (r.digits_ne_nil n)
  | cons c rest =>
    have hplus : c ≠ '+' := by
      rintro rfl
      have hhex := (isHexDigit_of_mem_digits (r := r) (n := n) (c := '+') (by simp [hdigits])).1
      exact absurd hhex (by decide)
    rw [valueOf?, ← hdigits, hread]
    · exact nofun
    · rintro rest' heq
      exact hplus (List.cons.inj heq).1

/-- A value is written with the sign of its base and with its digits. -/
theorem write_eq (r : Radix) (n : Nat) : r.write n = r.sign ++ r.digits n := by
  cases r <;> rfl

/-- What is written ends with a digit of base sixteen. -/
theorem isHexDigit_of_mem_getLast?_write {r : Radix} {n : Nat} {c : Char}
    (h : c ∈ (r.write n).getLast?) : isHexDigit c := by
  rw [write_eq, List.getLast?_append_of_ne_nil _ (r.digits_ne_nil n)] at h
  exact (isHexDigit_of_mem_digits (List.mem_of_getLast? h)).1

end Radix

namespace IntegerLiteral

/-! ### Reading what was written -/

/-- The letters that tell the type of an integer. -/
def typeLetters : List Char := ['u', 'U', 'l', 'L']

/-- Digits that do not open with a zero are those of base ten. -/
theorem split_of_head?_ne {t : Text} (h : t.head? ≠ some '0') : split t = (.decimal, t) := by
  unfold split
  split
  next => exact absurd rfl h
  next => exact absurd rfl h
  next => exact absurd rfl h
  next => rfl

/-- The sign of the base is found again. -/
theorem split_write (r : Radix) (n : Nat) : split (r.write n) = (r, r.digits n) := by
  cases r with
  | hexadecimal => rfl
  | octal =>
    cases hdigits : Nat.toDigits 8 n with
    | nil => exact absurd hdigits Nat.toDigits_ne_nil
    | cons c rest =>
      have hc : c.isDigit = true :=
        Nat.isDigit_of_mem_toDigits (b := 8) (n := n) (by decide) (by decide) (by simp [hdigits])
      have hx : c ≠ 'x' ∧ c ≠ 'X' := by
        refine ⟨?_, ?_⟩ <;> rintro rfl <;> exact absurd hc (by decide)
      rw [Radix.write, Radix.digits, hdigits, split]
      · exact hx.1
      · exact hx.2
  | decimal =>
    -- a number that opens with a zero is zero
    by_cases hzero : n = 0
    · subst hzero
      rfl
    · exact split_of_head?_ne fun h => hzero (Json.head?_toDigits h)

/-- What follows the last digit is left out of the digits. -/
theorem reverse_dropWhile_append {w suffix : Text} (hw : ∀ c ∈ w.getLast?, isHexDigit c)
    (hsuffix : ∀ c ∈ suffix, !isHexDigit c) :
    ((w ++ suffix).reverse.dropWhile fun c => !isHexDigit c).reverse = w := by
  rw [List.reverse_append, List.dropWhile_append_of_pos fun c hc =>
    hsuffix c (List.mem_reverse.1 hc)]
  cases w using List.reverseRecOn with
  | nil => rfl
  | append_singleton w c =>
    have hc : isHexDigit c = true := hw c (by simp)
    simp [hc]

/-- What is written has no fraction and no exponent, nor have the letters that tell the type. -/
theorem isFraction_write_append (r : Radix) (n : Nat) {suffix : Text}
    (h : ∀ c ∈ suffix, c ∈ typeLetters) : isFraction (r.write n ++ suffix) = false := by
  have hall : ∀ c ∈ r.write n ++ suffix,
      c.toLower ≠ '.' ∧ c.toLower ≠ 'p' ∧ (c.toLower = 'e' → r = .hexadecimal) := by
    intro c hc
    rw [Radix.write_eq, List.append_assoc] at hc
    rcases List.mem_append.1 hc with hc | hc
    · have hsign : r.sign.all
          (fun c => c.toLower ≠ '.' ∧ c.toLower ≠ 'p' ∧ c.toLower ≠ 'e') = true := by
        cases r <;> decide
      have hc := of_decide_eq_true (List.all_eq_true.1 hsign c hc)
      exact ⟨hc.1, hc.2.1, fun he => absurd he hc.2.2⟩
    rcases List.mem_append.1 hc with hc | hc
    · exact (Radix.isHexDigit_of_mem_digits hc).2
    · have hletter : typeLetters.all
          (fun c => c.toLower ≠ '.' ∧ c.toLower ≠ 'p' ∧ c.toLower ≠ 'e') = true := by
        decide
      have hc := of_decide_eq_true (List.all_eq_true.1 hletter c (h c hc))
      exact ⟨hc.1, hc.2.1, fun he => absurd he hc.2.2⟩
  have hnot (x : Char) (hx : ∀ c ∈ r.write n ++ suffix, c.toLower ≠ x) :
      ((r.write n ++ suffix).map Char.toLower).contains x = false := by
    rw [List.contains_eq_mem, decide_eq_false_iff_not, List.mem_map]
    rintro ⟨c, hc, rfl⟩
    exact hx c hc rfl
  rw [isFraction, hnot '.' fun c hc => (hall c hc).1, Bool.false_or]
  split
  next => exact hnot 'p' fun c hc => (hall c hc).2.1
  next hsign =>
    -- an exponent would need another base, and base sixteen is told by its sign
    refine hnot 'e' fun c hc he => hsign ?_
    rw [Radix.write_eq, (hall c hc).2.2 he]
    simp [Radix.sign]

/-- **What is written in a base is read back,** with the letters after it that tell the type. -/
theorem read?_write_append (r : Radix) {n : Nat} (hn : n ≤ largest) {suffix : Text}
    (h : ∀ c ∈ suffix, c ∈ typeLetters) :
    read? (r.write n ++ suffix) = some ⟨r.write n, r, n⟩ := by
  have hletter : typeLetters.all (fun c => !isHexDigit c) = true := by decide
  have hne : r.write n ≠ [] := by simp [Radix.write_eq, r.digits_ne_nil n]
  rw [read?, reverse_dropWhile_append (fun c => Radix.isHexDigit_of_mem_getLast?_write)
    fun c hc => List.all_eq_true.1 hletter c (h c hc)]
  simp only [split_write, isFraction_write_append r n h, Radix.valueOf?_digits, hn]
  simp [hne]

/-! ### Conversions -/

/-- What is read is told by the digits. -/
theorem of_read?_eq_some {spelling : Text} {l : IntegerLiteral} (h : read? spelling = some l) :
    l.digits ≠ [] ∧ l.value ≤ largest ∧ l.radix = (split l.digits).1 ∧
      valueOf? l.radix.base (split l.digits).2 = some l.value := by
  unfold read? at h
  dsimp only at h
  split at h
  next => cases h
  next hproper =>
    split at h
    next value hvalue =>
      split at h
      next hlargest =>
        cases h
        rw [Bool.or_eq_true, not_or, List.isEmpty_iff] at hproper
        exact ⟨hproper.2, hlargest, rfl, hvalue⟩
      next => cases h
    next => cases h

/-- A single digit is how its value is written in base ten. -/
theorem toDigits_of_valueOf?_singleton {c : Char} {n : Nat} (h : valueOf? 10 [c] = some n) :
    Nat.toDigits 10 n = [c] := by
  unfold valueOf? at h
  split at h
  next heq => cases heq
  next heq => cases heq; cases h
  next =>
    rw [valueAfter] at h
    split at h
    next d hd =>
      split at h
      next hlt =>
        obtain rfl : 0 * 10 + d = n := Option.some.inj h
        rw [Nat.zero_mul, Nat.zero_add, Nat.toDigits_of_lt_base hlt, digitChar_of_digitValue? hd hlt]
      next => cases h
    next => cases h

/-- The base of a literal is not among those that suit it, unless it would stay as it is. -/
theorem write_radix_of_suits {spelling : Text} {l : IntegerLiteral} (h : read? spelling = some l)
    (hsuits : l.suits l.radix = true) : l.radix.write l.value = l.digits := by
  obtain ⟨hne, -, hradix, hvalue⟩ := of_read?_eq_some h
  cases hr : l.radix with
  | hexadecimal => simp [suits, hr] at hsuits
  | octal => simp [suits, hr] at hsuits
  | decimal =>
    have hlength : l.digits.length ≤ 1 := by
      rw [hr, suits, Bool.and_eq_true] at hsuits
      simpa [hr] using hsuits.2
    obtain ⟨c, hc⟩ : ∃ c, l.digits = [c] :=
      List.length_eq_one_iff.1 (Nat.le_antisymm hlength (List.length_pos_iff.2 hne))
    have hsplit : split [c] = (.decimal, [c]) := by simp [split]
    rw [hc, hr, hsplit] at hvalue
    rw [hc]
    exact toDigits_of_valueOf?_singleton hvalue

/-- What is offered is the value, written in a base that suits it. -/
theorem mem_conversions_iff {l : IntegerLiteral} {c : Radix × Text} :
    c ∈ l.conversions ↔ l.suits c.1 = true ∧ c.2 = c.1.write l.value ∧ c.2 ≠ l.digits := by
  obtain ⟨r, t⟩ := c
  have hmem : r ∈ [Radix.hexadecimal, .octal, .decimal] := by cases r <;> decide
  simp only [conversions, List.mem_filter, List.mem_map, Prod.mk.injEq, bne_iff_ne]
  constructor
  · rintro ⟨⟨r, ⟨-, hsuits⟩, rfl, rfl⟩, hne⟩
    exact ⟨hsuits, rfl, hne⟩
  · rintro ⟨hsuits, rfl, hne⟩
    exact ⟨⟨r, ⟨hmem, hsuits⟩, rfl, rfl⟩, hne⟩

/-- **Writing a literal in another base keeps its value.**  What is offered differs from the digits
that are there, and is read as the same value in the base it is offered for; also in their place,
before the letters that tell the type.  No base is offered twice, nor the one that the literal has
already. -/
theorem conversions_keep_value {spelling : Text} {l : IntegerLiteral} (h : read? spelling = some l) :
    l.value ≤ largest ∧
    (∀ c ∈ l.conversions, c.2 ≠ l.digits ∧ read? c.2 = some ⟨c.2, c.1, l.value⟩ ∧
      ((∀ x ∈ spelling.drop l.digits.length, x ∈ typeLetters) →
        read? (c.2 ++ spelling.drop l.digits.length) = some ⟨c.2, c.1, l.value⟩)) ∧
    (l.conversions.map Prod.fst).Nodup ∧ l.radix ∉ l.conversions.map Prod.fst := by
  obtain ⟨-, hlargest, -, -⟩ := of_read?_eq_some h
  refine ⟨hlargest, fun c hc => ?_, ?_, ?_⟩
  · obtain ⟨-, htext, hne⟩ := mem_conversions_iff.1 hc
    rw [htext] at hne ⊢
    refine ⟨hne, ?_, read?_write_append c.1 hlargest⟩
    have hread := @read?_write_append c.1 _ hlargest [] (by simp)
    simpa using hread
  · have hsub : (l.conversions.map Prod.fst).Sublist [Radix.hexadecimal, .octal, .decimal] := by
      refine (List.filter_sublist.map Prod.fst).trans ?_
      rw [List.map_map]
      exact List.map_id _ ▸ List.filter_sublist
    exact hsub.nodup (by decide)
  · rw [List.mem_map]
    rintro ⟨c, hc, hradix⟩
    obtain ⟨hsuits, htext, hne⟩ := mem_conversions_iff.1 hc
    rw [hradix] at hsuits htext
    exact hne (htext.trans (write_radix_of_suits h hsuits))

/-- A literal with the largest digit of base sixteen, and with letters that tell its type. -/
theorem conversions_keep_value_hexadecimal :
    let l : IntegerLiteral := ⟨"0XfE".toList, .hexadecimal, 254⟩
    read? "0XfEuL".toList = some l ∧
      l.conversions = [(.octal, "0376".toList), (.decimal, "254".toList)] ∧
      read? ("0376".toList ++ "uL".toList) = some ⟨"0376".toList, .octal, 254⟩ := by
  have hread : read? "0XfEuL".toList = some ⟨"0XfE".toList, .hexadecimal, 254⟩ := by decide
  have hconversions := (conversions_keep_value hread).2.1
  exact ⟨hread, by decide, (hconversions (.octal, "0376".toList) (by decide)).2.2
    (by simp [typeLetters])⟩

end IntegerLiteral

end Mend
