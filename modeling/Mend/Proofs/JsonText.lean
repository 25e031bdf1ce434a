import Mathlib.Data.List.DropRight
import Mend.Json.Reader

/-!
# Written values read back

A value is written with all its parts on lines of their own, and the reader passes over the blanks
between them.  So the reader finds the value again in its text, whatever stands behind the text.
Only after a number it matters what comes next: a digit, a point or an exponent would belong to
it.  Numbers with a spelling of their own are left out, because a value may carry a spelling that
is none.

## Main definitions

* `Json.Counted` — a value whose numbers are all plain counts.
* `Json.EndsNumber` — a text that does not carry on a number in front of it.
* `Json.StringPart.Spells` — a part of a string that is one character by itself.

## Main results

* `Json.readString?_quote` — a string reads back from its quotation, and so does one that is no
  text.
* `Json.readNumber?_count` — a count reads back from its digits.
* `Json.Counted.readsBack` — a value reads back from its text on any level, in any surroundings.
* `Json.read?_pretty` — **a written value reads back.**
-/

namespace Mend

namespace Json

/-! ### Blanks -/

@[simp] theorem skipGap_cons_of_isGap {c : Char} (h : isGap c = true) (t : Text) :
    skipGap (c :: t) = skipGap t :=
  List.dropWhile_cons_of_pos h

@[simp] theorem skipGap_cons_of_not_isGap {c : Char} (h : isGap c = false) (t : Text) :
    skipGap (c :: t) = c :: t :=
  List.dropWhile_cons_of_neg (by simp [h])

/-- The start of a line is passed over. -/
@[simp] theorem skipGap_newLine_append (level : Nat) (t : Text) :
    skipGap (newLine level ++ t) = skipGap t := by
  refine List.dropWhile_append_of_pos fun c hc => ?_
  rcases List.mem_cons.1 hc with rfl | hc
  · rfl
  · obtain rfl := List.eq_of_mem_replicate hc
    rfl

/-! ### Strings -/

namespace StringPart

/-- A part of a string that is a character by itself: no half of a surrogate pair. -/
def Spells : StringPart → Char → Prop
  | .char d, c => d = c
  | .unit n, c => n < 0xD800 ∧ Char.ofNat n = c

end StringPart

/-- A part that is a character by itself adds this character to the text. -/
theorem textOfParts?_cons {part : StringPart} {c : Char} (h : part.Spells c)
    (parts : List StringPart) :
    textOfParts? (part :: parts) = (textOfParts? parts).map (c :: ·) := by
  cases part with
  | char d =>
    obtain rfl : d = c := h
    rw [textOfParts?]
  | unit n =>
    obtain ⟨hn, rfl⟩ := h
    have hlead : isLeadUnit n = false := by simp [isLeadUnit]; omega
    have htrail : isTrailUnit n = false := by simp [isTrailUnit]; omega
    rcases parts with _ | ⟨_ | m, parts⟩ <;> simp [textOfParts?, hlead, htrail]

/-- The digits of a number below sixteen. -/
theorem hexValue?_hexDigit : ∀ n < 16, hexValue? (hexDigit n) = some n := by
  decide

/-- A character within a string reads back as one part. -/
theorem exists_part_of_escapeChar (c : Char) : ∃ part : StringPart, part.Spells c ∧
    ∀ t, readParts? (escapeChar c ++ t) =
      (readParts? t).map fun p => (part :: p.1, p.2) := by
  by_cases hshort : c ∈ ['\x22', '\\', '\x08', '\x0c', '\n', '\r', '\t']
  · -- the characters with an escape of their own
    refine ⟨.char c, rfl, fun t => ?_⟩
    simp only [List.mem_cons, List.not_mem_nil, or_false] at hshort
    rcases hshort with rfl | rfl | rfl | rfl | rfl | rfl | rfl <;>
      cases h : readParts? t <;> simp [escapeChar, readParts?, escaped?, h]
  simp only [List.mem_cons, List.not_mem_nil, or_false, not_or] at hshort
  by_cases hcontrol : c.toNat < 0x20
  · refine ⟨.unit c.toNat, ⟨by omega, Char.ofNat_toNat c⟩, fun t => ?_⟩
    have hhigh := hexValue?_hexDigit (c.toNat / 16) (by omega)
    have hlow := hexValue?_hexDigit (c.toNat % 16) (by omega)
    have hzero : hexValue? '0' = some 0 := rfl
    have hsum : c.toNat / 16 * 16 + c.toNat % 16 = c.toNat := by omega
    cases h : readParts? t <;>
      simp [escapeChar, hshort, hcontrol, readParts?, hexUnit?, hhigh, hlow, hzero, hsum, h]
  · refine ⟨.char c, rfl, fun t => ?_⟩
    cases h : readParts? t <;> simp [escapeChar, hshort, hcontrol, readParts?, h]

/-- The characters of a text read back up to the quotation mark that closes it. -/
theorem readParts?_escaped (cs rest : Text) : ∃ parts,
    readParts? (cs.flatMap escapeChar ++ '\x22' :: rest) = some (parts, rest) ∧
      textOfParts? parts = some cs := by
  induction cs with
  | nil => exact ⟨[], by simp [readParts?], rfl⟩
  | cons c cs ih =>
    obtain ⟨part, hspells, hread⟩ := exists_part_of_escapeChar c
    obtain ⟨parts, hparts, htext⟩ := ih
    refine ⟨part :: parts, ?_, ?_⟩
    · rw [List.flatMap_cons, List.append_assoc, hread, hparts]
      rfl
    · rw [textOfParts?_cons hspells, htext]
      rfl

/-- **A string reads back from its quotation,** and so does one that is no text. -/
theorem readString?_quote (s : Option String) : ∃ t, quote s = '\x22' :: t ∧
    ∀ rest, readString? (t ++ rest) = some (s, rest) := by
  cases s with
  | none => exact ⟨_, rfl, fun rest => rfl⟩
  | some s =>
    refine ⟨_, rfl, fun rest => ?_⟩
    obtain ⟨parts, hparts, htext⟩ := readParts?_escaped s.toList rest
    rw [List.append_assoc, List.singleton_append, readString?, hparts]
    simp [htext]

/-! ### Counts -/

/-- A text that does not carry on a number in front of it. -/
def EndsNumber (t : Text) : Prop :=
  ∀ c ∈ t.head?, isDigit c = false ∧ c ≠ '.' ∧ c ≠ 'e' ∧ c ≠ 'E'

@[simp] theorem endsNumber_nil : EndsNumber [] := nofun

/-- The digits of a count are digits. -/
theorem isDigit_of_mem_toDigits {n : Nat} {c : Char} (h : c ∈ Nat.toDigits 10 n) :
    isDigit c = true := by
  have hc : c.isDigit = true := Nat.isDigit_of_mem_toDigits (by decide) (by decide) h
  simp only [Char.isDigit, Bool.and_eq_true, decide_eq_true_eq] at hc
  simp only [isDigit, Bool.and_eq_true, decide_eq_true_eq]
  exact hc

/-- The digits of a count open with a digit. -/
theorem exists_toDigits_eq_cons (n : Nat) :
    ∃ d ds, Nat.toDigits 10 n = d :: ds ∧ isDigit d = true := by
  cases h : Nat.toDigits 10 n with
  | nil => exact absurd h Nat.toDigits_ne_nil
  | cons d ds => exact ⟨d, ds, rfl, isDigit_of_mem_toDigits (n := n) (by simp [h])⟩

/-- A digit is no character that is none. -/
theorem ne_of_isDigit {c d : Char} (hd : isDigit d = true) (hc : isDigit c = false) : c ≠ d := by
  rintro rfl
  simp [hd] at hc

/-- Only the count zero opens with the digit zero. -/
theorem head?_toDigits {n : Nat} (h : (Nat.toDigits 10 n).head? = some '0') : n = 0 := by
  induction n using Nat.strongRecOn with
  | ind n ih =>
    by_cases hlt : n < 10
    · rw [Nat.toDigits_of_lt_base hlt] at h
      simpa using h
    · rw [Nat.toDigits_of_base_le (by decide) (by omega),
        List.head?_append_of_ne_nil _ Nat.toDigits_ne_nil] at h
      have := ih (n / 10) (by omega) h
      omega

/-- The digits of a count spell it. -/
theorem digitsValue_toDigits (n : Nat) : digitsValue (Nat.toDigits 10 n) = n := by
  have h := Nat.ofDigitChars_ten_toDigits (n := n)
  rw [Nat.ofDigitChars_eq_foldl] at h
  simpa only [digitsValue, Nat.mul_comm 10] using h

/-- The digits of a count are read as the whole part of a number. -/
theorem readWhole?_toDigits (n : Nat) {rest : Text} (h : EndsNumber rest) :
    readWhole? (Nat.toDigits 10 n ++ rest) = some (Nat.toDigits 10 n, rest) := by
  have hstop : rest.takeWhile isDigit = [] ∧ rest.dropWhile isDigit = rest := by
    cases rest with
    | nil => exact ⟨rfl, rfl⟩
    | cons c rest => simp [(h c rfl).1]
  have hdigits : readDigits? (Nat.toDigits 10 n ++ rest) = some (Nat.toDigits 10 n, rest) := by
    rw [readDigits?, List.takeWhile_append_of_pos fun _ => isDigit_of_mem_toDigits,
      List.dropWhile_append_of_pos fun _ => isDigit_of_mem_toDigits, hstop.1, hstop.2]
    simp
  have hzero : ¬(1 < (Nat.toDigits 10 n).length ∧ (Nat.toDigits 10 n).head? = some '0') := by
    rintro ⟨hlong, hhead⟩
    obtain rfl := head?_toDigits hhead
    exact absurd hlong (by decide)
  rw [readWhole?, hdigits]
  exact if_neg hzero

/-- **A count reads back from its digits,** unless what follows belongs to the number. -/
theorem readNumber?_count (n : Nat) {rest : Text} (h : EndsNumber rest) :
    readNumber? (Nat.toDigits 10 n ++ rest) = some (.count n, rest) := by
  have hsign : readSign (Nat.toDigits 10 n ++ rest) = ([], Nat.toDigits 10 n ++ rest) := by
    obtain ⟨d, ds, hds, hd⟩ := exists_toDigits_eq_cons n
    rw [hds, List.cons_append, readSign]
    intro rest heq
    exact ne_of_isDigit hd rfl (List.cons.inj heq).1.symm
  have hfraction : readFraction? rest = some ([], rest) := by
    rw [readFraction?]
    rintro rest rfl
    exact (h '.' rfl).2.1 rfl
  have hexponent : readExponent? rest = some ([], rest) := by
    cases rest with
    | nil => rfl
    | cons c rest => simp [readExponent?, h c rfl]
  simp [readNumber?, hsign, readWhole?_toDigits n h, hfraction, hexponent,
    digitsValue_toDigits]

/-! ### Values without parts -/

/-- A digit is no blank. -/
theorem isGap_of_isDigit {d : Char} (hd : isDigit d = true) : isGap d = false := by
  have hne : ∀ c, isDigit c = false → (d = c) = False := fun c hc =>
    eq_false (ne_of_isDigit hd hc).symm
  simp [isGap, hne ' ' rfl, hne '\t' rfl, hne '\n' rfl, hne '\r' rfl]

/-- A piece that starts otherwise does not open a text. -/
theorem after?_cons_of_ne {c d : Char} (h : c ≠ d) (piece t : Text) :
    after? (c :: piece) (d :: t) = none := by
  simp [after?, List.isPrefixOf, h]

/-- A count is read as a value without parts. -/
theorem readLeaf?_count (n : Nat) {rest : Text} (h : EndsNumber rest) :
    readLeaf? (Nat.toDigits 10 n ++ rest) = some (.count n, rest) := by
  have hnumber := readNumber?_count n h
  obtain ⟨d, ds, hds, hd⟩ := exists_toDigits_eq_cons n
  rw [hds, List.cons_append] at hnumber ⊢
  have hquote : '\x22' ≠ d := ne_of_isDigit hd rfl
  have hpiece : ∀ c piece, isDigit c = false → after? (c :: piece) (d :: (ds ++ rest)) = none :=
    fun c piece hc => after?_cons_of_ne (ne_of_isDigit hd hc) piece _
  rw [readLeaf?.eq_2 _ fun _ heq => hquote (List.cons.inj heq).1.symm]
  simp only [String.reduceToList, hpiece 'n' _ rfl, hpiece 't' _ rfl, hpiece 'f' _ rfl, hnumber]

/-- A string is read as a value without parts. -/
theorem readLeaf?_quote (s : Option String) (rest : Text) :
    readLeaf? (quote s ++ rest) = some (.string s, rest) := by
  obtain ⟨t, ht, hread⟩ := readString?_quote s
  rw [ht, List.cons_append, readLeaf?, hread]
  rfl

/-! ### Values -/

/-- Blanks in front of a value do not matter. -/
theorem readValue?_skipGap (n : Nat) (t : Text) :
    readValue? n (skipGap t) = readValue? n t := by
  cases n with
  | zero => simp only [readValue?]
  | succ n => simp only [readValue?, skipGap, List.dropWhile_idempotent]

/-- Blanks in front of the items of an array do not matter. -/
theorem readItems?_skipGap (n : Nat) (t : Text) :
    readItems? n (skipGap t) = readItems? n t := by
  cases n with
  | zero => simp only [readItems?]
  | succ n => simp only [readItems?, readValue?_skipGap]

/-- Blanks in front of the members of an object do not matter. -/
theorem readMembers?_skipGap (n : Nat) (t : Text) :
    readMembers? n (skipGap t) = readMembers? n t := by
  cases n with
  | zero => simp only [readMembers?]
  | succ n => simp only [readMembers?, skipGap, List.dropWhile_idempotent]

/-- A value that opens no array and no object has no parts. -/
theorem readValue?_leaf {c : Char} (hgap : isGap c = false) (harray : '[' ≠ c)
    (hobject : '\x7b' ≠ c) (n : Nat) (t : Text) :
    readValue? (n + 1) (c :: t) = readLeaf? (c :: t) := by
  rw [readValue?, skipGap_cons_of_not_isGap hgap]
  split
  next heq => exact absurd (List.cons.inj heq).1.symm harray
  next heq => exact absurd (List.cons.inj heq).1.symm hobject
  next => rfl

/-- An array with items. -/
theorem readValue?_array {c : Char} (hgap : isGap c = false) (hclose : c ≠ ']') (n level : Nat)
    (t : Text) : readValue? (n + 1) ('[' :: (newLine level ++ c :: t)) =
      (readItems? n (c :: t)).map fun p => (.array p.1, p.2) := by
  rw [readValue?, skipGap_cons_of_not_isGap rfl]
  simp only [skipGap_newLine_append, skipGap_cons_of_not_isGap hgap]
  split
  next heq => exact absurd (List.cons.inj heq).1 hclose
  next => rfl

/-- An object with members. -/
theorem readValue?_object (n level : Nat) (key : Option String) (t : Text) :
    readValue? (n + 1) ('\x7b' :: (newLine level ++ (quote key ++ t))) =
      (readMembers? n (quote key ++ t)).map fun p => (.object p.1, p.2) := by
  obtain ⟨u, hu, -⟩ := readString?_quote key
  rw [hu, List.cons_append, readValue?, skipGap_cons_of_not_isGap rfl]
  simp only [skipGap_newLine_append, skipGap_cons_of_not_isGap (c := '\x22') rfl]
  rfl

/-- A value whose numbers are all plain counts. -/
inductive Counted : Json → Prop
  /-- The value `null`. -/
  | null : Counted .null
  /-- A truth value. -/
  | bool (b : Bool) : Counted (.bool b)
  /-- A plain count. -/
  | count (n : Nat) : Counted (.count n)
  /-- A string. -/
  | string (s : Option String) : Counted (.string s)
  /-- An array of such values. -/
  | array {items : List Json} (h : ∀ v ∈ items, Counted v) : Counted (.array items)
  /-- An object with such values. -/
  | object {members : List (Option String × Json)} (h : ∀ p ∈ members, Counted p.2) :
    Counted (.object members)

/-- A value that is read from its text on any level, whatever follows that does not carry on a
number. -/
def ReadsBack (v : Json) : Prop :=
  ∀ level n rest, (prettyAt level v).length < n → EndsNumber rest →
    readValue? n (prettyAt level v ++ rest) = some (v, rest)

/-- The text of a value opens with a character that no blank is and that closes nothing. -/
theorem Counted.exists_head {v : Json} (h : Counted v) (level : Nat) :
    ∃ c t, prettyAt level v = c :: t ∧ isGap c = false ∧ c ≠ ']' := by
  cases h with
  | null => exact ⟨_, _, rfl, rfl, by decide⟩
  | bool b => cases b <;> exact ⟨_, _, rfl, rfl, by decide⟩
  | count n =>
    obtain ⟨d, ds, hds, hd⟩ := exists_toDigits_eq_cons n
    exact ⟨d, ds, by simp [prettyAt, hds], isGap_of_isDigit hd, (ne_of_isDigit hd rfl).symm⟩
  | string s =>
    obtain ⟨t, ht, -⟩ := readString?_quote s
    exact ⟨_, t, by rw [prettyAt, ht], rfl, by decide⟩
  | @array items _ =>
    cases items <;> exact ⟨_, _, by rw [prettyAt], rfl, by decide⟩
  | @object members _ =>
    rcases members with _ | ⟨⟨k, v⟩, members⟩ <;> exact ⟨_, _, by rw [prettyAt], rfl, by decide⟩

theorem endsNumber_prettyItems (level k : Nat) (items : List Json) (rest : Text) :
    EndsNumber (prettyItems level items ++ (newLine k ++ rest)) := by
  cases items <;> simp [prettyItems, newLine, EndsNumber, isDigit]

theorem endsNumber_prettyMembers (level k : Nat) (members : List (Option String × Json))
    (rest : Text) : EndsNumber (prettyMembers level members ++ (newLine k ++ rest)) := by
  rcases members with _ | ⟨⟨_, _⟩, _⟩ <;> simp [prettyMembers, newLine, EndsNumber, isDigit]

/-- The items of an array read back if each of them does. -/
theorem readItems?_pretty {level k : Nat} {items : List Json} {v : Json} (hv : ReadsBack v)
    (hitems : ∀ w ∈ items, ReadsBack w) {n : Nat}
    (hn : (prettyAt level v).length + (prettyItems level items).length + 1 < n) (rest : Text) :
    readItems? n (prettyAt level v ++
      (prettyItems level items ++ (newLine k ++ ']' :: rest))) = some (v :: items, rest) := by
  induction items generalizing v n with
  | nil =>
    obtain ⟨n, rfl⟩ : ∃ m, n = m + 1 := ⟨n - 1, by omega⟩
    have hread := hv level n _ (by omega) (endsNumber_prettyItems level k [] (']' :: rest))
    rw [readItems?, hread]
    simp [prettyItems, isGap]
  | cons w items ih =>
    obtain ⟨n, rfl⟩ : ∃ m, n = m + 1 := ⟨n - 1, by omega⟩
    have hread := hv level n _ (by omega)
      (endsNumber_prettyItems level k (w :: items) (']' :: rest))
    have hlen : (prettyAt level w).length + (prettyItems level items).length + 1 < n := by
      simp only [prettyItems, newLine, List.length_cons, List.length_append] at hn
      omega
    have hlater := ih (hitems w (by simp)) (fun u hu => hitems u (by simp [hu])) hlen
    rw [readItems?, hread]
    simp only [prettyItems, List.cons_append, List.append_assoc,
      skipGap_cons_of_not_isGap (c := ',') rfl]
    rw [← readItems?_skipGap, skipGap_newLine_append, readItems?_skipGap, hlater]
    rfl

/-- The members of an object read back if each of their values does. -/
theorem readMembers?_pretty {level k : Nat} {members : List (Option String × Json)}
    (key : Option String) {v : Json} (hv : ReadsBack v)
    (hmembers : ∀ p ∈ members, ReadsBack p.2) {n : Nat}
    (hn : (prettyAt level v).length + (prettyMembers level members).length + 1 < n)
    (rest : Text) :
    readMembers? n (quote key ++ (':' :: ' ' :: (prettyAt level v ++
      (prettyMembers level members ++ (newLine k ++ '\x7d' :: rest))))) =
      some ((key, v) :: members, rest) := by
  induction members generalizing key v n with
  | nil =>
    obtain ⟨n, rfl⟩ : ∃ m, n = m + 1 := ⟨n - 1, by omega⟩
    obtain ⟨t, ht, hkey⟩ := readString?_quote key
    have hread := hv level n _ (by omega)
      (endsNumber_prettyMembers level k [] ('\x7d' :: rest))
    rw [← readValue?_skipGap, ← skipGap_cons_of_isGap (c := ' ') rfl, readValue?_skipGap] at hread
    rw [readMembers?, ht, List.cons_append, skipGap_cons_of_not_isGap rfl]
    simp only [hkey, skipGap_cons_of_not_isGap (c := ':') rfl, hread]
    simp [prettyMembers, isGap]
  | cons p members ih =>
    obtain ⟨n, rfl⟩ : ∃ m, n = m + 1 := ⟨n - 1, by omega⟩
    obtain ⟨key', w⟩ := p
    obtain ⟨t, ht, hkey⟩ := readString?_quote key
    have hread := hv level n _ (by omega)
      (endsNumber_prettyMembers level k ((key', w) :: members) ('\x7d' :: rest))
    rw [← readValue?_skipGap, ← skipGap_cons_of_isGap (c := ' ') rfl, readValue?_skipGap] at hread
    have hlen : (prettyAt level w).length + (prettyMembers level members).length + 1 < n := by
      simp only [prettyMembers, newLine, List.length_cons, List.length_append] at hn
      omega
    have hlater := ih key' (hmembers (key', w) (by simp))
      (fun q hq => hmembers q (by simp [hq])) hlen
    rw [readMembers?, ht, List.cons_append, skipGap_cons_of_not_isGap rfl]
    simp only [hkey, skipGap_cons_of_not_isGap (c := ':') rfl, hread]
    simp only [prettyMembers, List.cons_append, List.append_assoc,
      skipGap_cons_of_not_isGap (c := ',') rfl]
    rw [← readMembers?_skipGap, skipGap_newLine_append, readMembers?_skipGap, hlater]
    rfl

/-- **A value reads back from its text** on any level and in any surroundings. -/
theorem Counted.readsBack {v : Json} (h : Counted v) : ReadsBack v := by
  induction h with
  | null =>
    rintro level (_ | n) rest hn -
    · exact absurd hn (Nat.not_lt_zero _)
    · rfl
  | bool b =>
    rintro level (_ | n) rest hn -
    · exact absurd hn (Nat.not_lt_zero _)
    · cases b <;> rfl
  | count k =>
    rintro level (_ | n) rest hn hrest
    · exact absurd hn (Nat.not_lt_zero _)
    obtain ⟨d, ds, hds, hd⟩ := exists_toDigits_eq_cons k
    have hleaf := readLeaf?_count k hrest
    rw [hds, List.cons_append] at hleaf
    rw [prettyAt, Nat.toString_eq_repr, Nat.toList_repr, hds, List.cons_append,
      readValue?_leaf (isGap_of_isDigit hd) (ne_of_isDigit hd rfl) (ne_of_isDigit hd rfl)]
    exact hleaf
  | string s =>
    rintro level (_ | n) rest hn -
    · exact absurd hn (Nat.not_lt_zero _)
    obtain ⟨t, ht, -⟩ := readString?_quote s
    have hleaf := readLeaf?_quote s rest
    rw [ht, List.cons_append] at hleaf
    rw [prettyAt, ht, List.cons_append, readValue?_leaf rfl (by decide) (by decide)]
    exact hleaf
  | @array items hitems ih =>
    rintro level (_ | n) rest hn -
    · exact absurd hn (Nat.not_lt_zero _)
    rcases items with _ | ⟨v, items⟩
    · rfl
    obtain ⟨c, t, ht, hgap, hclose⟩ := (hitems v (by simp)).exists_head (level + 1)
    have hlen : (prettyAt (level + 1) v).length + (prettyItems (level + 1) items).length + 1
        < n := by
      simp only [prettyAt, newLine, List.length_cons, List.length_append] at hn
      omega
    have hread := readItems?_pretty (k := level) (ih v (by simp))
      (fun w hw => ih w (by simp [hw])) hlen rest
    rw [ht, List.cons_append] at hread
    simp only [prettyAt, ht, List.cons_append, List.append_assoc, List.nil_append]
    rw [readValue?_array hgap hclose, hread]
    rfl
  | @object members hmembers ih =>
    rintro level (_ | n) rest hn -
    · exact absurd hn (Nat.not_lt_zero _)
    rcases members with _ | ⟨⟨key, v⟩, members⟩
    · rfl
    have hlen : (prettyAt (level + 1) v).length + (prettyMembers (level + 1) members).length + 1
        < n := by
      simp only [prettyAt, newLine, List.length_cons, List.length_append] at hn
      omega
    have hread := readMembers?_pretty (k := level) key (ih (key, v) (by simp))
      (fun p hp => ih p (by simp [hp])) hlen rest
    simp only [prettyAt, List.cons_append, List.append_assoc, List.nil_append]
    rw [readValue?_object, hread]
    rfl

/-- **A written value reads back.** -/
theorem read?_pretty {v : Json} (h : Counted v) : read? v.pretty = some v := by
  have hread := h.readsBack 0 ((prettyAt 0 v).length + 1) [] (Nat.lt_succ_self _) endsNumber_nil
  rw [List.append_nil] at hread
  rw [read?, pretty, hread]
  rfl

end Json

end Mend
