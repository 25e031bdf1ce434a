import Mathlib.Algebra.Group.Nat.Defs
import Mend.Proofs.JsonText
import Mend.Settings.File

/-!
# Settings files read back

Settings are written with all their members, so no default comes in when they are read again: each
member is found under its own name and is decoded to what was encoded.  What a file cannot keep are
numbers past 64 bits, which settings never hold.  Settings that make no sense can be written too;
they are refused when they are read, for the reason that is given everywhere else.

## Main definitions

* `Settings.Sensible` — settings that make sense.

## Main results

* `NameSet.ofList_toList` — a set is made again from the list of its names.
* `Json.fields?_record` — the fields of an object with named members are its values.
* `Settings.ofJson?_toJson` — settings are decoded to what was encoded, whether or not they make
  sense.
* `Settings.load_write` — **settings survive their file, if they make sense, and are refused
  otherwise.**
-/

namespace Mend

/-! ### Sets of names -/

namespace NameMap

variable {α : Type}

/-- A name behind all others is put at the end. -/
theorem insertEntry_of_forall_lt {k : String} {v : α} {es : List (String × α)}
    (h : ∀ e ∈ es, e.1 < k) : insertEntry k v es = es ++ [(k, v)] := by
  induction es with
  | nil => rfl
  | cons e es ih =>
    obtain ⟨k', v'⟩ := e
    have hlt : k' < k := h (k', v') (by simp)
    have hne : k ≠ k' := fun heq => String.lt_irrefl k (heq ▸ hlt)
    rw [insertEntry, if_neg (String.lt_asymm hlt), if_neg hne,
      ih fun e he => h e (List.mem_cons_of_mem _ he)]
    rfl

/-- Entries in ascending order are put one behind the other. -/
theorem entries_foldl_insert (es : List (String × α)) (m : NameMap α)
    (h : (m.entries ++ es).Pairwise fun p q => p.1 < q.1) :
    (es.foldl (fun m p => m.insert p.1 p.2) m).entries = m.entries ++ es := by
  induction es generalizing m with
  | nil => simp
  | cons e es ih =>
    have hinsert : (m.insert e.1 e.2).entries = m.entries ++ [e] :=
      insertEntry_of_forall_lt fun p hp =>
        (List.pairwise_append.1 h).2.2 p hp e (List.mem_cons_self ..)
    have happend : (m.insert e.1 e.2).entries ++ es = m.entries ++ e :: es := by
      rw [hinsert, List.append_assoc, List.singleton_append]
    rw [List.foldl_cons, ih _ (happend ▸ h), happend]

/-- **A map is made again from its entries.** -/
theorem ofList_entries (m : NameMap α) : ofList m.entries = m :=
  ext (entries_foldl_insert m.entries empty m.ascending)

end NameMap

/-- **A set is made again from the list of its names.** -/
theorem NameSet.ofList_toList (s : NameSet) : NameSet.ofList s.toList = s := by
  have hentries : s.toList.map (fun k => (k, ())) = s.entries := by
    rw [toList, NameMap.keys, List.map_map]
    exact List.map_id _
  rw [ofList, hentries, NameMap.ofList_entries]

/-! ### Fields -/

namespace Json

/-- A member of an object whose names are all different is found under its name. -/
theorem memberValue?_of_mem {members : List (String × Json)} (h : (members.map (·.1)).Nodup)
    {p : String × Json} (hp : p ∈ members) :
    memberValue? (members.map fun p => (some p.1, p.2)) p.1 = some (some p.2) := by
  have hfilter : (members.map fun q => (some q.1, q.2)).filter (fun q => q.1 == some p.1) =
      [(some p.1, p.2)] := by
    induction members with
    | nil => cases hp
    | cons q members ih =>
      have ⟨hhead, htail⟩ := List.nodup_cons.1 h
      rcases List.mem_cons.1 hp with rfl | hp
      · have hrest : ∀ q ∈ members, q.1 ≠ p.1 := fun q hq heq =>
          hhead (List.mem_map.2 ⟨q, hq, heq⟩)
        have hnone : (members.map fun q => (some q.1, q.2)).filter
            (fun q => q.1 == some p.1) = [] := by
          rw [List.filter_map, List.filter_eq_nil_iff.2 fun q hq => by simpa using hrest q hq]
          rfl
        simp [hnone]
      · have hne : q.1 ≠ p.1 := fun heq => hhead (List.mem_map.2 ⟨p, hp, heq.symm⟩)
        simpa [hne] using ih htail hp
  rw [memberValue?, hfilter]

/-- The fields of an object with named members are its values. -/
theorem fields?_record {members : List (String × Json)} {names : List String}
    (hnames : members.map (·.1) = names) (h : names.Nodup) :
    (record members).fields? names = some (members.map fun p => some p.2) := by
  subst hnames
  have hvalues : ∀ ps : List (String × Json), ps ⊆ members →
      (ps.map (·.1)).mapM (memberValue? (members.map fun p => (some p.1, p.2))) =
        some (ps.map fun p => some p.2) := by
    intro ps hsub
    induction ps with
    | nil => rfl
    | cons p ps ih =>
      have ⟨hp, hps⟩ := List.cons_subset.1 hsub
      simp [memberValue?_of_mem h hp, ih hps]
  rw [record, fields?, if_pos (by simp)]
  exact hvalues members (List.Subset.refl _)

/-- Texts in an array are decoded to what was encoded. -/
theorem mapM_toString? (ks : List String) :
    (ks.map fun k => Json.string (some k)).mapM toString? = some ks := by
  induction ks with
  | nil => rfl
  | cons k ks ih => simp [toString?, ih]

/-- A number that fits 64 bits is decoded. -/
theorem toCount?_count {n : Nat} (h : n < 2 ^ 64) : toCount? (.count n) = some n :=
  if_pos (by omega)

/-- An object with named members has just counts for numbers if its values do. -/
theorem counted_record {members : List (String × Json)} (h : ∀ p ∈ members, Counted p.2) :
    Counted (record members) := by
  refine .object fun p hp => ?_
  obtain ⟨q, hq, rfl⟩ := List.mem_map.1 hp
  exact h q hq

end Json

/-! ### What was encoded is decoded -/

/-- A set of names is decoded to what was encoded. -/
theorem NameSet.ofJson?_toJson (s : NameSet) : NameSet.ofJson? s.toJson = some s := by
  rw [NameSet.toJson, NameSet.ofJson?, Json.mapM_toString?, Option.map_some, ofList_toList]

/-- A set of names is written without numbers. -/
theorem NameSet.counted_toJson (s : NameSet) : s.toJson.Counted := by
  refine .array fun v hv => ?_
  obtain ⟨k, -, rfl⟩ := List.mem_map.1 hv
  exact .string _

/-- An indentation style is decoded to what was encoded. -/
theorem IndentStyle.ofJson?_toJson (s : IndentStyle) (hwidth : s.width < 2 ^ 64)
    (htab : s.tabWidth < 2 ^ 64) : IndentStyle.ofJson? s.toJson = some s := by
  rw [IndentStyle.ofJson?, IndentStyle.toJson, Json.fields?_record]
  · simp [Json.field?, Json.toCount?_count hwidth, Json.toCount?_count htab, Json.toBool?]
  · rfl
  · decide

/-- An indentation style is written with plain counts. -/
theorem IndentStyle.counted_toJson (s : IndentStyle) : s.toJson.Counted :=
  Json.counted_record (by simp [Json.Counted.bool, Json.Counted.count])

/-- The names for string literals are decoded to what was encoded. -/
theorem QtNames.ofJson?_toJson (q : QtNames) : QtNames.ofJson? q.toJson = some q := by
  rw [QtNames.ofJson?, QtNames.toJson, Json.fields?_record]
  · simp [Json.field?, Json.toString?, NameSet.ofJson?_toJson]
  · rfl
  · decide

/-- The names for string literals are written without numbers. -/
theorem QtNames.counted_toJson (q : QtNames) : q.toJson.Counted :=
  Json.counted_record (by simp [Json.Counted.string, NameSet.counted_toJson])

namespace Settings

/-- **Settings are decoded to what was encoded,** whether or not they make sense. -/
theorem ofJson?_toJson (s : Settings) (hwidth : s.indent.width < 2 ^ 64)
    (htab : s.indent.tabWidth < 2 ^ 64) : ofJson? s.toJson = some s := by
  rw [ofJson?, toJson, Json.fields?_record]
  · simp [Json.field?, IndentStyle.ofJson?_toJson _ hwidth htab, QtNames.ofJson?_toJson,
      NameSet.ofJson?_toJson, Json.toBool?]
  · rfl
  · decide

/-- Settings are written with plain counts. -/
theorem counted_toJson (s : Settings) : s.toJson.Counted :=
  Json.counted_record (by
    simp [IndentStyle.counted_toJson, QtNames.counted_toJson, NameSet.counted_toJson,
      Json.Counted.bool])

/-! ### Settings that make sense -/

/-- Settings that make sense: levels take up columns, and so do tabs where they are used. -/
def Sensible (s : Settings) : Prop :=
  1 ≤ s.indent.width ∧ (s.indent.useTabs = true → 1 ≤ s.indent.tabWidth)

instance (s : Settings) : Decidable s.Sensible :=
  inferInstanceAs (Decidable (1 ≤ s.indent.width ∧ (s.indent.useTabs = true → _)))

/-- Settings that make sense are accepted. -/
theorem Sensible.validate {s : Settings} (h : s.Sensible) : s.validate = .ok () := by
  have hwidth : s.indent.width ≠ 0 := Nat.pos_iff_ne_zero.1 h.1
  have htab : ¬(s.indent.useTabs ∧ s.indent.tabWidth = 0) := fun ⟨htabs, hzero⟩ => by
    have := h.2 htabs
    omega
  rw [Settings.validate, if_neg hwidth, if_neg htab]

/-- Other settings are refused for a value that makes no sense. -/
theorem exists_validate_of_not_sensible {s : Settings} (h : ¬s.Sensible) :
    ∃ field reason, s.validate = .error (.invalidValue field reason) := by
  rw [Settings.validate]
  split
  · exact ⟨_, _, rfl⟩
  split
  · exact ⟨_, _, rfl⟩
  next hwidth htab =>
    refine absurd ⟨Nat.pos_iff_ne_zero.2 hwidth, fun htabs => ?_⟩ h
    exact Nat.pos_iff_ne_zero.2 fun hzero => htab ⟨htabs, hzero⟩

/-- What is read from a file of settings is what their check says of them. -/
theorem load_write_eq (s : Settings) (hwidth : s.indent.width < 2 ^ 64)
    (htab : s.indent.tabWidth < 2 ^ 64) : load s.write = s.validate.map fun _ => s := by
  rw [load, write, Json.read?_pretty s.counted_toJson]
  simp only [ofJson, ofJson?_toJson s hwidth htab]
  cases s.validate <;> rfl

/-- **Settings survive their file, if they make sense.**  Otherwise they are refused when they are
read, with the very error that their check gives: a value that makes no sense. -/
theorem load_write (s : Settings) (hwidth : s.indent.width < 2 ^ 64)
    (htab : s.indent.tabWidth < 2 ^ 64) :
    (s.Sensible → load s.write = .ok s) ∧
    (¬s.Sensible → ∃ field reason, s.validate = .error (.invalidValue field reason) ∧
      load s.write = .error (.invalidValue field reason)) := by
  have hload := load_write_eq s hwidth htab
  refine ⟨fun h => ?_, fun h => ?_⟩
  · rw [hload, Sensible.validate h]
    rfl
  · obtain ⟨field, reason, hrefused⟩ := exists_validate_of_not_sensible h
    refine ⟨field, reason, hrefused, ?_⟩
    rw [hload, hrefused]
    rfl

/-- A name with a quotation mark, a backslash and a control character survives, next to the
greatest width there is; without any width the same settings are refused. -/
theorem load_write_escapes :
    let names : QtNames := { translate := "a\x22\\\x01é" }
    let s : Settings :=
      { indent := { width := 2 ^ 64 - 1, useTabs := true }, qt := names,
        disabledFixes := .ofList ["swap", "", "flip"] }
    load s.write = .ok s ∧
      load { s with indent := { width := 0 } }.write =
        .error (.invalidValue "indent.width" "must be at least 1") := by
  refine ⟨(load_write _ (by decide) (by decide)).1 (by decide), ?_⟩
  obtain ⟨field, reason, hrefused, hload⟩ := (load_write
    { indent := { width := 0 }, qt := { translate := "a\x22\\\x01é" },
      disabledFixes := .ofList ["swap", "", "flip"] } (by decide) (by decide)).2 (by decide)
  cases hrefused
  exact hload

end Settings

end Mend
