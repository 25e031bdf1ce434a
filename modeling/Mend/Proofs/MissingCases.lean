import Mend.Fix.Branch
import Mend.Proofs.BranchFixes
import Mend.Proofs.RenamedUses

/-!
# The cases that a switch lacks

A `switch` statement gets a label for every enumerator of the type of its condition that none of
its own labels stands for.  What a label stands for is told by its words: one word is looked up
where it stands, and more words are the end of a full name.

The labels that are added are full names.  A full name with qualifiers stands for its enumerator
wherever it is written; one without qualifiers is looked up, and may be hidden by another name.  The
name of the enumeration is no part of a full name, so a label that is written with it stands for
nothing.

## Main definitions

* `ParsedFile.caseWords?` — the words of a `case` label.
* `ParsedFile.NamesEnumerator` — words stand for an enumerator, told by its full name.
* `ParsedFile.LacksCases` — the enumerators that the labels of a block leave out.

## Main results

* `ParsedFile.namesEnumerator_enumeratorPath` — **a full name with qualifiers stands for its
  enumerator everywhere.**
* `Query.adds_missing_cases` — **every enumerator without a label gets one.**
-/

namespace Mend

namespace ParsedFile

variable {f : ParsedFile} {e : EnumSymbol} {name : String} {words : List String} {n id index : Nat}

/-! ### Names of enumerators -/

/-- Words stand for an enumerator, told by its full name. -/
def NamesEnumerator (f : ParsedFile) (words : List String) (scope : Nat) (full : String) : Prop :=
  ∃ id index e, Symbol.enumerator id index ∈ f.lookupQualified words scope ∧
    f.symbols.enums[id]? = some e ∧ e.fullEnumerators[index]? = some full

/-- An enumerator is declared under its name. -/
theorem getElem?_of_enumerator_mem_declaredIn (h : .enumerator id index ∈ f.declaredIn name n)
    (he : f.symbols.enums[id]? = some e) : e.enumerators[index]? = some name := by
  simp only [declaredIn, List.mem_append, List.mem_map, reduceCtorEq, and_false, exists_false,
    false_or, or_false] at h
  obtain ⟨⟨e', id'⟩, hmem, h⟩ := List.mem_flatMap.1 h
  have he' : f.symbols.enums[id']? = some e' := List.mem_zipIdx_iff_getElem?.1 hmem
  split at h
  next =>
    rcases List.mem_append.1 h with h | h
    · split at h
      · cases List.mem_singleton.1 h
      · cases h
    · obtain ⟨i, hi, heq⟩ := Option.map_eq_some_iff.1 (Option.mem_toList.1 h)
      cases heq
      obtain rfl : e = e' := Option.some.inj (he.symm.trans he')
      obtain ⟨hlt, hname, -⟩ := List.findIdx?_eq_some_iff_getElem.1 hi
      rw [List.getElem?_eq_getElem hlt, beq_iff_eq.1 hname]
  next => cases h

/-- **A name stands for the enumerator that is found under it.** -/
theorem namesEnumerator_of_mem_lookup (h : .enumerator id index ∈ f.lookup name n)
    (he : f.symbols.enums[id]? = some e) :
    f.NamesEnumerator [name] n (qualified (e.enumeratorPath name)) := by
  obtain ⟨n', -, hn'⟩ := exists_of_mem_lookup h
  refine ⟨id, index, e, h, he, ?_⟩
  rw [EnumSymbol.fullEnumerators, List.getElem?_map, getElem?_of_enumerator_mem_declaredIn hn' he]
  rfl

/-- **A full name with qualifiers stands for its enumerator everywhere.** -/
theorem namesEnumerator_enumeratorPath (he : e ∈ f.symbols.enums) (hname : name ∈ e.enumerators)
    (haround : e.around ≠ []) (n : Nat) :
    f.NamesEnumerator (e.enumeratorPath name) n (qualified (e.enumeratorPath name)) := by
  obtain ⟨id, he⟩ := List.mem_iff_getElem?.1 he
  obtain ⟨index, hindex⟩ := List.mem_iff_getElem?.1 hname
  refine ⟨id, index, e, ?_, he, ?_⟩
  · have hmatches : Symbol.enumerator id index ∈ enumMatches (e.enumeratorPath name) e id := by
      refine List.mem_append_right _ (List.mem_map_of_mem (mem_positionsWhere.2 ⟨name, hindex, ?_⟩))
      exact List.isSuffixOf_iff_suffix.2 (List.suffix_refl _)
    unfold lookupQualified
    split
    next hnil => simp [EnumSymbol.enumeratorPath] at hnil
    next hsingle =>
      have hlength := congrArg List.length hsingle
      rw [EnumSymbol.enumeratorPath, List.length_append] at hlength
      exact absurd (List.length_eq_zero_iff.1 (Nat.succ.inj hlength)) haround
    next =>
      refine List.mem_append_left _ (List.mem_append_left _ (List.mem_flatMap.2 ⟨(e, id), ?_, ?_⟩))
      · exact List.mem_zipIdx_iff_getElem?.2 he
      · exact hmatches
  · rw [EnumSymbol.fullEnumerators, List.getElem?_map, hindex]
    rfl

/-! ### Labels -/

/-- The words of a `case` label, with the scope in which they are looked up. -/
def caseWords? (f : ParsedFile) (t : SyntaxTree) : Option (List String × Nat) :=
  match t.label.kind, t.children with
  | .caseLabel _ _, [value] => (f.nameOf? value).map (·, f.scopeAt (f.startOf value))
  | _, _ => none

/-- What a label stands for. -/
theorem mem_namedByCase_iff {q : Query} {t : SyntaxTree} : name ∈ q.namedByCase t ↔
    ∃ words scope, q.file.caseWords? t = some (words, scope) ∧
      q.file.NamesEnumerator words scope name := by
  have hfull (sym : Symbol) : q.fullEnumerator? sym = some name ↔ ∃ id index e,
      sym = .enumerator id index ∧ q.file.symbols.enums[id]? = some e ∧
        e.fullEnumerators[index]? = some name := by
    cases sym <;> simp [Query.fullEnumerator?, Option.bind_eq_some_iff]
  unfold Query.namedByCase
  split
  next keyword colon value hkind hchildren =>
    rw [caseWords?, hkind, hchildren]
    dsimp only
    rw [List.mem_filterMap]
    cases q.file.nameOf? value with
    | none =>
      -- a value that is no name stands for nothing
      constructor
      · rintro ⟨_, hsym, -⟩
        cases hsym
      · rintro ⟨_, _, hwords, -⟩
        cases hwords
    | some words =>
      constructor
      · rintro ⟨sym, hsym, hname⟩
        obtain ⟨id, index, e, rfl, he, hindex⟩ := (hfull sym).1 hname
        exact ⟨words, _, rfl, id, index, e, hsym, he, hindex⟩
      · rintro ⟨_, _, ⟨⟩, id, index, e, hsym, he, hindex⟩
        exact ⟨_, hsym, (hfull _).2 ⟨id, index, e, rfl, he, hindex⟩⟩
  next hno =>
    have hnone : q.file.caseWords? t = none := by
      unfold caseWords?
      split
      next hkind hchildren => exact absurd hchildren (hno _ _ _ hkind)
      next => rfl
    simp [hnone]

/-- The enumerators that the labels of a block leave out. -/
structure LacksCases (f : ParsedFile) (body : SyntaxTree) (e : EnumSymbol) (names : List String) :
    Prop where
  /-- There are some. -/
  ne_nil : names ≠ []
  /-- They come in the order of their declaration. -/
  sublist : names.Sublist e.fullEnumerators
  /-- They are those that no label stands for. -/
  mem_iff : ∀ full ∈ e.fullEnumerators, (full ∈ names ↔ ∀ t ∈ body.children, ∀ words scope,
    f.caseWords? t = some (words, scope) → ¬f.NamesEnumerator words scope full)
  /-- An enumerator that is found under the word of a label is not among them. -/
  plain : ∀ t ∈ body.children, ∀ name scope id index, f.caseWords? t = some ([name], scope) →
    .enumerator id index ∈ f.lookup name scope → f.symbols.enums[id]? = some e →
      qualified (e.enumeratorPath name) ∉ names
  /-- An enumerator whose full name with qualifiers is in a label is not among them. -/
  full : e.around ≠ [] → ∀ t ∈ body.children, ∀ name ∈ e.enumerators, ∀ scope,
    f.caseWords? t = some (e.enumeratorPath name, scope) → qualified (e.enumeratorPath name) ∉ names
  /-- So an enumerator whose full name has qualifiers is there without a label that has them. -/
  exists_lacking : e.around ≠ [] → ∃ name ∈ e.enumerators, ∀ t ∈ body.children, ∀ scope,
    f.caseWords? t ≠ some (e.enumeratorPath name, scope)

/-- **What the labels of a block leave out.** -/
theorem lacksCases_missingCases {q : Query} {condition body : SyntaxTree}
    (hcondition : q.enumOfCondition? condition = some e)
    (hne : q.missingCases condition body ≠ []) :
    q.file.LacksCases body e (q.missingCases condition body) := by
  have hmissing : ∀ full, full ∈ q.missingCases condition body ↔ full ∈ e.fullEnumerators ∧
      ∀ t ∈ body.children, ∀ words scope,
        q.file.caseWords? t = some (words, scope) → ¬q.file.NamesEnumerator words scope full := by
    intro full
    simp only [Query.missingCases, hcondition, List.mem_filter, Bool.not_eq_true',
      List.contains_eq_mem, decide_eq_false_iff_not, List.mem_flatMap, mem_namedByCase_iff,
      not_exists, not_and]
  have he : e ∈ q.file.symbols.enums := by
    obtain ⟨type, -, h⟩ := Option.bind_eq_some_iff.1 hcondition
    obtain ⟨id, -, h⟩ := Option.bind_eq_some_iff.1 h
    exact List.mem_of_getElem? h
  have hfull : e.around ≠ [] → ∀ t ∈ body.children, ∀ name ∈ e.enumerators, ∀ scope,
      q.file.caseWords? t = some (e.enumeratorPath name, scope) →
        qualified (e.enumeratorPath name) ∉ q.missingCases condition body := by
    intro haround t ht name hname scope hcase hmem
    exact ((hmissing _).1 hmem).2 t ht _ scope hcase
      (namesEnumerator_enumeratorPath he hname haround scope)
  exact
    { ne_nil := hne
      sublist := by
        unfold Query.missingCases
        rw [hcondition]
        exact List.filter_sublist
      mem_iff := fun full hmem => by rw [hmissing, and_iff_right hmem]
      plain := fun t ht name scope id index hcase hfound hid hmem =>
        ((hmissing _).1 hmem).2 t ht _ scope hcase (namesEnumerator_of_mem_lookup hfound hid)
      full := hfull
      exists_lacking := by
        intro haround
        obtain ⟨full, hmem⟩ := List.exists_mem_of_ne_nil _ hne
        obtain ⟨name, hname, rfl⟩ := List.mem_map.1 ((hmissing full).1 hmem).1
        exact ⟨name, hname, fun t ht scope hcase => hfull haround t ht name hname scope hcase hmem⟩ }

end ParsedFile

/-- The text of cases is that of one case after another. -/
theorem Query.toList_caseText {names : List String} (h : names ≠ []) : (caseText names).toList =
    names.flatMap fun n => "\ncase ".toList ++ n.toList ++ ":\nbreak;".toList := by
  have htext (ns : List String) : (caseText ns).toList = "\ncase ".toList ++
      (":\nbreak;".toList ++ "\ncase ".toList).intercalate (ns.map String.toList) ++
        ":\nbreak;".toList := by
    simp [caseText, String.toList_intercalate]
  rw [htext]
  induction names with
  | nil => exact absurd rfl h
  | cons n names ih =>
    cases names with
    | nil => simp
    | cons m names =>
      rw [List.flatMap_cons, ← ih (List.cons_ne_nil m names), List.map_cons, List.map_cons,
        List.intercalate_cons_cons]
      simp only [List.append_assoc]

/-- **Every enumerator without a label gets one.** -/
theorem Query.adds_missing_cases {q : Query} {x : Proposal} (hx : x ∈ q.completeSwitch) :
    ∃ t ∈ q.path, ∃ keyword lparen rparen condition body lbrace rbrace e names,
      t.label.kind = .switchStatement keyword lparen rparen ∧ t.children = [condition, body] ∧
      body.label.kind = .block lbrace rbrace ∧ q.isOnToken keyword = true ∧
      q.enumOfCondition? condition = some e ∧
      x.patch = Patch.ofChanges q.file.path [.insert (q.file.tokenStop lbrace)
        (names.flatMap fun n => "\ncase ".toList ++ n.toList ++ ":\nbreak;".toList)]
        [q.file.spanOf body] ∧
      q.file.LacksCases body e names := by
  rw [completeSwitch, Option.mem_toList] at hx
  obtain ⟨t, depth, ht, hdecides⟩ := exists_of_decideOutward hx
  have hpath : t ∈ q.path := List.mem_of_getElem? (mem_outward_iff.1 ht)
  split at hdecides
  next keyword lparen rparen condition body hkind hchildren =>
    split at hdecides
    next lbrace rbrace hbody =>
      dsimp only at hdecides
      split at hdecides
      next hkeyword =>
        split at hdecides
        next => cases hdecides
        next hnames =>
          have hne : q.missingCases condition body ≠ [] := fun hnil => hnames (by rw [hnil]; rfl)
          obtain ⟨e, he⟩ : ∃ e, q.enumOfCondition? condition = some e := by
            cases he : q.enumOfCondition? condition with
            | some e => exact ⟨e, rfl⟩
            | none =>
              rw [missingCases, he] at hne
              exact absurd rfl hne
          obtain rfl := Option.some.inj (Option.some.inj hdecides)
          refine ⟨t, hpath, keyword, lparen, rparen, condition, body, lbrace, rbrace, e, _, hkind,
            hchildren, hbody, hkeyword, he, ?_, ParsedFile.lacksCases_missingCases he hne⟩
          rw [← toList_caseText hne]
          rfl
      next => cases hdecides
    next => cases hdecides
  next => cases hdecides

/-- **A label with the name of the enumeration does not count.**  The enumerator gets a second
label. -/
theorem Query.exists_case_added_twice :
    let t := "enum E \x7b A, B \x7d; void f(E e) \x7b switch (e) \x7b case E::A: break; \x7d \x7d"
    ∃ f, ParsedFile.parse "a.cpp" 0 t.toList = .ok f ∧
      let q : Query := ⟨.add .empty f, f, {}, 33, none⟩
      (∃ x ∈ q.completeSwitch, x.patch = Patch.ofChanges f.path
        [.insert 43 "\ncase A:\nbreak;\ncase B:\nbreak;".toList] [⟨42, 63⟩]) ∧
      ∃ t ∈ q.path, ∃ body ∈ t.children, f.spanOf body = ⟨42, 63⟩ ∧
        (body.children.head?.bind f.caseWords?).map (·.1) = some ["E", "A"] :=
  exists_of_map_decide (by decide +kernel)

/-- A variable hides an enumerator.  The label that has been added for the enumerator stands for the
variable, so it is added again. -/
example :
    let front := "enum E \x7b A, B \x7d; void f(E e) \x7b int A; switch (e) \x7b"
    let cases := "\ncase A:\nbreak;\ncase B:\nbreak;"
    (∃ f, ParsedFile.parse "a.cpp" 0 (front ++ " \x7d \x7d").toList = .ok f ∧
      ∃ x ∈ (⟨.add .empty f, f, {}, 40, none⟩ : Query).completeSwitch,
        x.patch = Patch.ofChanges f.path [.insert 50 cases.toList] [⟨49, 52⟩]) ∧
    ∃ f, ParsedFile.parse "a.cpp" 0 (front ++ cases ++ " \x7d \x7d").toList = .ok f ∧
      ∃ x ∈ (⟨.add .empty f, f, {}, 40, none⟩ : Query).completeSwitch,
        x.patch = Patch.ofChanges f.path [.insert 50 "\ncase A:\nbreak;".toList] [⟨49, 82⟩] :=
  ⟨exists_of_map_decide (by decide +kernel), exists_of_map_decide (by decide +kernel)⟩

end Mend
