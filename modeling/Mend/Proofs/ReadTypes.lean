import Mathlib.Data.List.Induction
import Mend.Proofs.ExpressionCompleteness
import Mend.Proofs.NodeMeanings

/-!
# Types and names are read back

Where the tokens of a type come next, the parser takes its words as specifiers, one round for each,
and its signs.  The words of a type end at a sign, at the name of a destructor and at the end of a
parameter; a name behind them is told from a word by what was read before it.  What the nodes of
these words mean is the type again.

## Main definitions

* `TokenStream.Passes` — tokens of given kinds and spellings are taken.
* `SourceCode.AddsWords` — specifiers are keywords and names, and add given words to a type.

## Main results

* `Parse.specifiers_yields` — **the words of a type are read as specifiers.**
* `Parse.pointers_yields` — **the signs of a type are read.**
* `Parse.type_yields` — **a type is read**, its words and its signs.
* `Parse.declaratorName?_yields`, `Parse.closeDeclarator_yields` — **the name of a declarator is
  read, and the declarator where it ends.**
-/

namespace Mend

open TokenStream

/-! ### Words that are passed -/

namespace TokenStream

variable {s m s' : TokenStream} {w : TokenKind × String} {v ws : List (TokenKind × String)}

/-- The kind and the spelling of the next token. -/
def nextWord? (s : TokenStream) : Option (TokenKind × String) := s.rest.head?.map Token.word

/-- From one state to another tokens of the given kinds and spellings are taken, and nothing else
changes. -/
def Passes (s : TokenStream) (ws : List (TokenKind × String)) (s' : TokenStream) : Prop :=
  ∃ ts, s.rest = ts ++ s'.rest ∧ ts.map Token.word = ws ∧ s'.position = s.position + ws.length ∧
    s'.textLength = s.textLength

theorem next?_of_nextWord? (h : s.nextWord? = some w) : s.next? = some w.1 := by
  obtain ⟨t, ht, rfl⟩ := Option.map_eq_some_iff.1 h
  rw [next?, ht]
  rfl

namespace Passes

/-- Tokens that are passed are consumed. -/
theorem consumes (h : s.Passes ws s') : s.Consumes (ws.map (·.1)) s' := by
  obtain ⟨ts, hrest, rfl, hposition, hlength⟩ := h
  have hkinds : ts.map (·.kind) = (ts.map Token.word).map (·.1) := by
    rw [List.map_map]
    rfl
  exact ⟨ts, hrest, hkinds, by simpa using hposition, hlength⟩

end Passes

@[simp] theorem passes_nil : s.Passes [] s' ↔ s' = s := by
  constructor
  · exact fun h => consumes_nil.1 h.consumes
  · rintro rfl
    exact ⟨[], by simp⟩

@[simp] theorem passes_cons :
    s.Passes (w :: ws) s' ↔ s.nextWord? = some w ∧ s.tail.Passes ws s' := by
  obtain ⟨rest, position, length⟩ := s
  cases rest with
  | nil => simp [Passes, nextWord?]
  | cons t rest =>
    constructor
    · rintro ⟨ts, hrest, hwords, hposition, hlength⟩
      obtain ⟨u, us, rfl, rfl, rfl⟩ := List.map_eq_cons_iff.1 hwords
      obtain ⟨rfl, rfl⟩ := List.cons.inj hrest
      refine ⟨rfl, us, rfl, rfl, ?_, hlength⟩
      simp only [tail, List.length_cons] at hposition ⊢
      omega
    · rintro ⟨hw, us, hrest, hwords, hposition, hlength⟩
      simp only [tail] at hrest hposition hlength
      obtain rfl : t.word = w := Option.some.inj hw
      refine ⟨t :: us, by simp [hrest], by simp [hwords], ?_, hlength⟩
      simp only [List.length_cons] at hposition ⊢
      omega

theorem passes_singleton : s.Passes [w] s' ↔ s.nextWord? = some w ∧ s' = s.tail := by
  rw [passes_cons, passes_nil]

@[simp] theorem passes_append :
    s.Passes (v ++ ws) s' ↔ ∃ m, s.Passes v m ∧ m.Passes ws s' := by
  induction v generalizing s with
  | nil => simp
  | cons w v ih => simp [ih, and_assoc]

namespace Passes

protected theorem isTail (h : s.Passes ws s') : s'.IsTail s := h.consumes.isTail

/-- Where something is passed, fewer tokens are left. -/
protected theorem length_lt (h : s.Passes ws s') (hne : ws ≠ []) :
    s'.rest.length < s.rest.length := by
  have hpos := List.length_pos_iff.2 hne
  have hlength := h.consumes.length_eq
  rw [List.length_map] at hlength
  omega

/-- The first token that is passed is the next one. -/
theorem next?_eq (h : s.Passes ws s') (hw : ws.head? = some w) : s.next? = some w.1 := by
  obtain ⟨ws, rfl⟩ := List.head?_eq_some_iff.1 hw
  exact next?_of_nextWord? (passes_cons.1 h).1

end Passes

end TokenStream

/-- A word of a type has tokens. -/
theorem TypeWord.IsSound.tokens_ne_nil {w : TypeWord} (h : w.IsSound) : w.tokens ≠ [] := by
  cases w with
  | keyword k spelling => exact List.cons_ne_nil _ _
  | name words =>
    obtain ⟨w, ws, rfl⟩ := List.exists_cons_of_ne_nil h.1
    cases ws <;> exact List.cons_ne_nil _ _

namespace SourceCode

variable {c : SourceCode} {s m s' : TokenStream} {w : TokenKind × String}

/-- The next token is found where it stands. -/
theorem found_of_nextWord? (hs : s.IsTail c.stream) (h : s.nextWord? = some w) :
    c.kindOf? s.position = some w.1 ∧ c.spelling s.position = w.2 := by
  obtain ⟨t, ht, rfl⟩ := Option.map_eq_some_iff.1 h
  have htoken : c.tokens[s.position]? = some t := by
    rw [← Nat.add_zero s.position, getElem?_tokens hs, ← List.head?_eq_getElem?, ht]
  rw [kindOf?, spelling, htoken]
  exact ⟨rfl, rfl⟩

/-! ### Names -/

/-- The tokens of qualifiers. -/
def qualifierTokens (qs : List String) : List (TokenKind × String) :=
  qs.flatMap fun q => [(.identifier, q), (.colonColon, "::")]

/-- The last word of a name comes behind its qualifiers. -/
theorem tokens_name (qs : List String) (word : String) :
    (TypeWord.name (qs ++ [word])).tokens = qualifierTokens qs ++ [(.identifier, word)] := by
  induction qs with
  | nil => rfl
  | cons q qs ih =>
    cases qs with
    | nil => rfl
    | cons r qs => exact congrArg ([(.identifier, q), (.colonColon, "::")] ++ ·) ih

theorem exists_qualifiers (hs : s.IsTail c.stream) {qs : List String}
    (h : s.Passes (qualifierTokens qs) m) :
    ∃ is, Phrase.Qualifiers s.position ((qualifierTokens qs).map (·.1)) is ∧
      is.map c.spelling = qs := by
  induction qs generalizing s with
  | nil => exact ⟨[], .nil _, rfl⟩
  | cons q qs ih =>
    obtain ⟨hq, hcolons, h⟩ :
        s.nextWord? = some (.identifier, q) ∧ s.tail.nextWord? = some (.colonColon, "::") ∧
          s.tail.tail.Passes (qualifierTokens qs) m := by simpa [qualifierTokens] using h
    have hposition : s.tail.tail.position = s.position + 2 := by
      rw [tail_position (next?_of_nextWord? hcolons), tail_position (next?_of_nextWord? hq)]
    obtain ⟨is, his, hspelled⟩ := ih ((isTail_tail _).trans ((isTail_tail _).trans hs)) h
    refine ⟨s.position :: is, .cons (hposition ▸ his), ?_⟩
    rw [List.map_cons, hspelled, (found_of_nextWord? hs hq).2]

/-- **The name of a type is read**, and it is not taken for the name of a declarator. -/
theorem exists_name_of_passes (hs : s.IsTail c.stream) {words : List String} (hne : words ≠ [])
    (h : s.Passes (TypeWord.name words).tokens s') :
    s.next? = some .identifier ∧
      (s'.next? ≠ some .lParen → s'.next? ≠ some .colonColon →
        Parse.isSpecifierNext false s = true) ∧
      ∃ e, Phrase.Name s.position ((TypeWord.name words).tokens.map (·.1)) e ∧
        e.Means fun t => c.nameOf? t = some words := by
  obtain ⟨qs, word, rfl⟩ : ∃ qs word, words = qs ++ [word] :=
    ⟨_, _, (List.dropLast_append_getLast hne).symm⟩
  rw [tokens_name] at h ⊢
  obtain ⟨m, hqs, hword⟩ := passes_append.1 h
  obtain ⟨hnext, rfl⟩ := passes_singleton.1 hword
  obtain ⟨is, his, rfl⟩ := exists_qualifiers hs hqs
  have hfirst : s.next? = some .identifier := by
    cases is with
    | nil => exact h.next?_eq rfl
    | cons => exact h.next?_eq rfl
  refine ⟨hfirst, fun hparen hcolons => ?_, ?_⟩
  · have hopens : Parse.opensDeclarator s.rest = false := by
      apply eq_false_of_ne_true
      intro ho
      have hconsumes := h.consumes
      rw [List.map_append] at hconsumes
      rcases Parse.next?_of_opensDeclarator his hconsumes ho with hnext | hnext
      · exact hparen hnext
      · exact hcolons hnext
    have hat : s.isAt .colonColon = false := by simp [isAt, hfirst]
    simp [Parse.isSpecifierNext, hfirst, Parse.isDeclaratorNext, hat, hopens]
  · have hm : m.IsTail c.stream := hqs.isTail.trans hs
    have hname : Phrase.UnqualifiedName m.position [.identifier]
        (.spanning (.simpleName m.position) m.position [.identifier] []) := .simple _
    have hmeans : (PieceTree.spanning (.simpleName m.position) m.position [.identifier] []).Means
        fun t => c.nameOf? t = some [word] := by
      apply PieceTree.means_node
      intro n ts hn _
      rw [nameOf?_node, nameStep, hn]
      exact congrArg (fun w => some [w]) (found_of_nextWord? hm hnext).2
    by_cases hnil : is = []
    · rw [hnil] at hqs ⊢
      obtain rfl := passes_nil.1 hqs
      exact ⟨_, .bare hname, hmeans⟩
    · rw [hqs.consumes.position_eq] at hname hmeans
      rw [List.map_append]
      exact ⟨_, .qualified hnil his hname, means_qualifiedName hmeans⟩

/-- A name without qualifiers begins with its word or with a tilde. -/
theorem next?_of_name {N : NameSpelling} (h : s.Passes N.tokens s') :
    s.next? = some (if N.isDestructor then .tilde else .identifier) := by
  rw [NameSpelling.tokens] at h
  by_cases hd : N.isDestructor = true
  · rw [if_pos hd] at h ⊢
    exact h.next?_eq rfl
  · rw [if_neg hd] at h ⊢
    exact h.next?_eq rfl

/-- **The name of a declarator is read.** -/
theorem exists_unqualifiedName_of_passes (hs : s.IsTail c.stream) {N : NameSpelling}
    (h : s.Passes N.tokens s') :
    ∃ e, Phrase.UnqualifiedName s.position (N.tokens.map (·.1)) e ∧
      e.Means fun t => c.nameOf? t = some [N.text] := by
  rw [NameSpelling.tokens] at h ⊢
  by_cases hd : N.isDestructor = true
  · rw [if_pos hd] at h ⊢
    obtain ⟨htilde, hword, -⟩ : s.nextWord? = some (.tilde, "~") ∧
      s.tail.nextWord? = some (.identifier, N.word) ∧ s' = s.tail.tail := by simpa using h
    refine ⟨_, .destructor _, PieceTree.means_node fun n ts hn _ => ?_⟩
    have hspelling := (found_of_nextWord? ((isTail_tail s).trans hs) hword).2
    rw [tail_position (next?_of_nextWord? htilde)] at hspelling
    rw [nameOf?_node, nameStep, hn, NameSpelling.text, if_pos hd]
    simp only [hspelling]
  · rw [if_neg hd] at h ⊢
    obtain ⟨hword, -⟩ := passes_singleton.1 h
    refine ⟨_, .simple _, PieceTree.means_node fun n ts hn _ => ?_⟩
    rw [nameOf?_node, nameStep, hn, NameSpelling.text, if_neg hd]
    simp only [(found_of_nextWord? hs hword).2]

/-! ### Specifiers -/

/-- A specifier is a keyword or a name, and adds a word to the type. -/
def AddsWord (c : SourceCode) (word : String) (t : SyntaxTree) : Prop :=
  t.label.kind.isPlainSpecifier = true ∧ c.typeWord? t = some word

/-- Specifiers are keywords and names, and add words to the type. -/
def AddsWords (c : SourceCode) (ws : List TypeWord) (ts : List SyntaxTree) : Prop :=
  (∀ t ∈ ts, t.label.kind.isPlainSpecifier = true) ∧ ts.filterMap c.typeWord? = ws.map TypeWord.text

theorem AddsWords.isSpecifier {ws : List TypeWord} {ts : List SyntaxTree}
    (h : c.AddsWords ws ts) : ∀ t ∈ ts, t.label.kind.isSpecifier = true := by
  intro t ht
  exact (Bool.and_eq_true_iff.1 (h.1 t ht)).1

end SourceCode

namespace Parse

open SourceCode

variable {c : SourceCode} {g : Grammar} {s s' : TokenStream} {w : TypeWord} {ws : List TypeWord}

theorem isSpecifier_of_isTypePart {k : TokenKind} (h : k.isTypePart = true) :
    k.isSpecifier = true ∧ k.isClassKey = false ∧ k ≠ .kwEnum := by
  cases k <;> first | exact ⟨rfl, rfl, nofun⟩ | cases h

/-- **A word of a type is read as a specifier.** -/
theorem specifier_yields (hs : s.IsTail c.stream) (hw : w.IsSound) (h : s.Passes w.tokens s')
    (hparen : s'.next? ≠ some .lParen) (hcolons : s'.next? ≠ some .colonColon) :
    (∀ seen, (seen = true → w.isKeyword = true) → isSpecifierNext seen s = true) ∧
      ∃ u, (specifier g).Yields s (u, w.namesType) s' ∧ u.Means (c.AddsWord w.text) := by
  cases w with
  | keyword k spelling =>
    obtain ⟨hnext, rfl⟩ := passes_singleton.1 h
    have hk := next?_of_nextWord? hnext
    obtain ⟨hkind, hspelling⟩ := found_of_nextWord? hs hnext
    obtain ⟨hspecifier, hclass, henum⟩ := isSpecifier_of_isTypePart hw.1
    refine ⟨fun seen _ => by simp [isSpecifierNext, hk, hspecifier],
      .spanning (.simpleSpecifier s.position) s.position [k] [], ?_, ?_⟩
    · refine .get_bind <| (peek_yields s).bind ?_
      rw [hk]
      split
      next heq => exact absurd (Option.some.inj heq) henum
      next k' _ heq =>
        obtain rfl := Option.some.inj heq
        rw [if_neg (by simp [hclass]), if_pos hspecifier]
        refine (advance_yields s).bind ?_
        exact (close_yields (consumes_singleton.2 ⟨hk, rfl⟩) (by simp) rfl).bind (.pure _ _)
      next heq => cases heq
    · refine PieceTree.means_node fun n ts hn _ => ⟨by rw [Rose.label_node, hn]; rfl, ?_⟩
      rw [typeWord?_simpleSpecifier hn hkind hspecifier, if_pos hw.1, hspelling]
      rfl
  | name words =>
    obtain ⟨hnext, hspecifier, e, he, hmeans⟩ := exists_name_of_passes hs hw.1 h
    refine ⟨fun seen hseen => ?_, .spanning .namedTypeSpecifier s.position
      ((TypeWord.name words).tokens.map (·.1)) [e], ?_, ?_⟩
    · have hfalse : seen = false := by
        cases seen with
        | false => rfl
        | true => cases hseen rfl
      exact hfalse ▸ hspecifier hparen hcolons
    · refine .get_bind <| (peek_yields s).bind ?_
      rw [hnext]
      refine (name_yields he h.consumes hcolons).bind ?_
      exact (close_yields h.consumes (by simpa using hw.tokens_ne_nil) rfl).bind (.pure _ _)
    · apply PieceTree.means_node
      intro n ts hn hts
      exact ⟨by rw [Rose.label_node, hn]; rfl, typeWord?_namedTypeSpecifier hn hts he hmeans⟩

/-- A word of a type begins with a keyword of types or with a name. -/
theorem exists_next?_of_word (hw : w.IsSound) (h : s.Passes w.tokens s') :
    ∃ k, s.next? = some k ∧ (k = .identifier ∨ k.isTypePart = true) := by
  cases w with
  | keyword k spelling => exact ⟨k, h.next?_eq rfl, .inr hw.1⟩
  | name words =>
    obtain ⟨word, words, rfl⟩ := List.exists_cons_of_ne_nil hw.1
    have hnext : s.next? = some .identifier := by
      cases words <;> exact h.next?_eq rfl
    exact ⟨_, hnext, .inl rfl⟩

/-- A word of a type does not begin with a token of another kind. -/
theorem next?_ne_of_word {k : TokenKind} (hw : w.IsSound) (h : s.Passes w.tokens s')
    (hname : k ≠ .identifier) (hpart : k.isTypePart = false) : s.next? ≠ some k := by
  obtain ⟨k', hk', hkind⟩ := exists_next?_of_word hw h
  rw [hk']
  rintro heq
  obtain rfl := Option.some.inj heq
  simp [hname, hpart] at hkind

/-- **The words of a type are read as specifiers**, one round for each. -/
theorem specifiers_reaches (hs : s.IsTail c.stream) (hws : ∀ w ∈ ws, w.IsSound)
    (hordered : ws.Pairwise fun v w => v.namesType = true → w.isKeyword = true)
    (h : s.Passes (ws.flatMap TypeWord.tokens) s') (hparen : s'.next? ≠ some .lParen)
    (hcolons : s'.next? ≠ some .colonColon) :
    ∃ us : List PieceTree, us.length = ws.length ∧ PieceTree.AllMean (c.AddsWords ws) us ∧
      Reaches (fun p s => isSpecifierNext p.2 s) (fun p => do
        let q ← specifier g
        return (q.1 :: p.1, p.2 || q.2)) (([] : List PieceTree), false) s
        (us.reverse, ws.any TypeWord.namesType) s' := by
  induction ws using List.reverseRecOn generalizing s' with
  | nil =>
    obtain rfl := passes_nil.1 h
    exact ⟨[], rfl, .nil ⟨nofun, rfl⟩, .refl _ _⟩
  | append_singleton ws w ih =>
    obtain ⟨hws, hw⟩ := List.forall_mem_append.1 hws
    have hw := hw w (List.mem_singleton_self w)
    obtain ⟨hordered, -, hlast⟩ := List.pairwise_append.1 hordered
    rw [List.flatMap_append, List.flatMap_singleton] at h
    obtain ⟨m, hm, h⟩ := passes_append.1 h
    obtain ⟨us, hlength, hus, hreaches⟩ := ih hws hordered hm
      (next?_ne_of_word hw h nofun rfl) (next?_ne_of_word hw h nofun rfl)
    obtain ⟨hmore, u, hyields, hu⟩ :=
      specifier_yields (g := g) (hm.isTail.trans hs) hw h hparen hcolons
    refine ⟨us ++ [u], by simp [hlength], hus.concat hu fun ts t hts ht => ⟨?_, ?_⟩, ?_⟩
    · exact List.forall_mem_append.2 ⟨hts.1, List.forall_mem_singleton.2 ht.1⟩
    · rw [List.filterMap_append, hts.2, List.map_append]
      simp [ht.2]
    · have hany : (ws ++ [w]).any TypeWord.namesType =
          (ws.any TypeWord.namesType || w.namesType) := by simp
      rw [List.reverse_concat, hany]
      refine hreaches.step (hmore _ fun hseen => ?_) (hyields.bind (.pure _ _))
        (h.length_lt hw.tokens_ne_nil)
      obtain ⟨v, hv, hnames⟩ := List.any_eq_true.1 hseen
      exact hlast v hv w (List.mem_singleton_self w) hnames

/-- **The words of a type are read**, up to where no specifier comes next. -/
theorem specifiers_yields (hs : s.IsTail c.stream) (hws : ∀ w ∈ ws, w.IsSound)
    (hordered : ws.Pairwise fun v w => v.namesType = true → w.isKeyword = true)
    (h : s.Passes (ws.flatMap TypeWord.tokens) s') (hparen : s'.next? ≠ some .lParen)
    (hcolons : s'.next? ≠ some .colonColon)
    (hend : isSpecifierNext (ws.any TypeWord.namesType) s' = false) :
    ∃ us : List PieceTree, us.length = ws.length ∧ PieceTree.AllMean (c.AddsWords ws) us ∧
      (specifiers g).Yields s us s' := by
  obtain ⟨us, hlength, hus, hreaches⟩ := specifiers_reaches hs hws hordered h hparen hcolons
  refine ⟨us, hlength, hus, (hreaches.repeatWhile_yields hend).bind ?_⟩
  have hreverse : (pure us.reverse.reverse : Parse (List PieceTree)).Yields s' us s' := by
    rw [List.reverse_reverse]
    exact .pure _ _
  exact hreverse

/-! ### Signs -/

/-- Signs are signs. -/
theorem isPointerPart_of_mem_signTokens {k : TokenKind} {t : Text} (h : k ∈ signTokens t) :
    k = .star ∨ k = .amp ∨ k = .ampAmp := by
  fun_induction signTokens t with
  | case1 => cases h
  | case2 t ih | case3 t _ ih | case4 c t _ _ ih =>
    rcases List.mem_cons.1 h with rfl | h
    · simp
    · exact ih h

/-- Signs are read one after another. -/
theorem pointers_reaches (hs : s.IsTail c.stream) {ks : List TokenKind}
    (hks : ∀ k ∈ ks, k = .star ∨ k = .amp ∨ k = .ampAmp)
    (h : s.Passes (ks.map fun k => (k, k.spelling)) s') :
    ∃ is : List Nat, is.map c.kindOf? = ks.map some ∧
      is.map c.spelling = ks.map TokenKind.spelling ∧
      Reaches isPointerNext (fun seen => do return (← advance) :: seen) [] s is.reverse s' := by
  induction ks using List.reverseRecOn generalizing s' with
  | nil =>
    obtain rfl := passes_nil.1 h
    exact ⟨[], rfl, rfl, .refl _ _⟩
  | append_singleton ks k ih =>
    obtain ⟨hks, hk⟩ := List.forall_mem_append.1 hks
    rw [List.map_append, List.map_singleton] at h
    obtain ⟨m, hm, h⟩ := passes_append.1 h
    obtain ⟨is, hkinds, hspellings, hreaches⟩ := ih hks hm
    obtain ⟨hnext, rfl⟩ := passes_singleton.1 h
    obtain ⟨hkind, hspelling⟩ := found_of_nextWord? (hm.isTail.trans hs) hnext
    refine ⟨is ++ [m.position], by simp [hkinds, hkind], by simp [hspellings, hspelling], ?_⟩
    rw [List.reverse_concat]
    refine hreaches.step ?_ ((advance_yields m).bind (.pure _ _)) (h.length_lt (by simp))
    rw [isPointerNext, next?_of_nextWord? hnext]
    rcases hk k (List.mem_singleton_self k) with rfl | rfl | rfl <;> rfl

/-- **The signs of a type are read**, up to where no sign comes next. -/
theorem pointers_yields (hs : s.IsTail c.stream) {signs : String}
    (hsigns : signs.toList.all isSign = true)
    (h : s.Passes ((signTokens signs.toList).map fun k => (k, k.spelling)) s')
    (hend : ∀ k ∈ s'.next?, k.isPointerPart = false) :
    ∃ is, c.signsOf is = signs ∧ pointers.Yields s is s' := by
  have hkinds := fun k (hk : k ∈ signTokens signs.toList) => isPointerPart_of_mem_signTokens hk
  obtain ⟨is, hfound, hspellings, hreaches⟩ := pointers_reaches hs hkinds h
  refine ⟨is, ?_, (hreaches.repeatWhile_yields ?_).bind ?_⟩
  · have hall : is.filter (fun i => !c.isKind i .kwConst) = is := by
      rw [List.filter_eq_self]
      intro i hi
      have hmem : c.kindOf? i ∈ (signTokens signs.toList).map some :=
        hfound ▸ List.mem_map_of_mem hi
      obtain ⟨k, hk, hki⟩ := List.mem_map.1 hmem
      rw [isKind, ← hki]
      rcases hkinds k hk with rfl | rfl | rfl <;> rfl
    refine String.toList_inj.1 ?_
    rw [signsOf, hall, hspellings, String.toList_join, List.flatMap_map]
    refine Eq.trans ?_ (chars_signTokens hsigns)
    rw [Scrap.chars, List.flatMap_map]
    rfl
  · apply eq_false_of_ne_true
    intro hmore
    obtain ⟨k, hk, hpart, -⟩ := exists_isPointerPart hmore
    rw [hend k hk] at hpart
    cases hpart
  · have hreverse : (pure is.reverse.reverse : Parse (List Nat)).Yields s' is s' := by
      rw [List.reverse_reverse]
      exact .pure _ _
    exact hreverse

/-! ### Types -/

/-- Tokens at which the words of a type end, and behind which no name goes on. -/
def endsWords : TokenKind → Bool
  | .star | .amp | .ampAmp | .tilde | .comma | .rParen => true
  | _ => false

theorem isSpecifierNext_of_endsWords {k : TokenKind} (hk : s.next? = some k)
    (h : endsWords k = true) (seen : Bool) : isSpecifierNext seen s = false := by
  rw [isSpecifierNext, hk]
  cases k <;> first | rfl | cases h

theorem signTokens_eq_nil_iff {signs : String} (h : signs.toList.all isSign = true) :
    signTokens signs.toList = [] ↔ signs = "" := by
  constructor
  · intro hnil
    have hchars := chars_signTokens h
    rw [hnil] at hchars
    exact String.toList_inj.1 hchars.symm
  · rintro rfl
    rfl

/-- **A type is read**: its words as specifiers, and its signs.  Without signs, no specifier may
come next. -/
theorem type_yields {T : TypeSpelling} (hs : s.IsTail c.stream) (hT : T.IsSound)
    (h : s.Passes T.tokens s') (hparen : s'.next? ≠ some .lParen)
    (hcolons : s'.next? ≠ some .colonColon) (hend : ∀ k ∈ s'.next?, k.isPointerPart = false)
    (hafter : T.signs = "" → isSpecifierNext (T.words.any TypeWord.namesType) s' = false) :
    ∃ (us : List PieceTree) (is : List Nat) (m : TokenStream),
      us.length = T.words.length ∧ PieceTree.AllMean (c.AddsWords T.words) us ∧
      c.signsOf is = T.signs ∧ (specifiers g).Yields s us m ∧ pointers.Yields m is s' ∧
      (T.signs = "" → m = s') ∧
      (T.signs ≠ "" → m.next? = some .star ∨ m.next? = some .amp ∨ m.next? = some .ampAmp) := by
  obtain ⟨m, hwords, hsigns⟩ := passes_append.1 h
  have hnil := signTokens_eq_nil_iff hT.signs
  have hsame : T.signs = "" → m = s' := by
    intro hempty
    rw [hnil.2 hempty] at hsigns
    exact (passes_nil.1 hsigns).symm
  have hsign : T.signs ≠ "" →
      m.next? = some .star ∨ m.next? = some .amp ∨ m.next? = some .ampAmp := by
    intro hne
    obtain ⟨k, ks, hks⟩ := List.exists_cons_of_ne_nil (mt hnil.1 hne)
    have hk := isPointerPart_of_mem_signTokens (hks ▸ List.mem_cons_self)
    rw [hks] at hsigns
    rw [hsigns.next?_eq rfl]
    simpa using hk
  obtain ⟨is, his, hpointers⟩ := pointers_yields (hwords.isTail.trans hs) hT.signs hsigns hend
  have hmid : m.next? ≠ some .lParen ∧ m.next? ≠ some .colonColon ∧
      isSpecifierNext (T.words.any TypeWord.namesType) m = false := by
    by_cases hempty : T.signs = ""
    · rw [hsame hempty]
      exact ⟨hparen, hcolons, hafter hempty⟩
    · rcases hsign hempty with hk | hk | hk
      all_goals
        refine ⟨by simp [hk], by simp [hk], isSpecifierNext_of_endsWords hk rfl _⟩
  obtain ⟨us, hlength, hus, hspecifiers⟩ :=
    specifiers_yields hs hT.words hT.ordered hwords hmid.1 hmid.2.1 hmid.2.2
  exact ⟨us, is, m, hlength, hus, his, hspecifiers, hpointers, hsame, hsign⟩

/-! ### Declarators -/

/-- **The name of a declarator is read.** -/
theorem declaratorName?_yields {N : NameSpelling} (hs : s.IsTail c.stream)
    (h : s.Passes N.tokens s') (hcolons : s'.next? ≠ some .colonColon) :
    ∃ u, declaratorName?.Yields s (some u) s' ∧ u.label.kind = .declaratorName ∧
      u.Means fun t => c.nameOf? t = some ([] ++ [N.text]) := by
  obtain ⟨e, he, hmeans⟩ := exists_unqualifiedName_of_passes hs h
  have hclose : (close .declaratorName s.position [e]).Yields s'
      (.spanning .declaratorName s.position (N.tokens.map (·.1)) [e]) s' :=
    close_yields h.consumes (by simp [NameSpelling.tokens]) rfl
  refine ⟨.spanning .declaratorName s.position (N.tokens.map (·.1)) [e],
    .get_bind <| (peek_yields s).bind ?_, rfl, ?_⟩
  · rw [next?_of_name h]
    cases N.isDestructor
    all_goals exact (name_yields (.bare he) h.consumes hcolons).bind (hclose.bind (.pure _ _))
  · exact PieceTree.means_node fun n ts hn hts => nameOf?_declaratorName hn hts hmeans

/-- There is no name where none begins. -/
theorem declaratorName?_yields_none
    (hend : s.next? = some .comma ∨ s.next? = some .rParen) : declaratorName?.Yields s none s := by
  refine .get_bind <| (peek_yields s).bind ?_
  rcases hend with hend | hend
  all_goals
    rw [hend]
    exact .pure _ _

/-- **A declarator is read** where it ends, whatever its parts are. -/
theorem closeDeclarator_yields (hg : g.DeclaresFrom c.stream) (hs : s.IsTail c.stream)
    (first : Nat) (pointers : List Nat) (parts : List PieceTree)
    (hbracket : s.next? ≠ some .lBracket) (hequal : s.next? ≠ some .equal) :
    ∃ u, (closeDeclarator g first pointers parts).Yields s u s ∧
      u.Means (SyntaxTree.HasParts pointers parts) := by
  have hmore : s.isAt .lBracket = false := by simpa [isAt] using hbracket
  have hbounds : arrayBounds.Yields s () s :=
    (Yields.get_bind (items_yields_nil hmore _)).bind (.pure _ _)
  have hvalue : (initialValue? g).Yields s none s := (eat?_yields_none hequal).bind (.pure _ _)
  have hyields : (closeDeclarator g first pointers parts).Yields s
      (.node ⟨.declarator pointers none, first, max first (s.position - 1)⟩ parts) s :=
    hbounds.bind (hvalue.bind (.get_bind (.pure _ _)))
  exact ⟨_, hyields, (closeDeclarator_means hg hs _ _ hyields).2.2⟩

end Parse

end Mend
