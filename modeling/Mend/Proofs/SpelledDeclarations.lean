import Mend.Proofs.NodeMeanings
import Mend.Proofs.PrecedenceClimbing

/-!
# What declarations spell

A declaration that is read from a text spells the type, the name and the parameters of what it
declares, when its specifiers are keywords and names.  Storage keywords are no part of a type, the
qualifiers of a name are no part of the name, and neither are `const` behind a sign, array bounds
and initial values.

The parser tells the words of a type from the name behind them by looking ahead: after a word that
names a type no other name is one, and before that a name is none if a parameter list or the name of
a destructor follows.  In a parameter nothing could go on behind such a list, so a name there comes
behind a word that names a type, behind a sign, or is that of a destructor.

## Main definitions

* `SourceCode.SpellsWords`, `SourceCode.SpellsSigns` — the words and the signs of a type.
* `SourceCode.SpellsSpecifiers` — specifiers with the words that they spell, if they are plain.
* `SourceCode.SpellsParameter`, `SourceCode.SpellsDeclarator`, `SourceCode.SpellsDeclaration` — what
  the nodes of a declaration spell.

## Main results

* `SourceCode.exists_name` — **a name spells its qualifiers and its last word.**
* `Parse.specifiers_spell`, `Parse.pointers_spell` — **specifiers spell the words of a type, and
  signs are signs.**
* `Parse.parameter_spells` — **a parameter with a type can be read**, or the list goes no further.
* `Parse.simpleDeclaration_spells` — **what a declaration spells.**
-/

namespace Mend

open TokenStream

/-! ### Tokens and names -/

namespace SourceCode

variable {c : SourceCode} {text : Text} {i : Nat} {k : TokenKind} {w : List TokenKind}
  {e : PieceTree}

/-- The lexer finds the tokens of a text as they are spelled. -/
theorem spells_of_kindOf? (h : ofText text = .ok c) (hk : c.kindOf? i = some k) :
    k.Spells (c.spelling i) := by
  obtain ⟨L, p, hL, -, rfl⟩ := ofText_eq_ok_iff.1 h
  obtain ⟨tok, htok, rfl⟩ := Option.map_eq_some_iff.1 hk
  obtain ⟨b, d, u, r, hspelling, hscan⟩ :=
    Lexed.exists_scan_of_mem_tokens hL (List.mem_of_getElem? (by simpa using htok))
  refine ⟨tok.kind, b, d, u, r, ?_, hscan⟩
  rw [spelling, htok, ← hspelling]
  rfl

/-- Punctuation is spelled in one way. -/
theorem spelling_of_kindOf? (h : ofText text = .ok c) (hk : c.kindOf? i = some k)
    (hmark : punctuators.any (·.2 == k) = true) : c.spelling i = k.spelling := by
  have hspellings : punctuators.all (fun p => p.1 == p.2.spelling) = true := by decide
  obtain ⟨k', b, d, u, r, heq, hscan⟩ := spells_of_kindOf? h hk
  obtain ⟨hkind, htext⟩ := Scrap.mk.inj heq
  obtain rfl : k = k' := LexemeClass.token.inj hkind
  have hmem := List.all_eq_true.1 hspellings _ (Lexeme.mem_punctuators_of_scan hscan hmark)
  rw [List.take_left, ← htext] at hmem
  simpa using hmem

/-- What a name without qualifiers spells. -/
theorem exists_unqualifiedName (hc : ofText text = .ok c) (h : Phrase.UnqualifiedName i w e)
    (hf : TokenKind.FoundAt c.kindOf? i w) : ∃ N : NameSpelling, N.IsSound ∧
      (N.isDestructor = false → w = [.identifier]) ∧
      e.Means fun t => c.nameOf? t = some [N.text] := by
  cases h with
  | simple =>
    refine ⟨⟨false, c.spelling i⟩, spells_of_kindOf? hc hf.head, fun _ => rfl, ?_⟩
    apply PieceTree.means_node
    intro n ts hn _
    rw [nameOf?_node, nameStep, hn]
    rfl
  | destructor =>
    refine ⟨⟨true, c.spelling (i + 1)⟩, spells_of_kindOf? hc hf.tail.head,
      fun h => Bool.noConfusion h, ?_⟩
    apply PieceTree.means_node
    intro n ts hn _
    rw [nameOf?_node, nameStep, hn]
    rfl

/-- Qualifiers are names. -/
theorem spells_of_qualifiers (hc : ofText text = .ok c) {qs : List Nat}
    (h : Phrase.Qualifiers i w qs) (hf : TokenKind.FoundAt c.kindOf? i w) :
    ∀ q ∈ qs.map c.spelling, TokenKind.identifier.Spells q := by
  induction h with
  | nil => nofun
  | cons _ ih =>
    exact List.forall_mem_cons.2 ⟨spells_of_kindOf? hc hf.head, ih hf.tail.tail⟩

/-- **What a name spells**: its qualifiers and its last word.  If that is no destructor, a
declarator that begins with the name has a parameter list. -/
theorem exists_name (hc : ofText text = .ok c) (h : Phrase.Name i w e)
    (hf : TokenKind.FoundAt c.kindOf? i w) : ∃ (qs : List String) (N : NameSpelling),
      (∀ q ∈ qs, TokenKind.identifier.Spells q) ∧ N.IsSound ∧
      (e.Means fun t => c.nameOf? t = some (qs ++ [N.text])) ∧
      (N.isDestructor = false → ∀ s s' : TokenStream, s.Consumes w s' →
        Parse.isSpecifierNext false s = false →
          s'.next? = some .lParen ∨ s'.next? = some .colonColon) := by
  have hlater {v : List TokenKind} {qs : List Nat} {j : Nat} (hqs : Phrase.Qualifiers j v qs)
      {s s' : TokenStream} (hs : s.Consumes (v ++ [.identifier]) s')
      (hd : Parse.isSpecifierNext false s = false) :
      s'.next? = some .lParen ∨ s'.next? = some .colonColon := by
    have hnext : s.next? = some .identifier := by
      cases hqs with
      | nil => exact hs.next?_eq rfl
      | cons => exact hs.next?_eq rfl
    have hd := Parse.isDeclaratorNext_of_not (.inl hnext) hd
    rw [Parse.isDeclaratorNext, if_neg (by simp [isAt, hnext])] at hd
    exact Parse.next?_of_opensDeclarator hqs hs hd
  cases h with
  | bare name =>
    obtain ⟨N, hN, hplain, hmeans⟩ := exists_unqualifiedName hc name hf
    refine ⟨[], N, List.forall_mem_nil _, hN, hmeans, fun hd s s' hs => ?_⟩
    rw [hplain hd] at hs
    exact hlater (.nil i) hs
  | qualified _ hqs name =>
    obtain ⟨N, hN, hplain, hmeans⟩ := exists_unqualifiedName hc name hf.right
    refine ⟨_, N, spells_of_qualifiers hc hqs hf.left, hN, means_qualifiedName hmeans,
      fun hd s s' hs => ?_⟩
    rw [hplain hd] at hs
    exact hlater hqs hs
  | global hqs name =>
    have hf := hf.tail
    obtain ⟨N, hN, hplain, hmeans⟩ := exists_unqualifiedName hc name hf.right
    refine ⟨_, N, spells_of_qualifiers hc hqs hf.left, hN, means_qualifiedName hmeans,
      fun hd s s' hs hdeclarator => ?_⟩
    rw [hplain hd] at hs
    obtain ⟨hcolons, hs⟩ := consumes_cons.1 hs
    have hdeclarator := Parse.isDeclaratorNext_of_not (.inr hcolons) hdeclarator
    obtain ⟨rest, position, length⟩ := s
    cases rest with
    | nil => cases hcolons
    | cons t rest =>
      rw [Parse.isDeclaratorNext, if_pos (isAt_eq_true_iff.2 hcolons)] at hdeclarator
      exact Parse.next?_of_opensDeclarator hqs hs hdeclarator

end SourceCode

/-! ### Specifiers -/

namespace SourceCode

variable {c : SourceCode} {ts : List SyntaxTree} {ws : List TypeWord}

/-- A name without a tilde is made of names. -/
theorem isSound_name {qs : List String} {N : NameSpelling}
    (hqs : ∀ q ∈ qs, TokenKind.identifier.Spells q) (hN : N.IsSound)
    (htilde : '~' ∉ (TypeWord.name (qs ++ [N.text])).text.toList) :
    (TypeWord.name (qs ++ [N.text])).IsSound := by
  have hplain : N.isDestructor = false := by
    refine Bool.eq_false_iff.2 fun hd => htilde ?_
    rw [TypeWord.text, qualified, String.toList_intercalate]
    refine subset_intercalate (List.mem_map_of_mem (List.mem_append_right qs
      (List.mem_singleton_self _))) ?_
    rw [NameSpelling.text, if_pos hd, String.toList_append]
    exact List.mem_cons_self
  refine ⟨by simp, List.forall_mem_append.2 ⟨hqs, List.forall_mem_singleton.2 ?_⟩⟩
  rw [NameSpelling.text, hplain]
  exact hN

/-- The words that specifiers spell.  A word with a tilde is the name of a destructor. -/
structure SpellsWords (c : SourceCode) (ts : List SyntaxTree) (ws : List TypeWord) : Prop where
  /-- How the words are spelled. -/
  texts : ts.filterMap c.typeWord? = ws.map TypeWord.text
  /-- All other words can be read. -/
  sound : ∀ w ∈ ws, '~' ∉ w.text.toList → w.IsSound
  /-- A name comes before all words that name a type. -/
  ordered : ws.Pairwise fun v w => v.namesType = true → w.isKeyword = true

/-- The word that a specifier spells, if it is no storage keyword. -/
structure SpellsWord (c : SourceCode) (t : SyntaxTree) (o : Option TypeWord) : Prop where
  /-- How the word is spelled. -/
  text : c.typeWord? t = o.map TypeWord.text
  /-- The word can be read, unless it is the name of a destructor. -/
  sound : ∀ w ∈ o, '~' ∉ w.text.toList → w.IsSound

theorem SpellsWords.concat {t : SyntaxTree} {o : Option TypeWord} (h : c.SpellsWords ts ws)
    (ht : c.SpellsWord t o)
    (ho : ∀ w ∈ o, ws.any TypeWord.namesType = true → w.isKeyword = true) :
    c.SpellsWords (ts ++ [t]) (ws ++ o.toList) where
  texts := by
    rw [List.filterMap_append, h.texts, List.map_append]
    cases o <;> simp [ht.text]
  sound := List.forall_mem_append.2 ⟨h.sound, fun w hw => ht.sound w (Option.mem_toList.1 hw)⟩
  ordered := by
    refine List.pairwise_append.2 ⟨h.ordered, by cases o <;> simp, fun v hv w hw hnames => ?_⟩
    exact ho w (Option.mem_toList.1 hw) (List.any_eq_true.2 ⟨v, hv, hnames⟩)

/-- Specifiers spell words when they are keywords and names.  It is known whether a type has been
named. -/
structure SpellsSpecifiers (c : SourceCode) (named : Bool) (ts : List SyntaxTree) : Prop where
  /-- They are specifiers. -/
  isSpecifier : ∀ t ∈ ts, t.label.kind.isSpecifier = true
  /-- They spell words. -/
  exists_words : (∀ t ∈ ts, t.label.kind.isPlainSpecifier = true) →
    ∃ ws, c.SpellsWords ts ws ∧ ws.any TypeWord.namesType = named

theorem SpellsSpecifiers.nil : c.SpellsSpecifiers false [] where
  isSpecifier := List.forall_mem_nil _
  exists_words _ := ⟨[], ⟨rfl, List.forall_mem_nil _, .nil⟩, rfl⟩

/-- Specifiers are followed by a specifier, which is a name only if no type has been named. -/
theorem SpellsSpecifiers.concat {named names : Bool} {t : SyntaxTree}
    (h : c.SpellsSpecifiers named ts) (hkind : t.label.kind.isSpecifier = true)
    (ht : t.label.kind.isPlainSpecifier = true → ∃ o, c.SpellsWord t o ∧
      names = o.any TypeWord.namesType ∧ ∀ w ∈ o, w.isKeyword = false → named = false) :
    c.SpellsSpecifiers (named || names) (ts ++ [t]) where
  isSpecifier := List.forall_mem_append.2 ⟨h.isSpecifier, List.forall_mem_singleton.2 hkind⟩
  exists_words hplain := by
    obtain ⟨hplains, hplain⟩ := List.forall_mem_append.1 hplain
    obtain ⟨ws, hws, hnamed⟩ := h.exists_words hplains
    obtain ⟨o, ho, hnames, hname⟩ := ht (hplain t (List.mem_singleton_self t))
    refine ⟨ws ++ o.toList, hws.concat ho ?_, ?_⟩
    · intro w hw hany
      apply Bool.eq_true_of_not_eq_false
      intro hkeyword
      rw [hname w hw hkeyword, hany] at hnamed
      cases hnamed
    · rw [List.any_append, hnamed, hnames]
      cases o <;> simp

end SourceCode

namespace Parse

open SourceCode

variable {c : SourceCode} {text : Text} {g : Grammar} {s : TokenStream} {i : Nat}

theorem enumSpecifier_keyed :
    (enumSpecifier g).Gives fun u => u.label.kind.isKeyedSpecifier = true := by
  refine .next fun keyword => .next fun name => .next fun lbrace => ?_
  split
  · exact .next fun _ => .next fun _ => .next fun _ => close_gives.imp fun _ hu => hu ▸ rfl
  · exact close_gives.imp fun _ hu => hu ▸ rfl
  · exact .fail _

theorem classSpecifier_keyed :
    (classSpecifier g).Gives fun u => u.label.kind.isKeyedSpecifier = true := by
  refine .next fun key => .next fun name => .next fun s => .ite ?_ ?_
  · have hbody : Gives (do
        let lbrace ← Parse.expect .lBrace
        let members ← Parse.collectWhile (·.isBefore .rBrace) (Parse.member g)
        let rbrace ← Parse.expect .rBrace
        Parse.close (.classSpecifier key lbrace rbrace) key (name.toList ++ members))
        fun u => u.label.kind.isKeyedSpecifier = true :=
      .next fun _ => .next fun _ => .next fun _ => close_gives.imp fun _ hu => hu ▸ rfl
    exact .next fun colon => .ite (.next fun _ => hbody) hbody
  · cases name with
    | none => exact .fail _
    | some name => exact close_gives.imp fun _ hu => hu ▸ rfl

/-- A class or an enumeration is no plain specifier, so whatever is said of those holds. -/
theorem means_of_isKeyedSpecifier {u : PieceTree} {P : SyntaxTree → Prop}
    (hu : u.label.kind.isKeyedSpecifier = true) :
    u.Means fun t => t.label.kind.isPlainSpecifier = true → P t := by
  intro t ht hplain
  rw [PieceTree.means_kind u t ht, NodeKind.isPlainSpecifier_eq_false hu] at hplain
  cases hplain

/-- What a keyword spells: a word of a type, or nothing if it says how something is kept. -/
theorem simpleSpecifier_spells {k : TokenKind} (hc : ofText text = .ok c)
    (hk : c.kindOf? i = some k) (hspecifier : k.isSpecifier = true) :
    (close (.simpleSpecifier i) i []).Ensures s fun u s' => s' = s ∧ u.Means fun t =>
      ∃ o, c.SpellsWord t o ∧ k.isTypeKeyword = o.any TypeWord.namesType ∧
        ∀ w ∈ o, w.isKeyword = true := by
  have hpart : k.isTypeKeyword = true → k.isTypePart = true := by
    intro h
    rw [TokenKind.isTypePart, h]
    rfl
  apply close_means
  intro n ts hn _
  have hword : c.typeWord? (.node n ts) = _ := typeWord?_simpleSpecifier hn hk hspecifier
  by_cases htype : k.isTypePart = true
  · refine ⟨some (.keyword k (c.spelling i)), ⟨?_, ?_⟩, rfl, ?_⟩
    · rw [hword, if_pos htype]
      rfl
    · intro w hw _
      obtain rfl := Option.some.inj hw
      exact ⟨htype, spells_of_kindOf? hc hk⟩
    · intro w hw
      obtain rfl := Option.some.inj hw
      rfl
  · refine ⟨none, ⟨?_, nofun⟩, by simpa using mt hpart htype, nofun⟩
    rw [hword, if_neg htype]
    rfl

/-- What the name of a type spells: one word. -/
theorem namedTypeSpecifier_spells {w : List TokenKind} {e : PieceTree} (hc : ofText text = .ok c)
    (h : Phrase.Name i w e) (hf : TokenKind.FoundAt c.kindOf? i w) : ∃ words,
      (close .namedTypeSpecifier i [e]).Ensures s fun u s' => s' = s ∧
        u.Means fun t => c.SpellsWord t (some (.name words)) := by
  obtain ⟨qs, N, hqs, hN, hmeans, -⟩ := exists_name hc h hf
  refine ⟨qs ++ [N.text], close_means ?_⟩
  intro n ts hn hts
  refine ⟨typeWord?_namedTypeSpecifier hn hts h hmeans, ?_⟩
  intro w hw htilde
  obtain rfl := Option.some.inj hw
  exact isSound_name hqs hN htilde

/-- **What a specifier spells.**  Only where a name may stand, it is a name. -/
theorem specifier_spells (hc : ofText text = .ok c) (hg : g.DeclaresFrom c.stream)
    (hs : s.IsTail c.stream) : (specifier g).Ensures s fun p s' => s'.IsTail c.stream ∧
      p.1.Means fun t => t.label.kind.isPlainSpecifier = true → ∃ o, c.SpellsWord t o ∧
        p.2 = o.any TypeWord.namesType ∧
        ∀ w ∈ o, w.isKeyword = false → ∀ seen, isSpecifierNext seen s = true → seen = false := by
  refine .get_bind <| peek_ensures.bind fun k s₁ h₁ => ?_
  obtain ⟨rfl, rfl⟩ := h₁
  split
  case h_1 =>
    exact Ensures.bind ((GivesFrom.enumSpecifier hg s₁ hs).and (enumSpecifier_keyed s₁))
      fun u s' hu => .pure ⟨hu.1.1, means_of_isKeyedSpecifier hu.2⟩
  case h_2 k henum hk =>
    refine .ite (fun _ => ?_) fun hclass => .ite (fun hspecifier => ?_) fun hspecifier => ?_
    · exact Ensures.bind ((GivesFrom.classSpecifier hg s₁ hs).and (classSpecifier_keyed s₁))
        fun u s' hu => .pure ⟨hu.1.1, means_of_isKeyedSpecifier hu.2⟩
    · have hkind : c.kindOf? s₁.position = some k := by
        rw [← c.kindAt_stream, ← hs.next?_eq, hk]
      refine (advance_yields s₁).bind_ensures <|
        (simpleSpecifier_spells hc hkind hspecifier).bind fun u s' hu => .pure ?_
      refine ⟨hu.1 ▸ (isTail_tail s₁).trans hs, hu.2.imp fun t ht _ => ?_⟩
      obtain ⟨o, ho, hnames, hkeyword⟩ := ht
      exact ⟨o, ho, hnames, fun w hw hnot => by simp [hkeyword w hw] at hnot⟩
    · refine (name_forms s₁).bind fun e s₂ he => ?_
      obtain ⟨w, hw, hname⟩ := he
      obtain ⟨words, hspells⟩ := namedTypeSpecifier_spells hc hname (foundAt_of_isTail hs hw)
      refine hspells.bind fun u s' hu => .pure ⟨hu.1 ▸ hw.isTail.trans hs, ?_⟩
      refine hu.2.imp fun t ht _ => ⟨_, ht, rfl, fun w hw _ seen hnext => ?_⟩
      -- no class, no enumeration and no keyword: only where a name may stand
      simp only [isSpecifierNext, hk, hclass, hspecifier, Bool.false_or, Bool.and_eq_true,
        Bool.or_eq_true, Bool.not_eq_true'] at hnext
      rcases hnext with hnext | hnext
      · exact absurd (eq_of_beq hnext) henum
      · exact hnext.1.2
  case h_3 => exact fail_ensures _

/-- Every round of the loop over specifiers takes a token. -/
theorem specifiers_advances (hg : g.IsSound) : Advances (fun p s => isSpecifierNext p.2 s)
    fun p : List PieceTree × Bool => do
      let q ← specifier g
      return (q.1 :: p.1, p.2 || q.2) where
  rest_ne_nil := by
    intro p s hmore hnil
    simp [isSpecifierNext, next?, hnil] at hmore
  lt := by
    intro p s _
    refine (specifier_ensures hg).bind fun q s' hq => .pure ?_
    have hlt := hq.takes.lt (List.cons_ne_nil _ _)
    have htotal := hq.takes.total_eq
    simp only [total] at htotal
    omega

/-- **What specifiers spell.**  Behind them stands no other specifier. -/
theorem specifiers_spell (hc : ofText text = .ok c) (hg : g.DeclaresFrom c.stream)
    (hs : s.IsTail c.stream) : (specifiers g).Ensures s fun us s' => s'.IsTail c.stream ∧
      ∃ named, isSpecifierNext named s' = false ∧
        PieceTree.AllMean (c.SpellsSpecifiers named) us := by
  obtain ⟨n, rfl⟩ := hg.rounds
  let I (p : List PieceTree × Bool) (s' : TokenStream) : Prop :=
    s'.IsTail c.stream ∧ PieceTree.AllMean (c.SpellsSpecifiers p.2) p.1.reverse
  have hloop := (specifiers_advances (Grammar.isSound_forTokens n)).repeatWhile_ensures
    (I := I) (x := ([], false)) (s := s) ?_ ⟨hs, .nil .nil⟩
  · exact hloop.bind fun p s' hp => .pure ⟨hp.1.1, p.2, hp.2, hp.1.2⟩
  · intro p s₁ hp hmore
    refine Ensures.bind ((specifier_spells hc hg hp.1).and
      (Gives.specifier (Grammar.buildsTrees_forTokens n) s₁)) fun q s' hq => .pure ⟨hq.1.1, ?_⟩
    rw [List.reverse_cons]
    refine hp.2.concat ((PieceTree.means_kind q.1).and hq.1.2) ?_
    intro ts t hts ht
    refine hts.concat (ht.1 ▸ hq.2.2) fun hplain => ?_
    obtain ⟨o, ho, hnames, hname⟩ := ht.2 hplain
    exact ⟨o, ho, hnames, fun w hw hkeyword => hname w hw hkeyword _ hmore⟩

end Parse

/-! ### Declarators -/

namespace SourceCode

variable {c : SourceCode} {text : Text}

/-- The signs of a declarator are read. -/
structure SpellsSigns (c : SourceCode) (pointers : List Nat) : Prop where
  /-- They are signs. -/
  all_isSign : (c.signsOf pointers).toList.all isSign = true
  /-- There are some unless nothing is read. -/
  eq_nil : c.signsOf pointers = "" → pointers = []

theorem spellsSigns (hc : ofText text = .ok c) (pointers : List Nat)
    (hpart : ∀ i ∈ pointers, ∃ k, c.kindOf? i = some k ∧ k.isPointerPart = true)
    (hsign : pointers ≠ [] → ∃ i ∈ pointers, c.isKind i .kwConst = false) :
    c.SpellsSigns pointers := by
  let signs := pointers.filter fun i => !c.isKind i .kwConst
  have hspelled : ∀ i ∈ signs, (c.spelling i).toList.all isSign = true ∧ c.spelling i ≠ "" := by
    intro i hi
    obtain ⟨hi, hconst⟩ := List.mem_filter.1 hi
    obtain ⟨k, hk, hpart⟩ := hpart i hi
    have hmark : punctuators.any (·.2 == k) = true ∧ k.spelling.toList.all isSign = true ∧
        k.spelling ≠ "" := by
      rw [isKind, hk] at hconst
      cases k <;> cases hpart
      case kwConst => cases hconst
      all_goals decide +kernel
    rw [spelling_of_kindOf? hc hk hmark.1]
    exact hmark.2
  have hjoin (is : List Nat) : (String.join (is.map c.spelling)).toList =
      is.flatMap fun i => (c.spelling i).toList := by
    rw [String.toList_join, List.flatMap_map]
  refine ⟨?_, fun hempty => Decidable.byContradiction fun hne => ?_⟩
  · rw [signsOf, hjoin]
    rw [List.all_eq_true]
    intro d hd
    obtain ⟨i, hi, hd⟩ := List.mem_flatMap.1 hd
    exact List.all_eq_true.1 (hspelled i hi).1 d hd
  · obtain ⟨i, hi, hconst⟩ := hsign hne
    have hmem : i ∈ signs := List.mem_filter.2 ⟨hi, by simp [hconst]⟩
    have hnil : signs.flatMap (fun i => (c.spelling i).toList) = [] := by
      rw [← hjoin, ← signsOf, hempty]
      rfl
    exact (hspelled i hmem).2 (by simpa using List.flatMap_eq_nil_iff.1 hnil i hmem)

end SourceCode

namespace Parse

open SourceCode

variable {c : SourceCode} {text : Text} {s : TokenStream}

/-- **What the signs of a declarator spell.** -/
theorem pointers_spell (hc : ofText text = .ok c) (hs : s.IsTail c.stream) :
    pointers.Ensures s fun is s' => s'.IsTail c.stream ∧ (is = [] → s' = s) ∧
      c.SpellsSigns is := by
  let I (seen : List Nat) (s' : TokenStream) : Prop := s'.IsTail c.stream ∧
    (seen = [] → s' = s) ∧
    (∀ i ∈ seen, ∃ k, c.kindOf? i = some k ∧ k.isPointerPart = true) ∧
    (seen ≠ [] → ∃ i ∈ seen, c.isKind i .kwConst = false)
  have hloop : (repeatWhile isPointerNext (fun seen => do return (← advance) :: seen) []).Ensures
      s I := by
    refine repeatWhile_ensures (fun seen s₁ h₁ hmore => ?_) ⟨hs, fun _ => rfl, nofun, nofun⟩
    obtain ⟨htail, -, hparts, hsign⟩ := h₁
    obtain ⟨k, hk, hpart, hconst⟩ := exists_isPointerPart hmore
    have hkind : c.kindOf? s₁.position = some k := by
      rw [← c.kindAt_stream, ← htail.next?_eq, hk]
    refine (advance_yields s₁).bind_ensures <| .pure ⟨(isTail_tail s₁).trans htail, nofun,
      List.forall_mem_cons.2 ⟨⟨k, hkind, hpart⟩, hparts⟩, fun _ => ?_⟩
    by_cases hnil : seen = []
    · refine ⟨s₁.position, List.mem_cons_self, ?_⟩
      simpa [isKind, hkind] using hconst hnil
    · obtain ⟨i, hi, hsign⟩ := hsign hnil
      exact ⟨i, List.mem_cons_of_mem _ hi, hsign⟩
  exact hloop.bind fun seen s' hseen => .pure ⟨hseen.1, fun hnil => hseen.2.1 (by simpa using hnil),
    spellsSigns hc _ (by simpa using hseen.2.2.1) (by simpa using hseen.2.2.2)⟩

/-- **What the name of a declarator spells**, if there is one. -/
theorem declaratorName?_spells (hc : ofText text = .ok c) (hs : s.IsTail c.stream) :
    declaratorName?.Ensures s fun o s' => s'.IsTail c.stream ∧ (o = none → s' = s) ∧
      ∀ u ∈ o, u.label.kind = .declaratorName ∧ ∃ (qs : List String) (N : NameSpelling),
        N.IsSound ∧ (u.Means fun t => c.nameOf? t = some (qs ++ [N.text])) ∧
        (N.isDestructor = false → isSpecifierNext false s = false →
          s'.next? = some .lParen ∨ s'.next? = some .colonColon) := by
  refine .get_bind <| peek_ensures.bind fun k s₁ h₁ => ?_
  obtain ⟨rfl, rfl⟩ := h₁
  split
  case h_1 | h_2 | h_3 =>
    refine (name_forms s₁).bind fun e s₂ he => ?_
    obtain ⟨w, hw, hname⟩ := he
    obtain ⟨qs, N, hqs, hN, hmeans, hlater⟩ := exists_name hc hname (foundAt_of_isTail hs hw)
    have hcore : (close .declaratorName s₁.position [e]).Ensures s₂ fun u s' => s' = s₂ ∧
        u.Means fun t => c.nameOf? t = some (qs ++ [N.text]) :=
      close_means fun n ts hn hts => nameOf?_declaratorName hn hts hmeans
    refine (hcore.and (close_gives s₂)).bind fun u s' hu => .pure ?_
    obtain ⟨⟨rfl, hu⟩, hkind⟩ := hu
    refine ⟨hw.isTail.trans hs, nofun, fun v hv => ?_⟩
    obtain rfl := Option.some.inj hv
    exact ⟨hkind, qs, N, hN, hu, fun hd => hlater hd s₁ s' hw⟩
  case h_4 => exact .pure ⟨hs, fun _ => rfl, nofun⟩

end Parse

/-! ### Parameters and declarations -/

namespace SourceCode

variable {c : SourceCode} {ts : List SyntaxTree} {ws : List TypeWord} {pointers : List Nat}

/-- The words and signs of a type without a tilde can be read. -/
theorem SpellsWords.isSound (h : c.SpellsWords ts ws) (hsigns : c.SpellsSigns pointers)
    (htilde : '~' ∉ (c.baseType ts).base.toList) :
    (TypeSpelling.mk ws (c.signsOf pointers)).IsSound ∧
      (TypeSpelling.mk ws (c.signsOf pointers)).type =
        ⟨(c.baseType ts).base, c.signsOf pointers⟩ := by
  have hbase : (c.baseType ts).base = " ".intercalate (ws.map TypeWord.text) := by
    rw [baseType, h.texts]
    rfl
  refine ⟨⟨fun w hw => h.sound w hw fun hmem => htilde ?_, h.ordered, hsigns.all_isSign⟩, ?_⟩
  · rw [hbase, String.toList_intercalate]
    exact subset_intercalate (List.mem_map_of_mem (List.mem_map_of_mem hw)) hmem
  · rw [TypeSpelling.type, hbase]

/-- A parameter with a type that is spelled plainly can be read. -/
def SpellsParameter (c : SourceCode) (t : SyntaxTree) : Prop :=
  (∀ u ∈ t.specifiers, u.label.kind.isPlainSpecifier = true) →
    (c.parameterOf t).type.base ≠ "" → '~' ∉ (c.parameterOf t).type.base.toList →
      ∃ P : ParameterSpelling, P.IsSound ∧ c.parameterOf t = P.parameter

/-- A declarator has signs, a name and parameters that can be read. -/
def SpellsDeclarator (c : SourceCode) (d : SyntaxTree) : Prop :=
  ∃ (pointers : List Nat) (qs : List String) (N : NameSpelling) (span : Span),
    c.SpellsSigns pointers ∧ N.IsSound ∧
    (∀ ts, c.declaredType ts d = ⟨(c.baseType ts).base, c.signsOf pointers⟩) ∧
    c.declaredName? d = some (qs, N.text, span) ∧
    ∀ l ∈ d.parameterList?, ∀ p ∈ l.children, c.SpellsParameter p

/-- A declaration has specifiers and declarators that can be read. -/
structure SpellsDeclaration (c : SourceCode) (t : SyntaxTree) : Prop where
  /-- Specifiers that are keywords and names spell words. -/
  specifiers : (∀ u ∈ t.specifiers, u.label.kind.isPlainSpecifier = true) →
    ∃ ws, c.SpellsWords t.specifiers ws
  /-- The declarators can be read. -/
  declarators : ∀ d ∈ t.declarators, c.SpellsDeclarator d

/-- The words, the signs and the name of a parameter make it one that can be read. -/
theorem spellsParameter {t : SyntaxTree} (name : Option NameSpelling) {named : Bool}
    (hspecifiers : t.specifiers = ts) (hts : c.SpellsSpecifiers named ts)
    (hparameter : c.parameterOf t =
      ⟨⟨(c.baseType ts).base, c.signsOf pointers⟩, name.map NameSpelling.text⟩)
    (hsigns : c.SpellsSigns pointers) (hname : ∀ N ∈ name, N.IsSound)
    (hapart : ∀ N ∈ name, N.isDestructor = false → pointers = [] → named = true) :
    c.SpellsParameter t := by
  intro hplain hbase htilde
  rw [hparameter] at hbase htilde
  obtain ⟨ws, hws, hseen⟩ := hts.exists_words (hspecifiers ▸ hplain)
  obtain ⟨hsound, htype⟩ := hws.isSound hsigns htilde
  refine ⟨⟨⟨ws, c.signsOf pointers⟩, name⟩, ⟨hsound, ?_, hname, ?_⟩, ?_⟩
  · rw [← htype] at hbase
    exact mt hsound.base_eq_empty_iff.2 hbase
  · exact fun N hN hd hnil => hseen.trans (hapart N hN hd (hsigns.eq_nil hnil))
  · rw [hparameter, ParameterSpelling.parameter, htype]

/-- A declaration spells what its specifiers and its declarators spell; a body spells nothing. -/
theorem spellsDeclaration_of_children {t : SyntaxTree} {named : Bool} {ds bs : List SyntaxTree}
    (hchildren : t.children = ts ++ (ds ++ bs)) (hts : c.SpellsSpecifiers named ts)
    (hds : ∀ d ∈ ds, d.label.kind.isDeclarator = true ∧ c.SpellsDeclarator d)
    (hbs : ∀ b ∈ bs, b.label.kind.isBlock = true) : c.SpellsDeclaration t := by
  have hbody {k : NodeKind} (h : k.isBlock = true) :
      k.isSpecifier = false ∧ k.isDeclarator = false := by
    cases k <;> first | exact ⟨rfl, rfl⟩ | cases h
  have hrest : ∀ u ∈ ds ++ bs, u.label.kind.isSpecifier = false :=
    List.forall_mem_append.2 ⟨fun d hd => SyntaxTree.isSpecifier_of_isDeclarator (hds d hd).1,
      fun b hb => (hbody (hbs b hb)).1⟩
  refine ⟨fun hplain => ?_, fun d hd => ?_⟩
  · rw [SyntaxTree.specifiers_eq hchildren hts.isSpecifier hrest] at hplain ⊢
    obtain ⟨ws, hws, -⟩ := hts.exists_words hplain
    exact ⟨ws, hws⟩
  · rw [SyntaxTree.declarators_eq hchildren hts.isSpecifier] at hd
    obtain ⟨hmem, hdeclarator⟩ := List.mem_filter.1 hd
    rcases List.mem_append.1 hmem with hmem | hmem
    · exact (hds d hmem).2
    · rw [(hbody (hbs d hmem)).2] at hdeclarator
      cases hdeclarator

end SourceCode

namespace Parse

open SourceCode

variable {c : SourceCode} {text : Text} {g : Grammar} {s : TokenStream}

/-- **What a declarator in a parameter spells.**  Where no type has been named before, a name that
is read first is followed by a parameter list, or goes on. -/
theorem parameterDeclarator_spells (hc : ofText text = .ok c) (hg : g.DeclaresFrom c.stream)
    (hs : s.IsTail c.stream) : (parameterDeclarator g).Ensures s fun d s' =>
      s'.IsTail c.stream ∧ ∃ (pointers : List Nat) (name : Option NameSpelling),
        c.SpellsSigns pointers ∧ (∀ N ∈ name, N.IsSound) ∧
        (d.Means fun t => t.label.kind.isDeclarator = true ∧
          (∀ ts, c.declaredType ts t = ⟨(c.baseType ts).base, c.signsOf pointers⟩) ∧
          (c.declaredName? t).map (·.2.1) = name.map NameSpelling.text) ∧
        ∀ N ∈ name, N.isDestructor = false → pointers = [] → isSpecifierNext false s = false →
          s'.next? = some .lParen ∨ s'.next? = some .colonColon := by
  refine .get_bind <| (pointers_spell hc hs).bind fun pointers s₁ h₁ => ?_
  obtain ⟨htail₁, hsame₁, hsigns⟩ := h₁
  refine (declaratorName?_spells hc htail₁).bind fun core s₂ h₂ => ?_
  obtain ⟨htail₂, -, hcore⟩ := h₂
  refine (closeDeclarator_means hg htail₂).imp fun d s₃ h₃ => ?_
  obtain ⟨htail₃, hsame₃, hd⟩ := h₃
  cases core with
  | none =>
    refine ⟨htail₃, pointers, none, hsigns, nofun, hd.imp fun t ht => ?_, nofun⟩
    exact ⟨ht.isDeclarator, ht.declaredType, by rw [ht.declaredName?_of_nil]; rfl⟩
  | some core =>
    obtain ⟨hkind, qs, N, hN, hmeans, hlater⟩ := hcore core rfl
    refine ⟨htail₃, pointers, some N, hsigns, ?_, hd.imp fun t ht => ?_, ?_⟩
    · exact fun M hM => Option.some.inj hM ▸ hN
    · obtain ⟨span, hname⟩ := ht.exists_declaredName? hkind hmeans
      exact ⟨ht.isDeclarator, ht.declaredType, by rw [hname]; rfl⟩
    · intro M hM hplain hnil hnext
      obtain rfl := Option.some.inj hM
      have hafter := hlater hplain (hsame₁ hnil ▸ hnext)
      exact hsame₃ hafter ▸ hafter

/-- **What a parameter spells.**  Behind a name without a type the list goes no further. -/
theorem parameter_spells (hc : ofText text = .ok c) (hg : g.DeclaresFrom c.stream)
    (hs : s.IsTail c.stream) : (parameter g).Ensures s fun u s' =>
      (s'.IsTail c.stream ∧ u.Means c.SpellsParameter) ∨ s'.IsStuck := by
  refine .get_bind <| (specifiers_spell hc hg hs).bind fun us s₁ h₁ => ?_
  obtain ⟨htail₁, named, hend, hus⟩ := h₁
  refine .ite (fun _ => (fail_ensures _ (Q := fun _ _ => False)).bind fun _ _ h => h.elim)
    fun _ => .get_bind <| .ite (fun _ => ?_) fun hmore => ?_
  · refine (close_means (P := c.SpellsParameter) fun n ts hn hts => ?_).imp
      fun u s' hu => .inl ⟨hu.1 ▸ htail₁, hu.2⟩
    obtain ⟨hspecifiers, hparameter⟩ :=
      parameterOf_eq_of_specifiers (c := c) (t := .node n ts) rfl (hus ts hts).isSpecifier
    exact spellsParameter none hspecifiers (hus ts hts) (hparameter.trans rfl)
      (spellsSigns hc [] nofun nofun) nofun nofun
  · refine (parameterDeclarator_spells hc hg htail₁).bind fun d s₂ h₂ => ?_
    obtain ⟨htail₂, pointers, name, hsigns, hname, hd, hlater⟩ := h₂
    by_cases hapart : ∀ N ∈ name, N.isDestructor = false → pointers = [] → named = true
    · refine (close_means (P := c.SpellsParameter) fun n _ hn hall => ?_).imp
        fun u s' hu => .inl ⟨hu.1 ▸ htail₂, hu.2⟩
      obtain ⟨ts, ds, rfl, hts, hds⟩ := List.map_eq_append_iff.1 hall
      obtain ⟨t, rfl, ht⟩ := List.map_eq_singleton_iff.1 hds
      obtain ⟨hdeclarator, htype, hdeclared⟩ := hd t ht
      obtain ⟨hspecifiers, hparameter⟩ :=
        parameterOf_eq_of_declarator (c := c) (t := .node n (ts ++ [t])) rfl
          (hus ts hts).isSpecifier hdeclarator
      refine spellsParameter name hspecifiers (hus ts hts) (hparameter.trans ?_) hsigns hname hapart
      rw [htype, hdeclared]
    · -- a name that no type comes before
      push Not at hapart
      obtain ⟨N, hN, hplain, hnil, hfirst⟩ := hapart
      have hnext := hlater N hN hplain hnil (by simpa [hfirst] using hend)
      refine close_ensures_eq.imp fun u s' hs' => .inr ?_
      rcases hnext with hnext | hnext <;> simp [IsStuck, hs', isAt, hnext]

/-- **What a parameter list spells**: all its parameters. -/
theorem parameterList_spells (hc : ofText text = .ok c) (hg : g.DeclaresFrom c.stream)
    (hs : s.IsTail c.stream) : (parameterList g).Ensures s fun u s' =>
      (s'.IsTail c.stream ∧ u.label.kind.isParameterList = true) ∧
        u.Means fun t => ∀ p ∈ t.children, c.SpellsParameter p := by
  have hkind : (parameterList g).Gives fun u => u.label.kind.isParameterList = true :=
    .next fun _ => .next fun _ => .ite
      (.next fun _ => .next fun _ => .next fun _ => close_gives.imp fun _ hu => hu ▸ rfl)
      (.next fun _ => .next fun _ => .next fun _ => close_gives.imp fun _ hu => hu ▸ rfl)
  refine (((GivesFrom.parameterList hg s hs).imp fun _ _ h => h.1).and (hkind s)).and ?_
  refine advance_ensures_tail.bind fun lparen s₁ h₁ => .get_bind ?_
  obtain ⟨-, rfl⟩ := h₁
  have hall : (if s.tail.isAt .rParen then pure [] else commaSeparated (parameter g)).Ensures s.tail
      fun us s' => (∀ u ∈ us, u.Means c.SpellsParameter) ∨ s'.IsStuck := by
    refine .ite (fun _ => .pure (.inl nofun)) fun _ => ?_
    let many (s : TokenStream) (us : List PieceTree) (s' : TokenStream) : Prop :=
      s.IsTail c.stream → s'.IsTail c.stream ∧ ∀ u ∈ us, u.Means c.SpellsParameter
    have hmany : (commaSeparated (parameter g)).Ensures s.tail fun us s' =>
        many s.tail us s' ∨ s'.IsStuck := by
      refine commaSeparated_ensures_or_stuck (fun s u s' => s.IsTail c.stream →
        s'.IsTail c.stream ∧ u.Means c.SpellsParameter) (fun s htail => ⟨htail, nofun⟩) ?_ ?_ ?_ _
      · intro s u m us s' hu hus htail
        obtain ⟨hm, hu⟩ := hu htail
        exact ⟨(hus hm).1, List.forall_mem_cons.2 ⟨hu, (hus hm).2⟩⟩
      · exact fun s u s' _ hu htail => hu ((isTail_tail s).trans htail)
      · intro s u s' hu
        by_cases htail : s.IsTail c.stream
        · exact (parameter_spells hc hg htail u s' hu).imp_left fun h _ => h
        · exact .inl fun h => absurd h htail
    exact hmany.imp fun us s' hus =>
      hus.imp_left fun hus => (hus ((isTail_tail s).trans hs)).2
  refine .ite_bind hall fun us s₂ h₂ => ?_
  rcases h₂ with h₂ | hstuck
  · refine Ensures.bind (Q := fun _ _ => True) (fun _ _ _ => trivial) fun rparen s₃ _ => ?_
    refine Ensures.bind (Q := fun _ _ => True) (fun _ _ _ => trivial) fun const s₄ _ => ?_
    refine (close_means fun n ts hn hts => ?_).imp fun u s' hu => hu.2
    intro p hp
    exact h₂ _ (hts ▸ List.mem_map_of_mem hp) p rfl
  · exact (expect_ensures_of_isAt_eq_false hstuck.2 (Q := fun _ _ => False)).bind
      fun _ _ h => h.elim

/-- **What a declarator spells.** -/
theorem declarator_spells (hc : ofText text = .ok c) (hg : g.DeclaresFrom c.stream)
    (hs : s.IsTail c.stream) : (declarator g).Ensures s fun p s' =>
      s'.IsTail c.stream ∧ p.1.Means fun d => d.label.kind.isDeclarator = true ∧
        c.SpellsDeclarator d := by
  refine .get_bind <| (pointers_spell hc hs).bind fun pointers s₁ h₁ => ?_
  obtain ⟨htail₁, -, hsigns⟩ := h₁
  refine (declaratorName?_spells hc htail₁).bind fun core s₂ h₂ => ?_
  obtain ⟨htail₂, -, hcore⟩ := h₂
  cases core with
  | none => exact fail_ensures _
  | some core =>
    obtain ⟨hkind, qs, N, hN, hname, -⟩ := hcore core rfl
    refine .get_bind <| .ite (fun _ => ?_) fun _ => ?_
    · refine (parameterList_spells hc hg htail₂).bind fun list s₃ h₃ => ?_
      obtain ⟨⟨htail₃, hlistKind⟩, hlist⟩ := h₃
      refine (closeDeclarator_means hg htail₃).bind fun d s' hd => .pure
        ⟨hd.1, hd.2.2.imp fun t ht => ⟨ht.isDeclarator, ?_⟩⟩
      obtain ⟨span, hdeclared⟩ := ht.exists_declaredName? hkind hname
      refine ⟨pointers, qs, N, span, hsigns, hN, ht.declaredType, hdeclared, fun l hl => ?_⟩
      obtain ⟨hmem, hkind'⟩ := ht.mem_of_parameterList? hl
      rcases List.mem_pair.1 hmem with heq | heq
      · rw [PieceTree.means_kind core l heq, hkind] at hkind'
        cases hkind'
      · exact hlist l heq
    · refine (closeDeclarator_means hg htail₂).bind fun d s' hd => .pure
        ⟨hd.1, hd.2.2.imp fun t ht => ⟨ht.isDeclarator, ?_⟩⟩
      obtain ⟨span, hdeclared⟩ := ht.exists_declaredName? hkind hname
      refine ⟨pointers, qs, N, span, hsigns, hN, ht.declaredType, hdeclared, fun l hl => ?_⟩
      obtain ⟨hmem, hkind'⟩ := ht.mem_of_parameterList? hl
      rw [PieceTree.means_kind core l (List.mem_singleton.1 hmem), hkind] at hkind'
      cases hkind'

theorem block_gives : (block g).Gives fun u => u.label.kind.isBlock = true :=
  .next fun _ => .next fun _ => .next fun _ => .next fun _ => close_gives.imp fun _ hu => hu ▸ rfl

/-- Where specifiers, declarators and a body have been read, a declaration is closed. -/
theorem close_declaration_means {kind : NodeKind} {first : Nat} {named : Bool}
    {us ds bs : List PieceTree} (hus : PieceTree.AllMean (c.SpellsSpecifiers named) us)
    (hds : ∀ d ∈ ds, d.Means fun t => t.label.kind.isDeclarator = true ∧ c.SpellsDeclarator t)
    (hbs : ∀ b ∈ bs, b.label.kind.isBlock = true) :
    (close kind first (us ++ (ds ++ bs))).Ensures s fun u _ => u.Means c.SpellsDeclaration := by
  refine (close_means fun n _ _ hall => ?_).imp fun u s' hu => hu.2
  obtain ⟨ts, _, rfl, hts, hrest⟩ := List.map_eq_append_iff.1 hall
  obtain ⟨ds', bs', rfl, hds', hbs'⟩ := List.map_eq_append_iff.1 hrest
  have hchildren : Rose.children (.node n (ts ++ (ds' ++ bs'))) = ts ++ (ds' ++ bs') := rfl
  refine spellsDeclaration_of_children hchildren (hus ts hts) ?_ ?_
  · intro d hd
    exact hds _ (hds' ▸ List.mem_map_of_mem hd) d rfl
  · intro b hb
    rw [PieceTree.means_kind b.toPieces b rfl]
    exact hbs _ (hbs' ▸ List.mem_map_of_mem hb)

/-- **What a declaration spells.** -/
theorem simpleDeclaration_spells (hc : ofText text = .ok c) (hg : g.DeclaresFrom c.stream)
    (hs : s.IsTail c.stream) (place : DeclarationPlace) :
    (simpleDeclaration g place).Ensures s fun u _ => u.Means c.SpellsDeclaration := by
  refine .get_bind <| (specifiers_spell hc hg hs).bind fun us s₁ h₁ => ?_
  obtain ⟨htail₁, named, -, hus⟩ := h₁
  have hend {s₂ : TokenStream} (ds : List PieceTree) (hds : ∀ d ∈ ds, d.Means fun t =>
      t.label.kind.isDeclarator = true ∧ c.SpellsDeclarator t) :
      (closeDeclaration s.position (us ++ ds)).Ensures s₂ fun u _ =>
        u.Means c.SpellsDeclaration := by
    refine Ensures.bind (Q := fun _ _ => True) (fun _ _ _ => trivial) fun semicolon s₃ _ => ?_
    rw [← List.append_nil ds]
    exact close_declaration_means hus hds nofun
  refine .get_bind <| .ite (fun _ => ?_) fun _ => ?_
  · rw [← List.append_nil us]
    exact hend [] nofun
  · refine (declarator_spells hc hg htail₁).bind fun p s₂ h₂ => .get_bind <| .ite (fun _ => ?_)
      fun _ => ?_
    · refine (block_gives s₂).bind fun body s₃ hbody => ?_
      have hds := List.forall_mem_singleton.2 h₂.2
      exact close_declaration_means hus hds (List.forall_mem_singleton.2 hbody)
    · have hothers : GivesFrom c.stream (do
          let _ ← advance
          return (← declarator g).1) fun d => d.Means fun t =>
            t.label.kind.isDeclarator = true ∧ c.SpellsDeclarator t :=
        .next .advance fun _ => .bind (fun s => declarator_spells hc hg) fun _ hq => .pure hq
      refine (GivesFrom.collectWhile hothers s₂ h₂.1).bind fun ds s₃ hds => ?_
      exact hend (p.1 :: ds) (List.forall_mem_cons.2 ⟨h₂.2, hds.2⟩)

end Parse

end Mend
