import Mend.Proofs.DeclaredSignatures
import Mend.Proofs.ReadTypes

/-!
# Signatures are read back

The declaration that is written for a function is its signature and a semicolon.  Its text falls
into the tokens of the signature, and the parser takes these tokens part by part: the words and the
signs of the return type, the name, the parameters between commas, and `const`.  What it builds is
one declaration, and that declares one function, spelled by the same signature.

Together with what declarations spell this is a round trip: from a function of a text to its
signature, to the text of a declaration, and back to a function.

## Main definitions

* `SourceCode.IsDeclaredBy` — a declarator has the signs, the name and the parameters of a
  signature.
* `SourceCode.DeclaresOnly` — a declaration declares one function, spelled by a signature.

## Main results

* `Parse.parameter_yields`, `Parse.parameterList_yields` — **parameters are read back.**
* `Parse.simpleDeclaration_yields`, `Parse.file_yields` — **a declaration is read back**, also as
  the only one of a file.
* `SourceCode.exists_ofText_of_describes` — **the text of a signature is read as one declaration of
  one function.**
* `ParsedFile.signature_reads_back` — **the declaration that is written for a function declares that
  function again.**
-/

namespace Mend

open TokenStream

namespace SignatureSpelling

/-- The tokens of the parameter list, with the `const` after it. -/
def listTokens (S : SignatureSpelling) : List (TokenKind × String) :=
  (.lParen, "(") :: ([(.comma, ",")].intercalate (S.parameters.map ParameterSpelling.tokens) ++
    ((.rParen, ")") :: if S.isConst then [(.kwConst, "const")] else []))

/-- The tokens of a declaration are those of the return type, of the name and of the parameter list,
and a semicolon. -/
theorem tokens_eq (S : SignatureSpelling) :
    S.tokens = S.returnType.tokens ++ (S.name.tokens ++ S.listTokens ++ [(.semicolon, ";")]) := by
  simp [tokens, listTokens]

end SignatureSpelling

namespace Parse

open SourceCode

variable {c : SourceCode} {g : Grammar} {s s' : TokenStream}

/-! ### Parameters -/

/-- The words and the signs of a type are those that are read. -/
theorem type_eq {T : TypeSpelling} {ts : List SyntaxTree} {is : List Nat}
    (hts : c.AddsWords T.words ts) (his : c.signsOf is = T.signs) :
    (⟨(c.baseType ts).base, c.signsOf is⟩ : SpelledType) = T.type := by
  rw [baseType, hts.2, his]
  rfl

/-- A parameter without signs and without a name is read. -/
theorem parameter_yields_of_specifiers {us : List PieceTree} (hus : us ≠ [])
    (h : (specifiers g).Yields s us s')
    (hend : s'.next? = some .comma ∨ s'.next? = some .rParen) :
    ∃ p : Piece, p.kind = .parameter ∧ (parameter g).Yields s (.node p us) s' := by
  refine ⟨⟨.parameter, s.position, max s.position (s'.position - 1)⟩, rfl,
    .get_bind <| h.bind ?_⟩
  rw [if_neg (by simpa using hus)]
  refine .get_bind ?_
  rw [if_pos (by rcases hend with hend | hend <;> simp [isAt, hend])]
  exact .get_bind (.pure _ _)

/-- A parameter with a declarator is read. -/
theorem parameter_yields_of_declarator {us : List PieceTree} {d : PieceTree} {m : TokenStream}
    (hus : us ≠ []) (h : (specifiers g).Yields s us m)
    (hcomma : m.next? ≠ some .comma) (hparen : m.next? ≠ some .rParen)
    (hd : (parameterDeclarator g).Yields m d s') :
    ∃ p : Piece, p.kind = .parameter ∧ (parameter g).Yields s (.node p (us ++ [d])) s' := by
  refine ⟨⟨.parameter, s.position, max s.position (s'.position - 1)⟩, rfl,
    .get_bind <| h.bind ?_⟩
  rw [if_neg (by simpa using hus)]
  refine .get_bind ?_
  rw [if_neg (by simp [isAt, hcomma, hparen])]
  exact hd.bind (.get_bind (.pure _ _))

/-- **A declarator in a parameter is read**, with a name or without one. -/
theorem parameterDeclarator_yields {m : TokenStream} {is : List Nat} {o : Option NameSpelling}
    (hg : g.DeclaresFrom c.stream) (hm : m.IsTail c.stream) (hpointers : pointers.Yields s is m)
    (h : m.Passes ((o.map NameSpelling.tokens).getD []) s')
    (hend : s'.next? = some .comma ∨ s'.next? = some .rParen) :
    ∃ d, (parameterDeclarator g).Yields s d s' ∧ d.Means fun t =>
      t.label.kind.isDeclarator = true ∧
      (∀ ts, c.declaredType ts t = ⟨(c.baseType ts).base, c.signsOf is⟩) ∧
      (c.declaredName? t).map (·.2.1) = o.map NameSpelling.text := by
  have hs' : s'.IsTail c.stream := h.isTail.trans hm
  have hclose (parts : List PieceTree) := closeDeclarator_yields hg hs' s.position is parts
    (by rcases hend with h | h <;> simp [h]) (by rcases hend with h | h <;> simp [h])
  cases o with
  | none =>
    obtain rfl := passes_nil.1 h
    obtain ⟨d, hd, hmeans⟩ := hclose []
    refine ⟨d, .get_bind <| hpointers.bind <| (declaratorName?_yields_none hend).bind hd,
      hmeans.imp fun t ht => ⟨ht.isDeclarator, ht.declaredType, ?_⟩⟩
    rw [ht.declaredName?_of_nil]
    rfl
  | some N =>
    obtain ⟨u, hu, hkind, hname⟩ :=
      declaratorName?_yields hm h (by rcases hend with h | h <;> simp [h])
    obtain ⟨d, hd, hmeans⟩ := hclose [u]
    refine ⟨d, .get_bind <| hpointers.bind <| hu.bind hd,
      hmeans.imp fun t ht => ⟨ht.isDeclarator, ht.declaredType, ?_⟩⟩
    obtain ⟨span, hdeclared⟩ := ht.exists_declaredName? hkind hname
    rw [hdeclared]
    rfl

/-- Behind the type of a parameter comes its name, or its end.  Without signs, a name that is not
that of a destructor comes behind a word that names a type. -/
theorem exists_next?_after_type {P : ParameterSpelling} (hP : P.IsSound)
    (h : s.Passes ((P.name.map NameSpelling.tokens).getD []) s')
    (hend : s'.next? = some .comma ∨ s'.next? = some .rParen) :
    ∃ k, s.next? = some k ∧ (k = .identifier ∨ endsWords k = true) ∧ k.isPointerPart = false ∧
      (P.name ≠ none → k ≠ .comma ∧ k ≠ .rParen) ∧
      (k = .identifier → P.type.signs = "" → P.type.words.any TypeWord.namesType = true) := by
  cases hname : P.name with
  | none =>
    rw [hname] at h
    obtain rfl := passes_nil.1 h
    rcases hend with hend | hend
    all_goals exact ⟨_, hend, .inr rfl, rfl, fun hne => absurd rfl hne, nofun⟩
  | some N =>
    rw [hname] at h
    have hnext := next?_of_name h
    cases hd : N.isDestructor with
    | true => exact ⟨.tilde, by simpa [hd] using hnext, .inr rfl, rfl, by simp, nofun⟩
    | false =>
      exact ⟨.identifier, by simpa [hd] using hnext, .inl rfl, rfl, by simp,
        fun _ => hP.apart N hname hd⟩

/-- **The type of a parameter is read.**  Unless the parameter has neither signs nor a name, it goes
on behind the words of the type. -/
theorem parameterType_yields {P : ParameterSpelling} {m' : TokenStream} (hs : s.IsTail c.stream)
    (hP : P.IsSound) (htype : s.Passes P.type.tokens m')
    (hname : m'.Passes ((P.name.map NameSpelling.tokens).getD []) s')
    (hend : s'.next? = some .comma ∨ s'.next? = some .rParen) :
    ∃ (us : List PieceTree) (is : List Nat) (m : TokenStream), us ≠ [] ∧
      PieceTree.AllMean (c.AddsWords P.type.words) us ∧ c.signsOf is = P.type.signs ∧
      (specifiers g).Yields s us m ∧ pointers.Yields m is m' ∧ (P.type.signs = "" → m = m') ∧
      (¬(P.name = none ∧ P.type.signs = "") →
        m.next? ≠ some .comma ∧ m.next? ≠ some .rParen) := by
  obtain ⟨k, hk, hkind, hpart, hnamed, hapart⟩ := exists_next?_after_type hP hname hend
  have hne : k ≠ .lParen ∧ k ≠ .colonColon := by
    rcases hkind with rfl | hkind
    · exact ⟨nofun, nofun⟩
    · constructor <;> rintro rfl <;> cases hkind
  have hafter (hempty : P.type.signs = "") :
      isSpecifierNext (P.type.words.any TypeWord.namesType) m' = false := by
    rcases hkind with rfl | hkind
    · simp [isSpecifierNext, hk, hapart rfl hempty, TokenKind.isSpecifier,
        TokenKind.isTypeKeyword, TokenKind.isClassKey]
    · exact isSpecifierNext_of_endsWords hk hkind _
  obtain ⟨us, is, m, hlength, hus, his, hspecifiers, hpointers, hsame, hsign⟩ :=
    type_yields (g := g) hs hP.type htype (by simpa [hk] using hne.1) (by simpa [hk] using hne.2)
      (by simpa [hk] using hpart) hafter
  refine ⟨us, is, m, ?_, hus, his, hspecifiers, hpointers, hsame, fun hbare => ?_⟩
  · rintro rfl
    exact hP.words_ne_nil (List.length_eq_zero_iff.1 hlength.symm)
  · by_cases hempty : P.type.signs = ""
    · have hnone : P.name ≠ none := fun hnone => hbare ⟨hnone, hempty⟩
      rw [hsame hempty, hk]
      simpa using hnamed hnone
    · rcases hsign hempty with hk | hk | hk <;> simp [hk]

/-- **A parameter is read.** -/
theorem parameter_yields {P : ParameterSpelling} (hg : g.DeclaresFrom c.stream)
    (hs : s.IsTail c.stream) (hP : P.IsSound) (h : s.Passes P.tokens s')
    (hend : s'.next? = some .comma ∨ s'.next? = some .rParen) :
    ∃ u, (parameter g).Yields s u s' ∧ u.Means fun t => c.parameterOf t = P.parameter := by
  obtain ⟨m', htype, hname⟩ := passes_append.1 h
  obtain ⟨us, is, m, hne, hus, his, hspecifiers, hpointers, hsame, hmore⟩ :=
    parameterType_yields (g := g) hs hP htype hname hend
  by_cases hbare : P.name = none ∧ P.type.signs = ""
  · -- neither a sign nor a name: there is no declarator
    obtain ⟨hnone, hempty⟩ := hbare
    obtain rfl := hsame hempty
    rw [hnone] at hname
    obtain rfl := passes_nil.1 hname
    obtain ⟨p, -, hp⟩ := parameter_yields_of_specifiers hne hspecifiers hend
    refine ⟨_, hp, PieceTree.means_node fun n ts _ hts => ?_⟩
    have hadds := hus ts hts
    have hchildren : Rose.children (.node n ts) = ts := rfl
    rw [(parameterOf_eq_of_specifiers hchildren hadds.isSpecifier).2, ParameterSpelling.parameter,
      hnone, ← type_eq hadds his, his, hempty]
    rfl
  · obtain ⟨hcomma, hrparen⟩ := hmore hbare
    obtain ⟨d, hd, hmeans⟩ :=
      parameterDeclarator_yields hg (htype.isTail.trans hs) hpointers hname hend
    obtain ⟨p, -, hp⟩ := parameter_yields_of_declarator hne hspecifiers hcomma hrparen hd
    refine ⟨_, hp, PieceTree.means_node fun n ts' _ hall => ?_⟩
    obtain ⟨ts, ds, rfl, hts, hds⟩ := List.map_eq_append_iff.1 hall
    obtain ⟨t, rfl, ht⟩ := List.map_eq_singleton_iff.1 hds
    have hadds := hus ts hts
    obtain ⟨hdeclarator, hdeclared, hnameOf⟩ := hmeans t ht
    have hchildren : Rose.children (.node n (ts ++ [t])) = ts ++ [t] := rfl
    rw [(parameterOf_eq_of_declarator hchildren hadds.isSpecifier hdeclarator).2, hdeclared,
      hnameOf, type_eq hadds his]
    rfl

/-! ### Parameter lists -/

/-- A parameter begins with a word. -/
theorem next?_of_parameter {P : ParameterSpelling} (hP : P.IsSound) (h : s.Passes P.tokens s') :
    s.next? ≠ some .rParen := by
  obtain ⟨w, ws, hws⟩ := List.exists_cons_of_ne_nil hP.words_ne_nil
  rw [ParameterSpelling.tokens, TypeSpelling.tokens, hws, List.flatMap_cons, List.append_assoc,
    List.append_assoc] at h
  obtain ⟨m, hm, -⟩ := passes_append.1 h
  exact next?_ne_of_word (hP.type.words w (hws ▸ List.mem_cons_self)) hm (by decide) rfl

/-- Behind a parameter comes a comma, or the list ends. -/
theorem next?_of_parameters {Ps : List ParameterSpelling}
    (h : s.Passes (Ps.flatMap fun P => (.comma, ",") :: P.tokens) s')
    (hend : s'.next? = some .rParen) : s.next? = some .comma ∨ s.next? = some .rParen := by
  cases Ps with
  | nil => exact .inr (passes_nil.1 h ▸ hend)
  | cons => exact .inl (h.next?_eq rfl)

/-- Parameters after the first one are read, with a comma before each of them. -/
theorem items_parameter_yields {Ps : List ParameterSpelling} (hg : g.DeclaresFrom c.stream)
    (hs : s.IsTail c.stream) (hPs : ∀ P ∈ Ps, P.IsSound)
    (h : s.Passes (Ps.flatMap fun P => (.comma, ",") :: P.tokens) s')
    (hend : s'.next? = some .rParen) :
    ∃ us : List PieceTree, (∀ n, s.rest.length ≤ n → (items (·.isAt .comma) (do
        let _ ← advance
        parameter g) n).Yields s us s') ∧
      PieceTree.AllMean
        (fun ts => ts.map c.parameterOf = Ps.map ParameterSpelling.parameter) us := by
  induction Ps generalizing s with
  | nil =>
    obtain rfl := passes_nil.1 h
    exact ⟨[], fun n _ => items_yields_nil (by simp [isAt, hend]) n, .nil rfl⟩
  | cons P Ps ih =>
    obtain ⟨hP, hPs⟩ := List.forall_mem_cons.1 hPs
    rw [List.flatMap_cons] at h
    obtain ⟨m, hm, hrest⟩ := passes_append.1 h
    obtain ⟨hcomma, hp⟩ := passes_cons.1 hm
    have hnext := next?_of_parameters hrest hend
    obtain ⟨u, hu, hmeans⟩ := parameter_yields hg ((isTail_tail s).trans hs) hP hp hnext
    obtain ⟨us, hus, hall⟩ := ih (hm.isTail.trans hs) hPs hrest
    refine ⟨u :: us, fun n hn => ?_, hmeans.cons hall fun t ts ht hts => ?_⟩
    · exact items_yields_cons (isAt_eq_true_iff.2 (next?_of_nextWord? hcomma))
        ((advance_yields s).bind hu) (hm.length_lt (by simp)) hus hn
    · rw [List.map_cons, List.map_cons, ht, hts]

/-- **The parameters between the parentheses are read.** -/
theorem parameters_yields {Ps : List ParameterSpelling} (hg : g.DeclaresFrom c.stream)
    (hs : s.IsTail c.stream) (hPs : ∀ P ∈ Ps, P.IsSound)
    (h : s.Passes ([(.comma, ",")].intercalate (Ps.map ParameterSpelling.tokens)) s')
    (hend : s'.next? = some .rParen) :
    ∃ us : List PieceTree,
      (if s.isAt .rParen then pure [] else commaSeparated (parameter g)).Yields s us s' ∧
      PieceTree.AllMean
        (fun ts => ts.map c.parameterOf = Ps.map ParameterSpelling.parameter) us := by
  cases Ps with
  | nil =>
    obtain rfl := passes_nil.1 h
    rw [if_pos (isAt_eq_true_iff.2 hend)]
    exact ⟨[], .pure _ _, .nil rfl⟩
  | cons P Ps =>
    obtain ⟨hP, hPs⟩ := List.forall_mem_cons.1 hPs
    rw [List.map_cons, intercalate_cons_eq_append, List.flatMap_map] at h
    obtain ⟨m, hm, hrest⟩ := passes_append.1 h
    have hnext := next?_of_parameters hrest hend
    obtain ⟨u, hu, hmeans⟩ := parameter_yields hg hs hP hm hnext
    obtain ⟨us, hus, hall⟩ := items_parameter_yields hg (hm.isTail.trans hs) hPs hrest hend
    refine ⟨u :: us, ?_, hmeans.cons hall fun t ts ht hts => ?_⟩
    · rw [if_neg (by simpa [isAt] using next?_of_parameter hP hm)]
      exact hu.bind ((Yields.get_bind (hus _ (Nat.le_refl _))).bind (.pure _ _))
    · rw [List.map_cons, List.map_cons, ht, hts]

/-- **A parameter list is read**, with the `const` after it if there is one. -/
theorem parameterList_yields {S : SignatureSpelling} (hg : g.DeclaresFrom c.stream)
    (hs : s.IsTail c.stream) (hS : S.IsSound) (h : s.Passes S.listTokens s')
    (hend : s'.next? ≠ some .kwConst) :
    ∃ u, (parameterList g).Yields s u s' ∧ u.label.kind.isParameterList = true ∧
      u.Means fun t => t.isConst = S.isConst ∧
        t.children.map c.parameterOf = S.parameters.map ParameterSpelling.parameter := by
  obtain ⟨-, h⟩ := passes_cons.1 h
  obtain ⟨m, hm, hrest⟩ := passes_append.1 h
  obtain ⟨hrparen, hconst⟩ := passes_cons.1 hrest
  have hrparen := next?_of_nextWord? hrparen
  obtain ⟨us, hus, hall⟩ := parameters_yields hg ((isTail_tail s).trans hs) hS.parameters hm hrparen
  obtain ⟨o, ho, hsome⟩ : ∃ o : Option Nat, (eat? .kwConst).Yields m.tail o s' ∧
      o.isSome = S.isConst := by
    cases hS' : S.isConst with
    | true =>
      rw [hS', if_pos rfl] at hconst
      obtain ⟨hnext, rfl⟩ := passes_singleton.1 hconst
      exact ⟨_, eat?_yields_some (next?_of_nextWord? hnext), rfl⟩
    | false =>
      rw [hS', if_neg Bool.false_ne_true] at hconst
      obtain rfl := passes_nil.1 hconst
      exact ⟨none, eat?_yields_none hend, rfl⟩
  refine ⟨.node ⟨.parameterList s.position m.position o, s.position,
    max s.position (s'.position - 1)⟩ us, ?_, rfl, PieceTree.means_node fun n ts hn hts => ?_⟩
  · refine (advance_yields s).bind <| .get_bind <| hus.ite_bind ?_
    exact (expect_yields hrparen).bind (ho.bind (.get_bind (.pure _ _)))
  · refine ⟨?_, hall ts hts⟩
    rw [SyntaxTree.isConst, Rose.label_node, hn]
    exact hsome

end Parse

/-! ### Declarations -/

namespace SourceCode

/-- The declarator of a function is spelled by a signature. -/
structure IsDeclaredBy (c : SourceCode) (S : SignatureSpelling) (d : SyntaxTree) : Prop where
  /-- It is a declarator. -/
  isDeclarator : d.label.kind.isDeclarator = true
  /-- It has the signs of the type. -/
  type : ∀ ts, c.declaredType ts d = ⟨(c.baseType ts).base, S.returnType.signs⟩
  /-- It has the name. -/
  name : ∃ span, c.declaredName? d = some ([], S.name.text, span)
  /-- It has the parameters. -/
  parameters : ∃ l, d.parameterList? = some l ∧ l.isConst = S.isConst ∧
    l.children.map c.parameterOf = S.parameters.map ParameterSpelling.parameter

/-- A declaration declares one function, which is spelled by a signature. -/
structure DeclaresOnly (c : SourceCode) (S : SignatureSpelling) (t : SyntaxTree) : Prop where
  /-- It is no definition. -/
  kind : ∃ i, t.label.kind = .simpleDeclaration i
  /-- It has specifiers and one declarator. -/
  children : ∃ ts d, t.children = ts ++ [d] ∧ c.AddsWords S.returnType.words ts ∧ c.IsDeclaredBy S d

end SourceCode

namespace Parse

open SourceCode

variable {c : SourceCode} {g : Grammar} {s s' : TokenStream}

/-- **The declarator of a function is read.** -/
theorem declarator_yields {S : SignatureSpelling} {m : TokenStream} {is : List Nat}
    (hg : g.DeclaresFrom c.stream) (hm : m.IsTail c.stream) (hS : S.IsSound)
    (hpointers : pointers.Yields s is m) (his : c.signsOf is = S.returnType.signs)
    (h : m.Passes (S.name.tokens ++ S.listTokens) s')
    (hend : s'.next? = some .semicolon) :
    ∃ d, (declarator g).Yields s (d, true) s' ∧ d.Means (c.IsDeclaredBy S) := by
  obtain ⟨m', hname, hlist⟩ := passes_append.1 h
  have hparen := hlist.next?_eq rfl
  obtain ⟨core, hcore, hkind, hmeans⟩ := declaratorName?_yields hm hname (by simp [hparen])
  have hm' := hname.isTail.trans hm
  obtain ⟨list, hread, hlistKind, hall⟩ :=
    parameterList_yields hg hm' hS hlist (by simp [hend])
  obtain ⟨d, hd, hparts⟩ := closeDeclarator_yields hg (hlist.isTail.trans hm') s.position is
    [core, list] (by simp [hend]) (by simp [hend])
  refine ⟨d, .get_bind <| hpointers.bind <| hcore.bind <| .get_bind ?_, hparts.imp fun t ht => ?_⟩
  · rw [if_pos (isAt_eq_true_iff.2 hparen)]
    exact hread.bind (hd.bind (.pure _ _))
  · obtain ⟨l, rfl, hl⟩ := ht.exists_parameterList? hkind hlistKind
    exact ⟨ht.isDeclarator, his ▸ ht.declaredType, ht.exists_declaredName? hkind hmeans, l, hl,
      hall l rfl⟩

/-- A name before a parameter list begins a declarator. -/
theorem isSpecifierNext_of_functionName (hname : s.next? = some .identifier)
    (hparen : s.tail.next? = some .lParen) (seen : Bool) : isSpecifierNext seen s = false := by
  obtain ⟨rest, position, length⟩ := s
  match rest with
  | [] | [_] => cases hparen
  | t :: u :: rest =>
    have ht : t.kind = .identifier := Option.some.inj hname
    have hu : u.kind = .lParen := Option.some.inj hparen
    have hopens : isDeclaratorNext ⟨t :: u :: rest, position, length⟩ = true := by
      simp [isDeclaratorNext, isAt, hname, opensDeclarator, ht, hu]
    simp [isSpecifierNext, hname, hopens, TokenKind.isSpecifier, TokenKind.isTypeKeyword,
      TokenKind.isClassKey]

/-- **The declaration of a function is read.** -/
theorem simpleDeclaration_yields {S : SignatureSpelling} (hg : g.DeclaresFrom c.stream)
    (hs : s.IsTail c.stream) (hS : S.IsSound) (h : s.Passes S.tokens s')
    (place : DeclarationPlace) :
    ∃ u, (simpleDeclaration g place).Yields s u s' ∧ u.Means (c.DeclaresOnly S) := by
  rw [S.tokens_eq] at h
  obtain ⟨m', htype, hrest⟩ := passes_append.1 h
  obtain ⟨e, hdeclarator, hsemicolon⟩ := passes_append.1 hrest
  obtain ⟨hend, rfl⟩ := passes_singleton.1 hsemicolon
  have hend := next?_of_nextWord? hend
  obtain ⟨n, hname, hlist⟩ := passes_append.1 hdeclarator
  have hparen := hlist.next?_eq rfl
  have hspecifier (seen : Bool) : isSpecifierNext seen m' = false := by
    have hnext := next?_of_name hname
    by_cases hd : S.name.isDestructor = true
    · rw [if_pos hd] at hnext
      exact isSpecifierNext_of_endsWords hnext rfl _
    · rw [if_neg hd] at hnext
      rw [NameSpelling.tokens, if_neg hd] at hname
      obtain ⟨-, rfl⟩ := passes_singleton.1 hname
      exact isSpecifierNext_of_functionName hnext hparen _
  have hnext : m'.next? = some .tilde ∨ m'.next? = some .identifier := by
    rw [next?_of_name hname]
    cases S.name.isDestructor <;> simp
  obtain ⟨us, is, m, -, hus, his, hspecifiers, hpointers, hsame, hsign⟩ :=
    type_yields (g := g) hs hS.returnType htype (by rcases hnext with h | h <;> simp [h])
      (by rcases hnext with h | h <;> simp [h])
      (by rcases hnext with h | h <;> simp [h, TokenKind.isPointerPart]) fun _ => hspecifier _
  have hm' := htype.isTail.trans hs
  obtain ⟨d, hd, hmeans⟩ := declarator_yields hg hm' hS hpointers his hdeclarator hend
  have hmore : m.isAt .semicolon = false := by
    by_cases hempty : S.returnType.signs = ""
    · rw [hsame hempty]
      rcases hnext with h | h <;> simp [isAt, h]
    · rcases hsign hempty with h | h | h <;> simp [isAt, h]
  refine ⟨.node ⟨.simpleDeclaration e.position, s.position, max s.position (e.tail.position - 1)⟩
    (us ++ [d]), .get_bind <| hspecifiers.bind <| .get_bind ?_,
    PieceTree.means_node fun n ts hn hall => ?_⟩
  · rw [if_neg (by simp [hmore])]
    refine hd.bind <| .get_bind ?_
    rw [if_neg (by simp [isAt, hend])]
    have hothers : (collectWhile (·.isAt .comma) (do
        let _ ← advance
        return (← declarator g).1)).Yields e [] e :=
      .get_bind (items_yields_nil (by simp [isAt, hend]) _)
    exact hothers.bind ((expect_yields hend).bind (.get_bind (.pure _ _)))
  · obtain ⟨ts, ds, rfl, hts, hds⟩ := List.map_eq_append_iff.1 hall
    obtain ⟨t, rfl, ht⟩ := List.map_eq_singleton_iff.1 hds
    exact ⟨⟨_, hn⟩, ts, t, rfl, hus ts hts, hmeans t ht⟩

end Parse

/-! ### Files -/

namespace Parse

open SourceCode

variable {c : SourceCode} {s s' : TokenStream} {S : SignatureSpelling}

/-- A signature begins with no namespace. -/
theorem next?_of_signature (hS : S.IsSound) (h : s.Passes S.tokens s') :
    s.next? ≠ some .kwNamespace := by
  obtain ⟨m, htype, hrest⟩ := passes_append.1 h
  obtain ⟨e, hname, -⟩ := passes_append.1 hrest
  obtain ⟨m', hwords, hsigns⟩ := passes_append.1 htype
  cases hws : S.returnType.words with
  | cons w ws =>
    rw [hws, List.flatMap_cons] at hwords
    obtain ⟨e', hw, -⟩ := passes_append.1 hwords
    exact next?_ne_of_word (hS.returnType.words w (hws ▸ List.mem_cons_self)) hw nofun rfl
  | nil =>
    rw [hws] at hwords
    obtain rfl := passes_nil.1 hwords
    cases hks : signTokens S.returnType.signs.toList with
    | cons k ks =>
      have hk := isPointerPart_of_mem_signTokens (hks ▸ List.mem_cons_self)
      rw [hks] at hsigns
      rw [hsigns.next?_eq rfl]
      rcases hk with rfl | rfl | rfl <;> simp
    | nil =>
      rw [hks] at hsigns
      obtain rfl := passes_nil.1 hsigns
      rw [next?_of_name hname]
      cases S.name.isDestructor <;> simp

/-- **A file with the declaration of a function is read.** -/
theorem file_yields (n : Nat) (hS : S.IsSound) (h : c.stream.Passes S.tokens s')
    (hend : s'.rest = []) : ∃ (p : Piece) (u : PieceTree),
      (file (Grammar.forTokens (n + 1))).Yields c.stream (.node p [u]) s' ∧ p.kind = .file ∧
      u.Means (c.DeclaresOnly S) := by
  obtain ⟨u, hu, hmeans⟩ := simpleDeclaration_yields (Grammar.declaresFrom_forTokens c.stream n)
    (.refl _) hS h .namespaceScope
  have hdeclaration : (declaration (Grammar.forTokens n)).Yields c.stream u s' := by
    refine .get_bind ?_
    rw [if_neg (by simpa [isAt] using next?_of_signature hS h)]
    exact hu
  have hlt := h.length_lt (by simp [SignatureSpelling.tokens])
  have hmore : (!c.stream.rest.isEmpty) = true := by
    simpa using List.ne_nil_of_length_pos (Nat.zero_lt_of_lt hlt)
  have hitems : (collectWhile (fun s => !s.rest.isEmpty)
      (declaration (Grammar.forTokens n))).Yields c.stream [u] s' :=
    .get_bind (items_yields_cons hmore hdeclaration hlt
      (fun n _ => items_yields_nil (by simp [hend]) n) (Nat.le_refl _))
  exact ⟨⟨.file, 0, max 0 (s'.position - 1)⟩, u, hitems.bind (.get_bind (.pure _ _)), rfl, hmeans⟩

end Parse

namespace SourceCode

variable {c : SourceCode} {S : SignatureSpelling} {t d : SyntaxTree} {p : Place}
  {table : SymbolTable}

/-! ### Symbols -/

/-- A declaration without a class or an enumeration among its specifiers adds nothing but what its
declarators declare. -/
theorem bindAll_of_plain {ts : List SyntaxTree} (hts : ∀ t ∈ ts,
    t.label.kind.isPlainSpecifier = true ∨ t.label.kind.isDeclarator = true) :
    c.bindAll p table ts = table := by
  induction ts generalizing p with
  | nil => rfl
  | cons t ts ih =>
    obtain ⟨ht, hts⟩ := List.forall_mem_cons.1 hts
    have hbind : c.bind p table t = table := by
      obtain ⟨n, us⟩ := t
      rw [Rose.label_node] at ht
      rw [bind]
      cases hkind : n.kind <;> rw [hkind] at ht <;>
        first | rfl | rcases ht with ht | ht <;> cases ht
    rw [bindAll, hbind]
    exact ih hts

/-- **The function that such a declaration declares is spelled by the signature.** -/
theorem DeclaresOnly.describes (h : c.DeclaresOnly S t) (hS : S.IsSound) :
    ∃ d name, t.declarators = [d] ∧ d.parameterList?.isSome = true ∧
      c.declaredName? d = some name ∧ ∀ p, S.Describes (c.functionOf p t d name none) := by
  obtain ⟨ts, d, hchildren, hadds, hd⟩ := h.children
  have hts := hadds.isSpecifier
  have hspecifiers := SyntaxTree.specifiers_eq hchildren hts
    (List.forall_mem_singleton.2 (SyntaxTree.isSpecifier_of_isDeclarator hd.isDeclarator))
  obtain ⟨span, hname⟩ := hd.name
  obtain ⟨l, hl, hconst, hparameters⟩ := hd.parameters
  refine ⟨d, _, ?_, by rw [hl]; rfl, hname, fun p => ⟨rfl, ?_, ?_, ?_⟩⟩
  · rw [SyntaxTree.declarators_eq hchildren hts]
    simp [hd.isDeclarator]
  · show c.declaredType t.specifiers d = S.returnType.type
    rw [hd.type, hspecifiers, baseType, hadds.2]
    rfl
  · show c.parametersOf d.parameterList? = S.parameters.map ParameterSpelling.parameter
    rw [hl]
    simp only [parametersOf, hparameters]
    exact if_neg hS.not_void
  · show d.parameterList?.any SyntaxTree.isConst = S.isConst
    rw [hl]
    exact hconst

/-- The only symbol of a file with such a declaration is that function. -/
theorem functions_of_declaresOnly (hS : S.IsSound) {n : Node} (hn : n.kind = .file)
    (htree : c.tree = .node n [t]) (h : c.DeclaresOnly S t) :
    ∃ g, c.symbolTable.functions = [g] ∧ S.Describes g := by
  obtain ⟨d, name, hdeclarators, hlist, hname, hdescribes⟩ := h.describes hS
  obtain ⟨i, hkind⟩ := h.kind
  obtain ⟨ts, d', hchildren, hadds, hd'⟩ := h.children
  have hplain : ∀ u ∈ t.children, u.label.kind.isPlainSpecifier = true ∨
      u.label.kind.isDeclarator = true := by
    rw [hchildren]
    exact List.forall_mem_append.2 ⟨fun u hu => .inl (hadds.1 u hu),
      List.forall_mem_singleton.2 (.inr hd'.isDeclarator)⟩
  have hbind (p : Place) (table : SymbolTable) : c.bind p table t =
      table.addFunction (c.functionOf p t d name none) := by
    obtain ⟨m, us⟩ := t
    rw [Rose.label_node] at hkind
    rw [Rose.children_node] at hplain
    rw [bind, hkind]
    simp only [hdeclarators]
    rw [bindAll_of_plain hplain]
    simp [bindDeclarator, hname, hlist]
  refine ⟨c.functionOf ⟨0, [], none, none⟩ t d name none, ?_, hdescribes _⟩
  rw [symbolTable, htree, bind, hn]
  simp only [bindAll, hbind]
  rfl

/-- **The text of a declaration is read as one declaration**, which declares one function, spelled
by the same signature. -/
theorem exists_ofText_of_describes {g : FunctionSymbol} (hS : S.IsSound) (hg : S.Describes g) :
    ∃ c t i g', ofText (g.signature g.name ++ ";").toList = .ok c ∧ c.tree.children = [t] ∧
      t.label.kind = NodeKind.simpleDeclaration i ∧ c.symbolTable.functions = [g'] ∧
      S.Describes g' := by
  obtain ⟨L, hL, hwords⟩ := (S.chain_scraps hS true).exists_ofText
  rw [S.chars_scraps hS hg] at hL
  rw [S.filterMap_token?_scraps] at hwords
  generalize (g.signature g.name ++ ";").toList = text at hL ⊢
  -- the same tokens are passed, whatever tree they stand under
  let code (tree : SyntaxTree) : SourceCode := ⟨text, L.tokens.toArray, L.includes, tree⟩
  have hpasses (tree : SyntaxTree) :
      (code tree).stream.Passes S.tokens ⟨[], S.tokens.length, text.length⟩ :=
    ⟨L.tokens, by simp [stream, code], hwords, by simp [stream], rfl⟩
  have hread (tree : SyntaxTree) := Parse.file_yields L.tokens.length hS (hpasses tree) rfl
  obtain ⟨p, u, hyields, hp, -⟩ := hread (.node ⟨⟨.file, 0, 0⟩, 0⟩ [])
  have htree : PieceTree.ofTokens L.tokens text.length = .ok (.node p [u]) :=
    PieceTree.ofTokens_eq_ok_iff.2 ⟨_, hyields⟩
  obtain ⟨p', u', hyields', -, hmeans⟩ := hread (.ofPieces (.node p [u]))
  obtain ⟨rfl, hu⟩ := Rose.node.inj (hyields.unique hyields').1
  obtain rfl : u = u' := (List.cons.inj hu).1
  have hpieces := SyntaxTree.toPieces_ofPieces (.node p [u])
  generalize hroot : SyntaxTree.ofPieces (.node p [u]) = root at hpieces hmeans
  obtain ⟨n, ts⟩ := root
  rw [SyntaxTree.toPieces_node] at hpieces
  obtain ⟨hn, hts⟩ := Rose.node.inj hpieces
  obtain ⟨t, rfl, ht⟩ := List.map_eq_singleton_iff.1 hts
  have hdeclares := hmeans t ht
  obtain ⟨i, hkind⟩ := hdeclares.kind
  obtain ⟨g', hfunctions, hdescribes⟩ := functions_of_declaresOnly (c := code (.node n [t])) hS
    (hn ▸ hp : n.toPiece.kind = .file) rfl hdeclares
  refine ⟨code (.node n [t]), t, i, g', ?_, rfl, hkind, hfunctions, hdescribes⟩
  exact ofText_eq_ok_iff.2 ⟨L, _, hL, htree, by rw [← hroot]⟩

end SourceCode

namespace ParsedFile

/-- **The declaration that is written for a function declares that function again.**  Its text is
read as one declaration, and what that declares has the same name, the same return type, the same
parameters and the same `const`.  The types are spelled with keywords and names, every parameter has
a type, and no type is named like a destructor. -/
theorem signature_reads_back (f : ParsedFile) {g : FunctionSymbol} (hg : g ∈ f.symbols.functions)
    (hplain : f.SpelledPlainly g) (hbase : ∀ p ∈ g.parameters, p.type.base ≠ "")
    (hreturn : '~' ∉ g.returnType.base.toList)
    (hparameters : ∀ p ∈ g.parameters, '~' ∉ p.type.base.toList) :
    ∃ c t i g', SourceCode.ofText (g.signature g.name ++ ";").toList = .ok c ∧
      c.tree.children = [t] ∧ t.label.kind = NodeKind.simpleDeclaration i ∧
      c.symbolTable.functions = [g'] ∧ g'.name = g.name ∧ g'.returnType = g.returnType ∧
      g'.parameters = g.parameters ∧ g'.isConst = g.isConst ∧ g'.SameSignature g := by
  rw [f.symbols_eq] at hg
  obtain ⟨S, hS, hdescribes⟩ := SourceCode.exists_describes f.isReading hg hplain hreturn
    fun p hp => ⟨hbase p hp, hparameters p hp⟩
  obtain ⟨c, t, i, g', hc, ht, hi, hfunctions, hg'⟩ :=
    SourceCode.exists_ofText_of_describes hS hdescribes
  have hname : g'.name = g.name := hg'.name.trans hdescribes.name.symm
  have hconst : g'.isConst = g.isConst := hg'.isConst.trans hdescribes.isConst.symm
  have hsame : g'.parameters = g.parameters := hg'.parameters.trans hdescribes.parameters.symm
  exact ⟨c, t, i, g', hc, ht, hi, hfunctions, hname,
    hg'.returnType.trans hdescribes.returnType.symm, hsame, hconst, hname, hconst, by rw [hsame]⟩

/-- A type with a qualified name and a `const` behind it, two signs, and parameters with and without
a name. -/
theorem signature_reads_back_member : ∃ f g,
    ParsedFile.parse "a.cpp" 0
      "static A::B const **const C::f(const D &x, unsigned long, E *~E) const { }".toList = .ok f ∧
    f.symbols.functions = [g] ∧
    g.signature g.name ++ ";" = "A::B const **f(const D &x, unsigned long, E *~E) const;" ∧
    ∃ c t i g', SourceCode.ofText (g.signature g.name ++ ";").toList = .ok c ∧
      c.tree.children = [t] ∧ t.label.kind = NodeKind.simpleDeclaration i ∧
      c.symbolTable.functions = [g'] ∧ g'.name = g.name ∧ g'.returnType = g.returnType ∧
      g'.parameters = g.parameters ∧ g'.isConst = g.isConst ∧ g'.SameSignature g := by
  obtain ⟨f, hf, hnodes, hone, hall⟩ : ∃ f, ParsedFile.parse "a.cpp" 0
      "static A::B const **const C::f(const D &x, unsigned long, E *~E) const { }".toList = .ok f ∧
      (∀ t ∈ f.nodes, ∀ d ∈ t.declarators, SourceCode.SpecifiersPlain t d) ∧
      f.symbols.functions.length = 1 ∧ ∀ g ∈ f.symbols.functions,
        g.signature g.name ++ ";" = "A::B const **f(const D &x, unsigned long, E *~E) const;" ∧
        (∀ p ∈ g.parameters, p.type.base ≠ "") ∧ '~' ∉ g.returnType.base.toList ∧
        ∀ p ∈ g.parameters, '~' ∉ p.type.base.toList :=
    exists_of_map_decide (by decide +kernel)
  obtain ⟨g, hg⟩ := List.length_eq_one_iff.1 hone
  have hmem : g ∈ f.symbols.functions := hg ▸ List.mem_singleton_self g
  obtain ⟨htext, hbase, hreturn, hparameters⟩ := hall g hmem
  exact ⟨f, g, hf, hg, htext, f.signature_reads_back hmem
    (SourceCode.spelledPlainly_of_nodes hnodes) hbase hreturn hparameters⟩

/-- A type that is named like a destructor after two colons is written without the colons, and then
it is taken for the name of the function. -/
theorem exists_signature_not_read : ∃ f g,
    ParsedFile.parse "a.cpp" 0 "struct C { };\n::~A C::f() { }".toList = .ok f ∧
    f.symbols.functions = [g] ∧ f.SpelledPlainly g ∧ g.parameters = [] ∧
    g.signature g.name ++ ";" = "~A f();" ∧
    ¬∃ c, SourceCode.ofText (g.signature g.name ++ ";").toList = .ok c := by
  obtain ⟨f, hf, hnodes, hone, hall⟩ : ∃ f,
      ParsedFile.parse "a.cpp" 0 "struct C { };\n::~A C::f() { }".toList = .ok f ∧
      (∀ t ∈ f.nodes, ∀ d ∈ t.declarators, SourceCode.SpecifiersPlain t d) ∧
      f.symbols.functions.length = 1 ∧ ∀ g ∈ f.symbols.functions,
        g.parameters = [] ∧ g.signature g.name ++ ";" = "~A f();" :=
    exists_of_map_decide (by decide +kernel)
  obtain ⟨g, hg⟩ := List.length_eq_one_iff.1 hone
  obtain ⟨hparameters, htext⟩ := hall g (hg ▸ List.mem_singleton_self g)
  refine ⟨f, g, hf, hg, SourceCode.spelledPlainly_of_nodes hnodes, hparameters, htext, ?_⟩
  rintro ⟨c, hc⟩
  rw [htext] at hc
  have herror : (SourceCode.ofText "~A f();".toList).isOk = false := by decide +kernel
  rw [hc] at herror
  cases herror

end ParsedFile

end Mend
