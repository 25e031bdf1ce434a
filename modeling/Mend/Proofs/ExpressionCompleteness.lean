import Mend.Proofs.ExpressionSoundness

/-!
# Phrases of the grammar are parsed

Where the tokens of a phrase come next, and the token after them could not go on with it, the parser
succeeds with the tree of the phrase and takes its tokens.

The rules of the grammar for suffixes and for binary operators are recursive on the left, and the
parsers loop, so a derivation is turned into the rounds of a loop: the loop reaches the tree of
every derivation from the operand that the derivation begins with.

## Main definitions

* `Grammar.ReadsPhrases` — a grammar reads every expression of fewer tokens than a bound.
* `Parse.ReadsSuffixes`, `Parse.LevelReads` — how far the loops have come.

## Main results

* `Parse.suffixed_reads`, `Parse.binary_reads` — a derivation as the rounds of a loop.
* `Grammar.readsPhrases_forTokens` — every expression is read, for any number of tokens.
* `Parse.expression_parses_exactly` — **the parser accepts exactly the grammar and builds the unique
  tree.**
-/

namespace Mend

open Phrase TokenStream

/-- A grammar reads every expression that begins where less than `n` tokens are left, when the
token after it could not go on with it. -/
def Grammar.ReadsPhrases (g : Grammar) (n : Nat) : Prop :=
  ∀ ⦃s s' : TokenStream⦄ ⦃e : PieceTree⦄, s.rest.length < n →
    s.Forms (Derives .assignment) [e] s' →
    s'.next?.any TokenKind.continuesExpression = false → g.assignment.Yields s e s'

namespace Parse

variable {g : Grammar} {s m s' : TokenStream} {i n : Nat} {c : Category} {v w : List TokenKind}
  {qs : List Nat} {e : PieceTree} {es : List PieceTree}

/-! ### Names -/

theorem unqualifiedName_yields (h : s.Consumes w s') (he : UnqualifiedName s.position w e) :
    unqualifiedName.Yields s e s' := by
  cases he with
  | simple =>
    obtain ⟨hname, rfl⟩ := consumes_singleton.1 h
    refine .get_bind <| (eat?_yields_none (by simp [hname])).bind ?_
    exact (expectName_yields hname).bind (close_yields h (by simp) rfl)
  | destructor =>
    obtain ⟨htilde, hname, rfl⟩ :
        s.next? = some .tilde ∧ s.tail.next? = some .identifier ∧ s' = s.tail.tail := by
      simpa using h
    refine .get_bind <| (eat?_yields_some htilde).bind ?_
    rw [← tail_position htilde]
    exact (expectName_yields hname).bind (close_yields h (by simp) rfl)

/-- The last part of a name is no qualifier. -/
theorem isQualifier_eq_false (h : s.Consumes w s') (he : UnqualifiedName i w e)
    (hnext : s'.next? ≠ some .colonColon) : isQualifier s = false := by
  refine eq_false_of_ne_true fun hqualifier => ?_
  obtain ⟨hname, hcolons, -⟩ := isQualifier_eq_true_iff.1 hqualifier
  cases he with
  | simple =>
    obtain ⟨-, rfl⟩ := consumes_singleton.1 h
    exact hnext hcolons
  | destructor =>
    have htilde := h.next?_eq rfl
    simp [hname] at htilde

/-- Qualifiers are read up to the last part of the name, with any number of rounds that is
enough. -/
theorem items_qualifiers_yields (hqs : Qualifiers i v qs) (he : UnqualifiedName (i + v.length) w e)
    (hi : s.position = i) (h : s.Consumes v m) (hm : m.Consumes w s')
    (hnext : s'.next? ≠ some .colonColon) (hn : s.rest.length ≤ n) :
    (items isQualifier qualifier n).Yields s qs m := by
  induction hqs generalizing s n with
  | nil =>
    obtain rfl := consumes_nil.1 h
    exact items_yields_nil (isQualifier_eq_false hm he hnext) n
  | @cons i v qs hqs ih =>
    obtain ⟨hname, hcolons, h⟩ : s.next? = some .identifier ∧ s.tail.next? = some .colonColon ∧
        s.tail.tail.Consumes v m := by simpa using h
    have hpos : s.tail.tail.position = i + 2 := by
      rw [tail_position hcolons, tail_position hname, hi]
    have hafter : s.tail.tail.next? = some .identifier ∨ s.tail.tail.next? = some .tilde := by
      cases hqs with
      | nil =>
        obtain ⟨k, u, rfl, hk⟩ := he.exists_head_eq
        rw [(h.append hm).next?_eq rfl]
        simpa using hk
      | cons => exact .inl (h.next?_eq rfl)
    have hlength := tail_length hname
    have hlength' := tail_length hcolons
    have hitem : qualifier.Yields s s.position s.tail.tail :=
      (advance_yields s).bind <| (advance_yields _).bind (.pure _ _)
    have hadd : i + 2 + v.length = i + (TokenKind.identifier :: .colonColon :: v).length := by
      simp only [List.length_cons]
      omega
    rw [← hi]
    refine items_yields_cons (isQualifier_eq_true_iff.2 ⟨hname, hcolons, hafter⟩) hitem (by omega)
      (fun k hk => ?_) hn
    exact ih (hadd ▸ he) hpos h hk

theorem qualifiers_yields (hqs : Qualifiers s.position v qs)
    (he : UnqualifiedName (s.position + v.length) w e) (h : s.Consumes v m) (hm : m.Consumes w s')
    (hnext : s'.next? ≠ some .colonColon) : (collectWhile isQualifier qualifier).Yields s qs m :=
  .get_bind (items_qualifiers_yields hqs he rfl h hm hnext (Nat.le_refl _))

theorem name_yields (he : Name s.position w e) (h : s.Consumes w s')
    (hnext : s'.next? ≠ some .colonColon) : name.Yields s e s' := by
  cases he with
  | bare he =>
    obtain ⟨k, u, hw, hk⟩ := he.exists_head_eq
    have hcolons : s.next? ≠ some .colonColon := by
      rw [h.next?_eq (congrArg List.head? hw)]
      rcases hk with rfl | rfl <;> simp
    refine .get_bind <| (eat?_yields_none hcolons).bind ?_
    refine (qualifiers_yields (.nil _) he (.refl s) h hnext).bind ?_
    refine (unqualifiedName_yields h he).bind ?_
    rw [if_pos (by simp [he.first_eq])]
    exact .pure _ _
  | qualified hne hqs he =>
    obtain ⟨m, hv, hw⟩ := consumes_append.1 h
    have hcolons : s.next? ≠ some .colonColon := by
      cases hqs with
      | nil => exact absurd rfl hne
      | cons => simp [hv.next?_eq rfl]
    refine .get_bind <| (eat?_yields_none hcolons).bind ?_
    refine (qualifiers_yields hqs he hv hw hnext).bind ?_
    rw [← hv.position_eq] at he
    refine (unqualifiedName_yields hw he).bind ?_
    rw [if_neg (by simp [hne])]
    refine close_yields h ?_ rfl
    obtain ⟨k, u, rfl, -⟩ := he.exists_head_eq
    simp
  | @global _ _ _ e hqs he =>
    obtain ⟨m, hvw, hw⟩ := consumes_append.1 h
    obtain ⟨hcolons, hv⟩ := consumes_cons.1 hvw
    refine .get_bind <| (eat?_yields_some hcolons).bind ?_
    rw [← tail_position hcolons] at hqs he
    refine (qualifiers_yields hqs he hv hw hnext).bind ?_
    rw [← hv.position_eq] at he
    refine (unqualifiedName_yields hw he).bind ?_
    have hne : e.label.first ≠ s.position := by
      rw [he.first_eq, hv.position_eq, tail_position hcolons]
      omega
    rw [if_neg (by simp [hne])]
    exact close_yields h (by simp) rfl

/-! ### Operands -/

theorem leaf_yields {kind : Nat → NodeKind} {k : TokenKind} (hk : s.next? = some k) :
    (leaf kind).Yields s (.spanning (kind s.position) s.position [k] []) s.tail := by
  have h := consumes_singleton.2 ⟨hk, rfl⟩
  exact (advance_yields s).bind (close_yields h (by simp) rfl)

/-- An operand that does not begin with the sign of Objective-C is told by its first token. -/
theorem isSignedString_eq_false {k : TokenKind} (hk : s.next? = some k) (hne : k ≠ .atSign) :
    isSignedString s = false := by
  simp [isSignedString, isAt, hk, hne]

/-- An expression in parentheses is read whatever comes after it. -/
theorem nested_yields (hg : g.ReadsPhrases n) (hn : s.rest.length ≤ n)
    (h : s.Consumes (.lParen :: (w ++ [.rParen])) s')
    (he : Derives .assignment (s.position + 1) w [e]) :
    (primary g).Yields s (.spanning (.nested s.position (s.position + 1 + w.length)) s.position
      (.lParen :: (w ++ [.rParen])) [e]) s' := by
  refine .get_bind ?_
  obtain ⟨hlparen, h'⟩ := consumes_cons.1 h
  obtain ⟨m, hw, hlast⟩ := consumes_append.1 h'
  obtain ⟨hrparen, rfl⟩ := consumes_singleton.1 hlast
  rw [if_neg (by simp [isSignedString_eq_false hlparen])]
  refine (peek_yields s).bind ?_
  rw [hlparen]
  refine (advance_yields s).bind ?_
  rw [← tail_position hlparen] at he ⊢
  have hlt : s.tail.rest.length < n := by
    rw [tail_length hlparen] at hn
    omega
  refine (hg hlt ⟨_, hw, he⟩ (by rw [hrparen]; rfl)).bind <| (expect_yields hrparen).bind ?_
  rw [← hw.position_eq]
  exact close_yields h (by simp) rfl

theorem primary_yields (hg : g.ReadsPhrases n) (hn : s.rest.length ≤ n) (h : s.Consumes w s')
    (he : Derives .primary s.position w [e]) (hnext : s'.next? ≠ some .colonColon) :
    (primary g).Yields s e s' := by
  cases he with
  | signedString =>
    refine .get_bind ?_
    obtain ⟨hat, hstring, rfl⟩ :
        s.next? = some .atSign ∧ s.tail.next? = some .stringLiteral ∧ s' = s.tail.tail := by
      simpa using h
    rw [if_pos (by simp [isSignedString, isAt, hat, hstring])]
    refine (advance_yields s).bind <| (advance_yields _).bind ?_
    rw [← tail_position hat]
    exact close_yields h (by simp) rfl
  | number _ hk | bool _ hk =>
    rcases hk with rfl | rfl
    all_goals
      obtain ⟨hk, rfl⟩ := consumes_singleton.1 h
      refine .get_bind ?_
      rw [if_neg (by simp [isSignedString_eq_false hk])]
      refine (peek_yields s).bind ?_
      rw [hk]
      exact leaf_yields hk
  | string | this =>
    obtain ⟨hk, rfl⟩ := consumes_singleton.1 h
    refine .get_bind ?_
    rw [if_neg (by simp [isSignedString_eq_false hk])]
    refine (peek_yields s).bind ?_
    rw [hk]
    exact leaf_yields hk
  | nested he => exact nested_yields hg hn h he
  | name hhead he =>
    obtain ⟨k, u, rfl, hk⟩ := he.exists_head_eq
    have hat := h.next?_eq rfl
    refine .get_bind ?_
    rcases hk with rfl | rfl | rfl
    · rw [if_neg (by simp [isSignedString_eq_false hat])]
      refine (peek_yields s).bind ?_
      rw [hat]
      exact name_yields he h hnext
    · exact absurd rfl hhead
    · rw [if_neg (by simp [isSignedString_eq_false hat])]
      refine (peek_yields s).bind ?_
      rw [hat]
      exact name_yields he h hnext

/-! ### Arguments -/

/-- After an argument comes a comma or the end of the arguments, which do not go on with it. -/
theorem stops_of_furtherArguments {i : Nat} (hes : Derives .furtherArguments i w es)
    (h : s.Consumes w s') (hnext : s'.next? = some .rParen) :
    s.next?.any TokenKind.continuesExpression = false := by
  cases hes with
  | noMore =>
    obtain rfl := consumes_nil.1 h
    rw [hnext]
    rfl
  | more =>
    rw [h.next?_eq rfl]
    rfl

/-- Further arguments are read up to the end of all, with any number of rounds that is enough. -/
theorem items_furtherArguments_yields (hg : g.ReadsPhrases n) (hes : Derives c i w es)
    (hc : c = .furtherArguments) (hi : s.position = i) (hn : s.rest.length ≤ n)
    (h : s.Consumes w s') (hnext : s'.next? = some .rParen) {k : Nat} (hk : s.rest.length ≤ k) :
    (items (·.isAt .comma) (do let _ ← advance; g.assignment) k).Yields s es s' := by
  induction hes generalizing s k with
  | noMore =>
    obtain rfl := consumes_nil.1 h
    exact items_yields_nil (by simp [isAt, hnext]) k
  | @more i w v e es he hes _ ih =>
    obtain ⟨hcomma, h'⟩ := consumes_cons.1 h
    obtain ⟨m, hw, hv⟩ := consumes_append.1 h'
    have hlength := tail_length hcomma
    have hlength' := hw.length_eq
    have hstop := stops_of_furtherArguments hes hv hnext
    rw [← hi, ← tail_position hcomma] at he
    have hitem : (do let _ ← advance; g.assignment : Parse PieceTree).Yields s e m :=
      (advance_yields s).bind (hg (by omega) ⟨w, hw, he⟩ hstop)
    refine items_yields_cons (isAt_eq_true_iff.2 hcomma) hitem (by omega) (fun k hk => ?_) hk
    refine ih rfl ?_ (by omega) hv hk
    rw [hw.position_eq, tail_position hcomma, hi]
  | _ => simp at hc

theorem arguments_yields (hg : g.ReadsPhrases n) (hn : s.rest.length < n) (h : s.Consumes w s')
    (hes : Derives .arguments s.position w es) (hnext : s'.next? = some .rParen) :
    (if s.isAt .rParen then pure [] else commaSeparated g.assignment).Yields s es s' := by
  cases hes with
  | noArguments =>
    obtain rfl := consumes_nil.1 h
    rw [if_pos (isAt_eq_true_iff.2 hnext)]
    exact .pure _ _
  | someArguments he hes =>
    obtain ⟨m, hw, hv⟩ := consumes_append.1 h
    obtain ⟨k, u, hu, hk, -⟩ := he.exists_head_eq (by simp) (by simp)
    have hhead := hw.next?_eq (congrArg List.head? hu)
    have hstop := stops_of_furtherArguments hes hv hnext
    rw [if_neg (by simp [isAt, hhead, hk])]
    refine (hg hn ⟨_, hw, he⟩ hstop).bind (Yields.bind (.get_bind ?_) (.pure _ _))
    have hlength := hw.length_eq
    exact items_furtherArguments_yields hg hes rfl hw.position_eq (by omega) hv hnext
      (Nat.le_refl _)

/-! ### Suffixes -/

/-- A token of another kind comes next. -/
theorem next?_ne {k t : TokenKind} (hk : s.next? = some k) (hne : k ≠ t) : s.next? ≠ some t := by
  simp [hk, hne]

section Suffix

variable {x y : PieceTree} {op : TokenKind}

theorem suffix_yields_call (hg : g.ReadsPhrases n) (hn : m.rest.length ≤ n)
    (hx : x.label.first = s.position) (hw : s.Consumes w m)
    (hes : Derives .arguments (s.position + w.length + 1) v es)
    (h : m.Consumes (.lParen :: (v ++ [.rParen])) s') :
    (suffix g x).Yields m
      (.spanning (.call (s.position + w.length) (s.position + w.length + 1 + v.length))
        s.position (w ++ .lParen :: (v ++ [.rParen])) (x :: es)) s' := by
  obtain ⟨hlparen, h'⟩ := consumes_cons.1 h
  obtain ⟨m', hv, hlast⟩ := consumes_append.1 h'
  obtain ⟨hrparen, rfl⟩ := consumes_singleton.1 hlast
  have hpos : m.tail.position = s.position + w.length + 1 := by
    rw [tail_position hlparen, hw.position_eq]
  rw [tail_length hlparen] at hn
  refine (peek_yields m).bind ?_
  rw [hlparen]
  refine (advance_yields m).bind <| .get_bind ?_
  rw [← hpos] at hes
  rw [← hpos, ← hv.position_eq, ← hw.position_eq]
  refine .ite_bind (arguments_yields hg hn hv hes hrparen) ?_
  exact (expect_yields hrparen).bind (close_yields (hw.append h) (by simp) hx)

theorem suffix_yields_item (hg : g.ReadsPhrases n) (hn : m.rest.length ≤ n)
    (hx : x.label.first = s.position) (hw : s.Consumes w m)
    (hy : Derives .assignment (s.position + w.length + 1) v [y])
    (h : m.Consumes (.lBracket :: (v ++ [.rBracket])) s') :
    (suffix g x).Yields m
      (.spanning (.arrayAccess (s.position + w.length) (s.position + w.length + 1 + v.length))
        s.position (w ++ .lBracket :: (v ++ [.rBracket])) [x, y]) s' := by
  obtain ⟨hlbracket, h'⟩ := consumes_cons.1 h
  obtain ⟨m', hv, hlast⟩ := consumes_append.1 h'
  obtain ⟨hrbracket, rfl⟩ := consumes_singleton.1 hlast
  have hpos : m.tail.position = s.position + w.length + 1 := by
    rw [tail_position hlbracket, hw.position_eq]
  rw [tail_length hlbracket] at hn
  refine (peek_yields m).bind ?_
  rw [hlbracket]
  refine (advance_yields m).bind ?_
  rw [← hpos] at hy
  rw [← hpos, ← hv.position_eq, ← hw.position_eq]
  refine (hg hn ⟨v, hv, hy⟩ (by rw [hrbracket]; rfl)).bind ?_
  exact (expect_yields hrbracket).bind (close_yields (hw.append h) (by simp) hx)

theorem suffix_yields_member (hop : op = .dot ∨ op = .arrow) (hx : x.label.first = s.position)
    (hw : s.Consumes w m) (hy : Name (s.position + w.length + 1) v y) (h : m.Consumes (op :: v) s')
    (hnext : s'.next? ≠ some .colonColon) :
    (suffix g x).Yields m
      (.spanning (.memberAccess (s.position + w.length)) s.position (w ++ op :: v) [x, y]) s' := by
  obtain ⟨hat, hv⟩ := consumes_cons.1 h
  have hpos : m.tail.position = s.position + w.length + 1 := by
    rw [tail_position hat, hw.position_eq]
  rw [← hpos] at hy
  rw [← hw.position_eq]
  refine (peek_yields m).bind ?_
  rcases hop with rfl | rfl
  all_goals
    rw [hat]
    refine (advance_yields m).bind <| (name_yields hy hv hnext).bind ?_
    exact close_yields (hw.append h) (by simp) hx

theorem suffix_yields_step (hop : op = .plusPlus ∨ op = .minusMinus)
    (hx : x.label.first = s.position) (hw : s.Consumes w m) (h : m.Consumes [op] s') :
    (suffix g x).Yields m
      (.spanning (.postfixed (s.position + w.length)) s.position (w ++ [op]) [x]) s' := by
  obtain ⟨hat, rfl⟩ := consumes_singleton.1 h
  rw [← hw.position_eq]
  refine (peek_yields m).bind ?_
  rcases hop with rfl | rfl
  all_goals
    rw [hat]
    exact (advance_yields m).bind (close_yields (hw.append h) (by simp) hx)

end Suffix

/-- An operand is read, and a loop over suffixes comes to an expression. -/
def ReadsSuffixes (g : Grammar) (s : TokenStream) (e : PieceTree) (s' : TokenStream) : Prop :=
  ∃ x s₀, (primary g).Yields s x s₀ ∧ Reaches (fun _ => isSuffix) (suffix g) x s₀ e s'

/-- Where an operand with suffixes is read, another suffix may be read after it. -/
theorem ReadsSuffixes.suffix {x y : PieceTree} {k : TokenKind} (hk : k.startsSuffix = true)
    (h : s.Consumes (w ++ k :: v) s')
    (hx : ∀ {m}, s.Consumes w m → m.next? ≠ some .colonColon → ReadsSuffixes g s x m)
    (hy : ∀ {m}, s.Consumes w m → m.Consumes (k :: v) s' → (suffix g x).Yields m y s') :
    ReadsSuffixes g s y s' := by
  obtain ⟨m, hw, hv⟩ := consumes_append.1 h
  have hat := hv.next?_eq rfl
  have hne : m.next? ≠ some .colonColon := by
    rw [hat]
    rintro ⟨⟩
    simp [TokenKind.startsSuffix] at hk
  obtain ⟨x, s₀, hoperand, hloop⟩ := hx hw hne
  refine ⟨x, s₀, hoperand, hloop.step ?_ (hy hw hv) ?_⟩
  · rw [isSuffix_eq, hat]
    exact hk
  · rw [hv.length_eq, List.length_cons]
    omega

/-- **The suffixes of an operand are rounds of a loop**, which starts with the operand alone. -/
theorem suffixed_reads (hg : g.ReadsPhrases n) (hes : Derives c i w es) (hc : c = .suffixed)
    (hi : s.position = i) (he : es = [e]) (hn : s.rest.length ≤ n) (h : s.Consumes w s')
    (hnext : s'.next? ≠ some .colonColon) : ReadsSuffixes g s e s' := by
  have hshort : ∀ {v m}, s.Consumes v m → m.rest.length ≤ n := by
    intro v m hv
    have hlength := hv.length_eq
    omega
  -- on the derivation, whose last suffix is the last round of the loop
  induction hes generalizing s s' e with
  | alone hoperand =>
    subst hi
    rw [he] at hoperand
    exact ⟨e, s', primary_yields hg hn h hoperand hnext, .refl e s'⟩
  | call hx harguments ih =>
    subst hi
    obtain rfl := (List.cons.inj he).1
    refine .suffix rfl h (fun hw hne => ih rfl rfl rfl hn hw hne hshort) fun hw hv => ?_
    exact suffix_yields_call hg (hshort hw) (hx.first_eq (by simp)) hw harguments hv
  | item hx hindex ih =>
    subst hi
    obtain rfl := (List.cons.inj he).1
    refine .suffix rfl h (fun hw hne => ih rfl rfl rfl hn hw hne hshort) fun hw hv => ?_
    exact suffix_yields_item hg (hshort hw) (hx.first_eq (by simp)) hw hindex hv
  | member hop hx hname ih =>
    subst hi
    obtain rfl := (List.cons.inj he).1
    refine .suffix (by rcases hop with rfl | rfl <;> rfl) h
      (fun hw hne => ih rfl rfl rfl hn hw hne hshort) fun hw hv => ?_
    exact suffix_yields_member hop (hx.first_eq (by simp)) hw hname hv hnext
  | step hop hx ih =>
    subst hi
    obtain rfl := (List.cons.inj he).1
    refine .suffix (by rcases hop with rfl | rfl <;> rfl) h
      (fun hw hne => ih rfl rfl rfl hn hw hne hshort) fun hw hv => ?_
    exact suffix_yields_step hop (hx.first_eq (by simp)) hw hv
  | _ => simp at hc

theorem suffixed_yields (hg : g.ReadsPhrases n) (hn : s.rest.length ≤ n) (h : s.Consumes w s')
    (he : Derives .suffixed s.position w [e])
    (hnext : s'.next?.any (TokenKind.continuesLevel 11) = false) : (suffixed g).Yields s e s' := by
  have hcolons : s'.next? ≠ some .colonColon := by
    intro hk
    simp [hk, TokenKind.continuesLevel] at hnext
  have hsuffix : isSuffix s' = false := by
    rw [isSuffix_eq]
    cases hk : s'.next? with
    | none => rfl
    | some k => simp_all [TokenKind.continuesLevel]
  obtain ⟨x, s₀, hx, hloop⟩ := suffixed_reads hg he rfl rfl rfl hn h hcolons
  exact hx.bind (hloop.repeatWhile_yields hsuffix)

theorem unary_yields (hg : g.ReadsPhrases n) (hes : Derives c i w es) (hc : c = .unary)
    (hi : s.position = i) (he : es = [e]) (hn : s.rest.length ≤ n) (h : s.Consumes w s')
    (hnext : s'.next?.any (TokenKind.continuesLevel 11) = false) : (unary g).Yields s e s' := by
  induction hes generalizing s e with
  | bare hoperand =>
    subst hi
    rw [he] at hoperand
    obtain ⟨k, v, rfl, -, hk⟩ := hoperand.exists_head_eq (by simp) (by simp)
    have hfirst : isUnaryOperator s = false := by
      rw [isUnaryOperator_eq, h.next?_eq rfl]
      exact hk (by simp)
    exact (suffixed_yields hg hn h hoperand hnext).congr_run
      (unary_run_of_not_isUnaryOperator hfirst)
  | unary hoperator hoperand ih =>
    subst hi
    obtain rfl := (List.cons.inj he).1
    obtain ⟨hop, hw⟩ := consumes_cons.1 h
    have hfirst : isUnaryOperator s = true := by
      rw [isUnaryOperator_eq, hop]
      exact hoperator
    have hlength := tail_length hop
    refine Yields.congr_run ?_ (unary_run_of_isUnaryOperator hfirst)
    refine (advance_yields s).bind <| (ih rfl (tail_position hop) rfl (by omega) hw).bind ?_
    exact close_yields h (by simp) rfl
  | _ => simp at hc

/-! ### Operators between operands -/

/-- A loop over the operators of a level comes from one operand to another. -/
def Joins (p : Nat) (operand : Parse PieceTree) : PieceTree → TokenStream → PieceTree →
    TokenStream → Prop :=
  Reaches (fun _ => isAtLevel p) (joinRight operand)

/-- The operands of a level are read when the loop comes from the first one to the last. -/
theorem joined_yields {p : Nat} {operand : Parse PieceTree} {x : PieceTree} {s₀ : TokenStream}
    (hx : operand.Yields s x s₀) (hloop : Joins p operand x s₀ e s')
    (hnext : s'.next?.any (TokenKind.continuesLevel p) = false) :
    (joined p operand).Yields s e s' := by
  refine hx.bind (hloop.repeatWhile_yields ?_)
  refine beq_eq_false_iff_ne.2 fun hlevel => ?_
  obtain ⟨op, hop, hp⟩ := nextLevel?_eq_some hlevel
  rw [hop, Option.any_some, TokenKind.continuesLevel_of_precedence? hp] at hnext
  simp at hnext

/-- A loop over the operators of a level goes one operand further. -/
theorem Joins.step {p : Nat} {op : TokenKind} {operand : Parse PieceTree} {x l r : PieceTree}
    {s₀ : TokenStream} (h : Joins p operand x s₀ l m) (hop : op.precedence? = some p)
    (hl : l.label.first = s.position) (hw : s.Consumes w m) (hv : m.Consumes (op :: v) s')
    (hr : operand.Yields m.tail r s') :
    Joins p operand x s₀
      (.spanning (.binary (s.position + w.length)) s.position (w ++ op :: v) [l, r]) s' := by
  refine Reaches.step h ?_ ?_ ?_
  · simp [isAtLevel, nextLevel?, (consumes_cons.1 hv).1, hop]
  · rw [← hw.position_eq]
    exact (advance_yields m).bind <| hr.bind <| close_yields (hw.append hv) (by simp) hl
  · rw [hv.length_eq, List.length_cons]
    omega

theorem binaryLevel_eq_joined {p : Nat} (hp : p ≤ 10) :
    binaryLevel g (11 - p) = joined p (binaryLevel g (10 - p)) := by
  have hlevel : 11 - p = 10 - p + 1 := by omega
  rw [hlevel, binaryLevel, Nat.sub_sub_self hp]

/-- What is known of the expressions of a level while a derivation is followed: at the tightest one
they are operands, and at every other one the loop comes to them. -/
structure LevelReads (g : Grammar) (p : Nat) (s : TokenStream) (e : PieceTree)
    (s' : TokenStream) : Prop where
  /-- The operands without binary operators. -/
  operand : p = 11 → s'.next?.any (TokenKind.continuesLevel p) = false → (unary g).Yields s e s'
  /-- The operands that are joined. -/
  loop : p ≤ 10 → s'.next?.any (TokenKind.continuesLevel (p + 1)) = false →
    ∃ x s₀, (binaryLevel g (10 - p)).Yields s x s₀ ∧ Joins p (binaryLevel g (10 - p)) x s₀ e s'

theorem stops_mono {p q : Nat} (hpq : p ≤ q)
    (h : s.next?.any (TokenKind.continuesLevel p) = false) :
    s.next?.any (TokenKind.continuesLevel q) = false := by
  cases hk : s.next? with
  | none => rfl
  | some k =>
    rw [hk] at h
    exact TokenKind.continuesLevel_mono hpq h

/-- The expressions of a level are read when no operator of that level comes next. -/
theorem LevelReads.yields {p : Nat} (h : LevelReads g p s e s') (hp : p ≤ 11)
    (hnext : s'.next?.any (TokenKind.continuesLevel p) = false) :
    (binaryLevel g (11 - p)).Yields s e s' := by
  rcases Nat.lt_or_eq_of_le hp with hlt | rfl
  · have hle : p ≤ 10 := Nat.le_of_lt_succ hlt
    obtain ⟨x, s₀, hx, hloop⟩ := h.loop hle (stops_mono (Nat.le_succ p) hnext)
    rw [binaryLevel_eq_joined hle]
    exact joined_yields hx hloop hnext
  · exact h.operand rfl hnext

/-- **The operands of a level are rounds of a loop**, which starts with an operand of the next
tighter level. -/
theorem binary_reads (hg : g.ReadsPhrases n) (hes : Derives c i w es) {p : Nat}
    (hc : c = .binary p) (hi : s.position = i) (he : es = [e]) (hn : s.rest.length ≤ n)
    (h : s.Consumes w s') : LevelReads g p s e s' := by
  -- on the derivation; its last operator is the last round of the loop, and a tighter level is a
  -- loop without rounds
  induction hes generalizing s s' e p with
  | operand hoperand =>
    cases hc
    refine ⟨fun _ hnext => ?_, fun hp => absurd hp (by simp)⟩
    exact unary_yields hg hoperand rfl hi he hn h hnext
  | tighter hp _ ih =>
    cases hc
    refine ⟨fun hp' => absurd hp' (by omega), fun _ hnext => ?_⟩
    have hreads := (ih rfl hi he hn h).yields (Nat.succ_le_succ hp) hnext
    rw [Nat.add_sub_add_right 10 1 _] at hreads
    exact ⟨e, s', hreads, .refl e s'⟩
  | @join q _ _ _ _ _ _ hop hl hr ihl ihr =>
    cases hc
    subst hi
    obtain rfl := (List.cons.inj he).1
    have hp := TokenKind.precedence?_bounds hop
    refine ⟨fun hp' => absurd hp' (by omega), fun _ hnext => ?_⟩
    obtain ⟨m, hw, hv⟩ := consumes_append.1 h
    obtain ⟨hat, hv'⟩ := consumes_cons.1 hv
    have hlength := hw.length_eq
    have htail := tail_length hat
    -- the operator belongs to this level, so it goes on with nothing tighter
    have hstop : m.next?.any (TokenKind.continuesLevel (q + 1)) = false := by
      rw [hat, Option.any_some, TokenKind.continuesLevel_of_precedence? hop]
      simp
    obtain ⟨x, s₀, hx, hloop⟩ := (ihl rfl rfl rfl hn hw).loop hp.2 hstop
    have hright := (ihr rfl (by rw [tail_position hat, hw.position_eq]) rfl (by omega) hv').yields
      (by omega) hnext
    rw [Nat.add_sub_add_right 10 1 _] at hright
    exact ⟨x, s₀, hx, hloop.step hop (hl.first_eq (by simp)) hw hv hright⟩
  | _ => simp at hc

theorem binary_yields (hg : g.ReadsPhrases n) (he : Derives (.binary 1) s.position w [e])
    (hn : s.rest.length ≤ n) (h : s.Consumes w s')
    (hnext : s'.next?.any (TokenKind.continuesLevel 1) = false) :
    (binaryLevel g 10).Yields s e s' :=
  (binary_reads hg he rfl rfl rfl hn h).yields (by simp) hnext

/-! ### Choices and assignments -/

theorem continuesLevel_of_isAssignment {k : TokenKind} (h : k.isAssignment = true) (p : Nat) :
    k.continuesLevel p = false ∧ k ≠ .question := by
  have hall : k.isAssignment → k.precedence? = none ∧ (k == .colonColon || k.startsSuffix) = false ∧
      k ≠ .question := by
    cases k <;> decide
  obtain ⟨hnone, hstart, hne⟩ := hall h
  exact ⟨by simp [TokenKind.continuesLevel, hstart, hnone], hne⟩

/-- What could not go on with an expression is no assignment operator, no question mark and nothing
that goes on with an operand. -/
theorem stops_of_continuesExpression
    (h : s.next?.any TokenKind.continuesExpression = false) :
    s.next?.any (TokenKind.continuesLevel 1) = false ∧ s.next? ≠ some .question ∧
      s.next?.any TokenKind.isAssignment = false := by
  cases hk : s.next? with
  | none => simp
  | some k =>
    rw [hk, Option.any_some] at h
    refine ⟨TokenKind.continuesLevel_of_continuesExpression h, ?_, ?_⟩
    · rintro ⟨⟩
      simp [TokenKind.continuesExpression] at h
    · simp only [TokenKind.continuesExpression, Bool.or_eq_false_iff] at h
      exact h.2

theorem assignment_yields (hg : g.ReadsPhrases n) (hn : s.rest.length ≤ n) (h : s.Consumes w s')
    (he : Derives .assignment s.position w [e])
    (hnext : s'.next?.any TokenKind.continuesExpression = false) :
    (assignment g).Yields s e s' := by
  obtain ⟨hlevel, hquestion, hassign⟩ := stops_of_continuesExpression hnext
  cases he with
  | value he =>
    have hconditional : (conditional g).Yields s e s' :=
      (binary_yields hg he hn h hlevel).bind <| (eat?_yields_none hquestion).bind (.pure _ _)
    refine hconditional.bind <| (peek_yields s').bind ?_
    rw [if_neg (by simp [hassign])]
    exact .pure _ _
  | conditional hc hl hr =>
    obtain ⟨m, hw, hvu⟩ := consumes_append.1 h
    obtain ⟨hmark, hvu⟩ := consumes_cons.1 hvu
    obtain ⟨m', hv, hu⟩ := consumes_append.1 hvu
    obtain ⟨hcolon, hu⟩ := consumes_cons.1 hu
    have hlw := hw.length_eq
    have hlv := hv.length_eq
    have hlm := tail_length hmark
    have hlm' := tail_length hcolon
    rw [← hw.position_eq, ← tail_position hmark] at hl hr
    rw [← hv.position_eq, ← tail_position hcolon] at hr
    rw [← hw.position_eq, ← tail_position hmark, ← hv.position_eq]
    have hconditional : (conditional g).Yields s _ s' :=
      (binary_yields hg hc hn hw (by rw [hmark]; rfl)).bind <|
        (eat?_yields_some hmark).bind <|
        (hg (by omega) ⟨_, hv, hl⟩ (by rw [hcolon]; rfl)).bind <|
        (expect_yields hcolon).bind <| (hg (by omega) ⟨_, hu, hr⟩ hnext).bind <|
        close_yields h (by simp) (hc.first_eq (by simp))
    refine hconditional.bind <| (peek_yields s').bind ?_
    rw [if_neg (by simp [hassign])]
    exact .pure _ _
  | assign hop hl hr =>
    obtain ⟨m, hw, hv⟩ := consumes_append.1 h
    obtain ⟨hat, hv⟩ := consumes_cons.1 hv
    obtain ⟨hstop, hmark⟩ := continuesLevel_of_isAssignment hop 1
    have hlw := hw.length_eq
    have hlm := tail_length hat
    have hconditional : (conditional g).Yields s _ m :=
      (binary_yields hg hl hn hw (by rw [hat]; exact hstop)).bind <|
        (eat?_yields_none (next?_ne hat hmark)).bind (.pure _ _)
    refine hconditional.bind <| (peek_yields m).bind ?_
    rw [hat, if_pos (by simpa using hop)]
    rw [← hw.position_eq, ← tail_position hat] at hr
    rw [← hw.position_eq]
    refine (advance_yields m).bind <| (hg (by omega) ⟨_, hv, hr⟩ hnext).bind ?_
    exact close_yields h (by simp) (hl.first_eq (by simp))

end Parse

/-- **Every expression of the grammar is read**, for any number of tokens. -/
theorem Grammar.readsPhrases_forTokens (n : Nat) : (Grammar.forTokens n).ReadsPhrases n := by
  induction n with
  | zero =>
    rintro s s' e hn
    exact absurd hn (Nat.not_lt_zero _)
  | succ n ih =>
    rintro s s' e hn ⟨w, hw, he⟩ hnext
    exact Parse.assignment_yields ih (Nat.le_of_lt_succ hn) hw he hnext

namespace Phrase

variable {i : Nat} {w : List TokenKind} {e e' : PieceTree}

/-- A word has at most one tree. -/
theorem Derives.unique (h : Derives .assignment i w [e]) (h' : Derives .assignment i w [e']) :
    e = e' := by
  have hw := TokenStream.ofKinds_consumes i w []
  have hn : (TokenStream.ofKinds i (w ++ [])).rest.length < w.length + 1 := by
    simp [TokenStream.ofKinds]
  have hreads := Grammar.readsPhrases_forTokens (w.length + 1)
  exact ((hreads hn ⟨w, hw, h⟩ rfl).unique (hreads hn ⟨w, hw, h'⟩ rfl)).1

end Phrase

/-- **The parser of expressions accepts exactly the grammar and builds the unique tree.**  Where the
tokens of an expression come next and the token after them could not go on with it, the parser
returns the tree of that expression and takes just these tokens.  Whatever the parser returns is the
tree of the tokens that it takes, and in it the left operand of a binary operator never binds looser
than the operator, and the right one binds tighter.  No word has two trees. -/
theorem Parse.expression_parses_exactly (n : Nat) (s : TokenStream) (hn : s.rest.length < n) :
    (∀ ts rest e, s.rest = ts ++ rest →
      Derives .assignment s.position (ts.map (·.kind)) [e] →
      (∀ t ∈ rest.head?, t.kind.continuesExpression = false) →
      (Grammar.forTokens n).assignment.run s =
        .ok (e, ⟨rest, s.position + ts.length, s.textLength⟩)) ∧
    (∀ e s', (Grammar.forTokens n).assignment.run s = .ok (e, s') →
      ∃ ts, s.rest = ts ++ s'.rest ∧ s'.position = s.position + ts.length ∧
        s'.textLength = s.textLength ∧
        Derives .assignment s.position (ts.map (·.kind)) [e] ∧
        e.All (Piece.GroupsByLevel s.kindAt)) ∧
    ∀ i w e e', Derives .assignment i w [e] → Derives .assignment i w [e'] → e = e' := by
  refine ⟨fun ts rest e hrest he hnext => ?_, fun e s' hrun => ?_, fun i w e e' => Derives.unique⟩
  · have h : s.Consumes (ts.map (·.kind)) ⟨rest, s.position + ts.length, s.textLength⟩ :=
      ⟨ts, hrest, rfl, by rw [List.length_map], rfl⟩
    refine Grammar.readsPhrases_forTokens n hn ⟨_, h, he⟩ ?_
    cases rest with
    | nil => rfl
    | cons t rest => exact hnext t rfl
  · obtain ⟨w, hw, he⟩ := (Grammar.followsRules_forTokens n s e s' hrun).1
    have hgroups := (he.groupsByLevel hw.foundAt e (List.mem_singleton_self e)).1
    obtain ⟨ts, hrest, rfl, hposition, hlength⟩ := hw
    rw [List.length_map] at hposition
    exact ⟨ts, hrest, hposition, hlength, he, hgroups⟩

/-- In `a - b - c * d;` the first two operands are joined first, and the last two before the
difference is taken. -/
theorem Parse.expression_parses_exactly_of_chain :
    let word := [.identifier, .minus, .identifier, .minus, .identifier, .star, .identifier]
    let a (i : Nat) : PieceTree := .spanning (.simpleName i) i [.identifier] []
    (TokenStream.ofKinds 0 (word ++ [.semicolon])).rest.length < 9 ∧
      (Grammar.forTokens 9).assignment.run (.ofKinds 0 (word ++ [.semicolon])) =
        .ok (.node ⟨.binary 3, 0, 6⟩
          [.node ⟨.binary 1, 0, 2⟩ [a 0, a 2], .node ⟨.binary 5, 4, 6⟩ [a 4, a 6]],
          .ofKinds 7 [.semicolon]) := by
  intro word a
  have hname (i : Nat) : Derives (.binary 11) i [.identifier] [a i] :=
    .operand (.bare (.alone (.name (by simp) (.bare (.simple i)))))
  have hdifference : Derives (.binary 9) 0 ([.identifier] ++ .minus :: [.identifier]) _ :=
    .join rfl ((hname 0).looser (by decide)) ((hname 2).looser (by decide))
  have hproduct : Derives (.binary 10) 4 ([.identifier] ++ .star :: [.identifier]) _ :=
    .join rfl ((hname 4).looser (by decide)) (hname 6)
  have hchain : Derives (.binary 9) 0 (_ ++ .minus :: _) _ := .join rfl hdifference hproduct
  have hword : Derives .assignment 0 word _ := .value (hchain.looser (by decide))
  refine ⟨by decide, ?_⟩
  have hrun := (expression_parses_exactly 9 (.ofKinds 0 (word ++ [.semicolon])) (by decide)).1
    (TokenStream.ofKinds 0 word).rest (TokenStream.ofKinds 7 [.semicolon]).rest _ rfl hword
    (by decide)
  exact hrun.trans rfl

end Mend
