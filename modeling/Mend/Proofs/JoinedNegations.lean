import Mend.Proofs.ReplacedOperands

/-!
# Two negations as one

`!A && !B` is exchanged for `!(A || B)`.  The negations are joined nowhere to the left, so both are
read where the first sign is, and `!(A || B)` is an operand that binds tighter than `&&`: the file
is read with the one in place of the other.

## Main definitions

* `PieceTree.joinedNegation` — the negation of two operands that are joined in parentheses.

## Main results

* `Parse.binaryLevel_stops_suffix` — after an expression comes nothing that goes on with an operand.
* `PieceTree.ofTokens_joinNegations` — **a file with `!(A || B)` for `!A && !B` is read with the
  negation of both for the two negations.**
-/

namespace Mend

open Phrase TokenStream

namespace Phrase

variable {c : Category} {i : Nat} {w : List TokenKind} {t : PieceTree} {es : List PieceTree}

/-- A negation belongs to its sign and the tokens of what is negated. -/
theorem Derives.unary_inv {o : Nat} (h : Derives c i w es) (hc : c ≠ .arguments)
    (hc' : c ≠ .furtherArguments) (hes : es = [t]) (hkind : t.label.kind = .unary o) :
    ∃ op v e, w = op :: v ∧ o = i ∧ t = .spanning (.unary i) i w [e] ∧
      op.isUnaryOperator = true ∧ Derives .unary (i + 1) v [e] := by
  induction h with
  | value _ ih | operand _ ih | tighter _ _ ih | bare _ ih | alone _ ih =>
    exact ih (by simp) (by simp) hes
  | unary hop h =>
    obtain rfl := (List.cons.inj hes).1
    exact ⟨_, _, _, rfl, (NodeKind.unary.inj hkind).symm, rfl, hop, h⟩
  | name _ hname =>
    obtain rfl := (List.cons.inj hes).1
    cases hname with
    | bare name => cases name <;> cases hkind
    | qualified | global => cases hkind
  | noArguments | someArguments => exact absurd rfl hc
  | noMore | more => exact absurd rfl hc'
  | _ =>
    obtain rfl := (List.cons.inj hes).1
    cases hkind

theorem Name.getLast?_eq (h : Name i w t) : w.getLast? = some .identifier := by
  have hunqualified {i : Nat} {w : List TokenKind} {t : PieceTree} (h : UnqualifiedName i w t) :
      w.getLast? = some .identifier := by
    cases h <;> rfl
  cases h with
  | bare name => exact hunqualified name
  | qualified _ _ name | global _ name => rw [List.getLast?_append, hunqualified name]; rfl

/-- **No operator between operands ends a phrase.** -/
theorem Derives.getLast?_precedence? (h : Derives c i w es) :
    ∀ k ∈ w.getLast?, k.precedence? = none := by
  -- what comes last is the last token of a part, a word or a bracket
  have hbehind {v w : List TokenKind} {op : TokenKind} {d : Category} {j : Nat}
      {fs : List PieceTree} (hw : Derives d j w fs) (hd : d ≠ .arguments ∧ d ≠ .furtherArguments)
      (ih : ∀ k ∈ w.getLast?, k.precedence? = none) :
      ∀ k ∈ (v ++ op :: w).getLast?, k.precedence? = none := by
    obtain ⟨k, u, rfl, -⟩ := hw.exists_head_eq hd.1 hd.2
    rwa [List.getLast?_append_of_ne_nil _ (List.cons_ne_nil _ _), List.getLast?_cons_cons]
  have happend {v w : List TokenKind} (hv : ∀ k ∈ v.getLast?, k.precedence? = none)
      (hw : ∀ k ∈ w.getLast?, k.precedence? = none) :
      ∀ k ∈ (v ++ w).getLast?, k.precedence? = none := by
    intro k hk
    rw [List.getLast?_append] at hk
    rcases Option.or_eq_some_iff.1 hk with hk | ⟨-, hk⟩
    · exact hw k hk
    · exact hv k hk
  induction h with
  | value _ ih | operand _ ih | tighter _ _ ih | bare _ ih | alone _ ih => exact ih
  | conditional _ _ h _ _ ih =>
    rw [← List.cons_append, ← List.append_assoc]
    exact hbehind h (by simp) ih
  | assign _ _ h _ ih | join _ _ h _ ih => exact hbehind h (by simp) ih
  | unary _ h ih => exact hbehind (v := []) h (by simp) ih
  | call | item =>
    rw [← List.cons_append, ← List.append_assoc, List.getLast?_concat]
    simp
    rfl
  | nested =>
    rw [← List.cons_append, List.getLast?_concat]
    simp
    rfl
  | step hop =>
    rw [List.getLast?_concat]
    rcases hop with rfl | rfl <;> simp <;> rfl
  | member _ _ hname =>
    rw [List.getLast?_append_of_ne_nil _ (List.cons_ne_nil _ _)]
    simp [List.getLast?_cons, hname.getLast?_eq]
    rfl
  | name _ hname =>
    rw [hname.getLast?_eq]
    simp
    rfl
  | number _ hk | bool _ hk => rcases hk with rfl | rfl <;> simp <;> rfl
  | string | signedString | this => simp; rfl
  | noArguments | noMore => simp
  | someArguments _ _ ih ih' => exact happend ih ih'
  | more h _ ih ih' => exact happend (hbehind (v := []) h (by simp) ih) ih'

end Phrase

namespace Parse

variable {g : Grammar} {n : Nat} {s s' : TokenStream} {x : PieceTree}

/-! ### Where operands end -/

theorem suffixed_stops (hg : g.IsSound) (s : TokenStream) :
    (suffixed g).Ensures s fun _ s' => isSuffix s' = false := by
  have hsuffix : Advances (fun (_ : PieceTree) => isSuffix) (suffix g) :=
    ⟨rest_ne_nil_of_isSuffix, fun h => Twin.Matches.suffix_shrinks hg _ h⟩
  refine Ensures.bind (Q := fun _ _ => True) (fun _ _ _ => trivial) fun operand s₁ _ => ?_
  exact (hsuffix.repeatWhile_ensures (I := fun _ _ => True) (fun _ _ _ _ _ _ _ => trivial)
    trivial).imp fun _ _ h => h.2

theorem unary_stops (hg : g.IsSound) (s : TokenStream) :
    (unary g).Ensures s fun _ s' => isSuffix s' = false := by
  refine Ensures.bind (Q := fun _ _ => True) (fun _ _ _ => trivial) fun operators s₁ _ => ?_
  refine (suffixed_stops hg s₁).bind fun operand s₂ h => ?_
  -- nothing is taken when the operators are closed
  induction operators with
  | nil => exact .pure h
  | cons operator operators ih =>
    rw [List.foldrM_cons]
    exact ih.bind fun _ _ h => close_ensures_eq.imp fun _ _ heq => heq ▸ h

/-- **After an expression comes nothing that goes on with an operand.** -/
theorem binaryLevel_stops_suffix (hg : g.IsSound) (hg' : g.FollowsRules) (hn : n ≤ 11)
    (s : TokenStream) : (binaryLevel g n).Ensures s fun _ s' => isSuffix s' = false := by
  induction n generalizing s with
  | zero => exact unary_stops hg s
  | succ n ih =>
    have ih := ih (Nat.le_of_succ_le hn)
    rw [binaryLevel, joined_eq]
    refine (ih s).bind fun left s₁ h₁ => ?_
    exact ((advances_joinRight hg' (Nat.le_of_succ_le_succ hn) _).repeatWhile_ensures
      (I := fun _ s' => isSuffix s' = false) (fun _ s₂ _ _ => joinRight_ensures (ih s₂.tail))
      h₁).imp fun _ _ h => h.1

/-- An operand without suffixes. -/
theorem suffixed_yields_of_primary (h : (primary g).Yields s x s') (hstop : isSuffix s' = false) :
    (suffixed g).Yields s x s' :=
  h.bind (repeatWhile_yields_of_not_more hstop)

/-- **The negation of an expression in parentheses is read**, unless the next token goes on with an
operand. -/
theorem unary_yields_of_nested {w : List TokenKind} (hg : g.ReadsPhrases n)
    (hn : s.rest.length ≤ n) (h : s.Consumes (.exclaim :: .lParen :: (w ++ [.rParen])) s')
    (hx : Derives .assignment (s.position + 2) w [x]) (hstop : isSuffix s' = false) :
    (unary g).Yields s (.node ⟨.unary s.position, s.position, s'.position - 1⟩
      [.node ⟨.nested (s.position + 1) (s'.position - 1), s.position + 1, s'.position - 1⟩ [x]])
      s' := by
  have hposition := h.position_eq
  obtain ⟨hsign, hparen⟩ := consumes_cons.1 h
  have htail := tail_position hsign
  have hlength := tail_length hsign
  have hfirst : isUnaryOperator s = true := by
    rw [isUnaryOperator_eq, hsign]
    rfl
  have hinner : isUnaryOperator s.tail = false := by
    rw [isUnaryOperator_eq, hparen.next?_eq rfl]
    rfl
  rw [← Nat.add_assoc s.position 1 1, ← htail] at hx
  have hnested := suffixed_yields_of_primary (nested_yields hg (by omega) hparen hx) hstop
  refine Yields.congr_run ?_ (unary_run_of_isUnaryOperator hfirst)
  refine (advance_yields s).bind <| Yields.bind
    (hnested.congr_run (unary_run_of_not_isUnaryOperator hinner)) ?_
  -- all three nodes end with the closing parenthesis
  have hlast : s.position + 1 + 1 + w.length = s'.position - 1 := by
    simp only [List.length_cons, List.length_append, List.length_nil] at hposition
    omega
  have hend : s.position + 1 + (TokenKind.lParen :: (w ++ [.rParen])).length - 1 =
      s'.position - 1 := by
    simp only [List.length_cons, List.length_append, List.length_nil]
    omega
  rw [htail, PieceTree.spanning, hlast, hend]
  show Except.ok _ = Except.ok _
  rw [Nat.max_eq_right (by omega)]

/-- An operand that no operator comes after is read at every level. -/
theorem binaryLevel_yields_of_unary (h : (unary g).Yields s x s') (hn : n ≤ 10)
    (hstop : isFromLevel (11 - n) s' = false) : (binaryLevel g n).Yields s x s' := by
  induction n with
  | zero => exact h
  | succ n ih =>
    have hnone (p : Nat) (hp : 10 - n ≤ p) : s'.nextLevel? ≠ some p := by
      intro hlevel
      simp only [isFromLevel, hlevel, Option.any_some, decide_eq_false_iff_not] at hstop
      omega
    refine (ih (Nat.le_of_succ_le hn) ?_).bind (repeatWhile_yields_of_not_more ?_)
    · refine eq_false_of_ne_true fun hmore => ?_
      obtain ⟨p, hp, hle⟩ := isFromLevel_eq_true hmore
      exact hnone p (by omega) hp
    · exact beq_eq_false_iff_ne.2 (hnone _ (Nat.le_refl _))

end Parse

/-! ### Reading the negation of both -/

/-- The negation of two operands that are joined in parentheses, in place of their negations.  It
begins at `p`; `q` was the position of the operator, and `k` that of the last token. -/
def PieceTree.joinedNegation (p q k : Nat) (a b : PieceTree) : PieceTree :=
  .node ⟨.unary p, p, k + 1⟩ [.node ⟨.nested (p + 1) (k + 1), p + 1, k + 1⟩
    [.node ⟨.binary (q + 1), p + 2, k⟩ [a.moved (Twin.pushed p 1), b]]]

namespace Twin

open Parse

variable {S : Site} {M : Nat} {l r a b : PieceTree} {m e : TokenStream}
  {n₁ n₁' op op' n₂ lp rp : Token} {as as' bs bs' post post' : List Token}

/-- What is negated, with the tokens of the negation. -/
theorem exists_of_unary {p o : Nat} {s s' : TokenStream} (h : s.Forms (Derives (.binary p)) [l] s')
    (hl : l.label.kind = .unary o) :
    ∃ k v a, o = s.position ∧ l.children = [a] ∧ s.Consumes (k :: v) s' ∧
      Derives .unary (s.position + 1) v [a] := by
  obtain ⟨w, hw, hlw⟩ := h
  obtain ⟨k, v, a, rfl, ho, rfl, -, ha⟩ := hlw.unary_inv (by simp) (by simp) rfl hl
  exact ⟨k, v, a, ho, rfl, hw, ha⟩

/-- Tokens that are consumed are the first ones, when there are as many of them. -/
theorem eq_of_consumes {s s' : TokenStream} {w : List TokenKind} {us : List Token}
    (ts : List Token) (h : s.Consumes w s') (hs : s.rest = ts ++ us) (hw : w.length = ts.length) :
    w = ts.map (·.kind) ∧ s'.rest = us := by
  obtain ⟨vs, hvs, rfl, -, -⟩ := h
  rw [List.length_map] at hw
  obtain ⟨rfl, rfl⟩ := List.append_inj (hvs.symm.trans hs) hw
  exact ⟨rfl, rfl⟩

/-- What is negated, joined in place of the negations. -/
theorem derives_joined {p : Nat} {v v' : List TokenKind} (ha : Derives .unary (p + 1) v [a])
    (hb : Derives .unary (p + 1 + v.length + 2) v' [b]) :
    Derives (.binary 1) (p + 2) (v ++ .pipePipe :: v')
      [.node ⟨.binary (p + 1 + v.length + 1), p + 2, p + 1 + v.length + 1 + v'.length⟩
        [a.moved (pushed p 1), b]] := by
  have hshift : Shifts (pushed p 1) (p + 1) v.length := by
    intro j _
    simp only [pushed]
    split <;> split <;> omega
  have ha := ha.moved hshift
  rw [show pushed p 1 (p + 1) = p + 2 by simp [pushed]] at ha
  rw [show p + 1 + v.length + 2 = p + 2 + v.length + 1 by omega] at hb
  have hjoined : Derives (.binary 1) (p + 2) (v ++ .pipePipe :: v') _ :=
    .join rfl ((Derives.operand ha).looser (by omega)) ((Derives.operand hb).looser (by omega))
  have hlast : p + 1 + v.length + 1 + v'.length =
      p + 2 + (v ++ TokenKind.pipePipe :: v').length - 1 := by
    simp only [List.length_append, List.length_cons]
    omega
  rw [hlast, show p + 1 + v.length + 1 = p + 2 + v.length by omega]
  exact hjoined

/-- **The negation of both operands is read where the two negations were.** -/
theorem exists_joinedNegation_yields {o o' : Nat} (h : JoinedAt M 2 S.start l r m e)
    (hl : l.label.kind = .unary o) (ha : l.children = [a])
    (hr : r.label.kind = .unary o') (hb : r.children = [b])
    (htokens : S.tokens = n₁ :: (as ++ op :: n₂ :: (bs ++ post)))
    (htokens' : S.tokens' = n₁' :: lp :: (as' ++ op' :: (bs' ++ rp :: post')))
    (has : List.Forall₂ Token.Same as as') (hbs : List.Forall₂ Token.Same bs bs')
    (hpost : List.Forall₂ Token.Same post post') (hn₁ : n₁'.kind = .exclaim)
    (hlp : lp.kind = .lParen) (hop : op'.kind = .pipePipe) (hrp : rp.kind = .rParen)
    (hm : m.position = S.position + 1 + as.length)
    (he : e.position = m.position + 2 + bs.length) :
    ∃ e', (binaryLevel (Grammar.forTokens (S.tokens'.length + 1)) 8).Yields S.start'
        (.joinedNegation S.position m.position (e.position - 1) a b) e' ∧
      List.Forall₂ Token.Same e.rest e'.rest ∧ e'.position = e.position + 1 := by
  -- the words of the operands
  obtain ⟨k, v, a₁, -, ha₁, hv, hav⟩ := exists_of_unary h.left_forms hl
  obtain rfl : a = a₁ := by simpa [ha₁] using ha.symm
  obtain ⟨k', v', b₁, -, hb₁, hv', hbv⟩ := exists_of_unary h.right_forms hr
  obtain rfl : b = b₁ := by simpa [hb₁] using hb.symm
  obtain ⟨opk, hopk, -⟩ := nextLevel?_eq_some (eq_of_beq h.operator)
  have hmtail := tail_position hopk
  have hlength := hv.position_eq
  have hlength' := hv'.position_eq
  simp only [List.length_cons, Site.start] at hlength hlength'
  obtain ⟨hkv, hmrest⟩ := eq_of_consumes (n₁ :: as) hv htokens (by simp; omega)
  obtain ⟨hkv', herest⟩ := eq_of_consumes (op :: n₂ :: bs) (consumes_cons.2 ⟨hopk, hv'⟩) hmrest
    (by simp; omega)
  obtain ⟨-, rfl⟩ := List.cons.inj hkv
  obtain ⟨-, hkv'⟩ := List.cons.inj hkv'
  obtain ⟨-, rfl⟩ := List.cons.inj hkv'
  rw [← map_kind_of_same has] at hav
  rw [← map_kind_of_same hbs] at hbv
  have hlas := has.length_eq
  have hlbs := hbs.length_eq
  let w : List TokenKind := as'.map (·.kind) ++ .pipePipe :: bs'.map (·.kind)
  have hw : w.length = as.length + 1 + bs.length := by simp [w, hlas, hlbs]; omega
  let e' : TokenStream := ⟨post', e.position + 1, S.textLength'⟩
  have hconsumes : S.start'.Consumes (.exclaim :: .lParen :: (w ++ [.rParen])) e' := by
    refine ⟨n₁' :: lp :: (as' ++ op' :: (bs' ++ [rp])), by simp [Site.start', htokens', e'],
      by simp [w, hn₁, hlp, hop, hrp], ?_, rfl⟩
    simp only [e', Site.start', List.length_cons, List.length_append, List.length_nil] at hw ⊢
    omega
  -- the same tokens come after both, so nothing goes on with either of them
  have hnext : e'.next? = e.next? :=
    next?_eq_of_lookAlike (.of_forall₂ (herest ▸ hpost : List.Forall₂ _ e.rest post'))
  have hsuffix : isSuffix e' = false := by
    rw [isSuffix_eq, hnext, ← isSuffix_eq]
    exact binaryLevel_stops_suffix (Grammar.isSound_forTokens M) (Grammar.followsRules_forTokens M)
      (by omega) _ r e h.right
  have hlevel : isFromLevel 3 e' = false := by
    rw [isFromLevel, nextLevel?, hnext]
    exact binaryLevel_stops (Grammar.followsRules_forTokens M) (by omega) _ r e h.right
  have hbv : Derives .unary (S.position + 1 + (as'.map (·.kind)).length + 2) (bs'.map (·.kind))
      [b] := by
    rw [hmtail, hm, hlas] at hbv
    rwa [List.length_map]
  have hjoined := derives_joined (p := S.position) hav hbv
  have hreads := unary_yields_of_nested (Grammar.readsPhrases_forTokens (S.tokens'.length + 1))
    (Nat.le_succ _) hconsumes (.value hjoined) hsuffix
  have hlast : e'.position - 1 = e.position - 1 + 1 := by
    simp only [e']
    omega
  rw [List.length_map, List.length_map, ← hlas, ← hlbs, ← hm,
    show m.position + 1 + bs.length = e.position - 1 by omega, hlast] at hreads
  exact ⟨e', binaryLevel_yields_of_unary hreads (by omega) hlevel, herest ▸ hpost, rfl⟩

end Twin

/-- Two negations joined by `&&` among the tokens of a file: the tokens of what is negated, those of
the signs and of the operator, and what comes before and after all of them. -/
structure PieceTree.NegationsAt (ts pre as bs post : List Token) (n₁ op n₂ : Token)
    (old a b : PieceTree) : Prop where
  /-- The tokens. -/
  tokens_eq : ts = pre ++ n₁ :: (as ++ op :: n₂ :: (bs ++ post))
  /-- The sign of the left negation. -/
  left : n₁.kind = .exclaim
  /-- The operator. -/
  operator : op.kind = .ampAmp
  /-- The sign of the right negation. -/
  right : n₂.kind = .exclaim
  /-- The operator joins the negations. -/
  kind_eq : old.label.kind = .binary (pre.length + 1 + as.length)
  /-- They begin with the sign of the left one. -/
  first_eq : old.label.first = pre.length
  /-- They end with what the right one negates. -/
  last_eq : old.label.last = pre.length + 1 + as.length + 1 + bs.length
  /-- What is negated. -/
  children_eq : ∃ l r, old.children = [l, r] ∧ l.label.kind = .unary pre.length ∧
    l.children = [a] ∧ r.label.kind = .unary (pre.length + 1 + as.length + 1) ∧ r.children = [b]

namespace PieceTree.NegationsAt

variable {ts pre as bs post : List Token} {n₁ op n₂ : Token} {old a b : PieceTree}

theorem getElem?_left (h : NegationsAt ts pre as bs post n₁ op n₂ old a b) :
    ts[pre.length]? = some n₁ := getElem?_behind _ _ h.tokens_eq rfl

theorem getElem?_operator (h : NegationsAt ts pre as bs post n₁ op n₂ old a b) :
    ts[pre.length + 1 + as.length]? = some op :=
  getElem?_behind (pre ++ n₁ :: as) (n₂ :: (bs ++ post)) (by simp [h.tokens_eq]) (by simp; omega)

theorem getElem?_right (h : NegationsAt ts pre as bs post n₁ op n₂ old a b) :
    ts[pre.length + 1 + as.length + 1]? = some n₂ :=
  getElem?_behind (pre ++ n₁ :: (as ++ [op])) (bs ++ post) (by simp [h.tokens_eq])
    (by simp; omega)

/-- **What is negated lies between the signs and what comes next.** -/
theorem own (h : NegationsAt ts pre as bs post n₁ op n₂ old a b) (hlaid : old.IsLaid) :
    (∀ u ∈ a.subtrees, ∀ i ∈ u.label.kind.ownTokens,
      pre.length < i ∧ i < pre.length + 1 + as.length) ∧
    ∀ u ∈ b.subtrees, ∀ i ∈ u.label.kind.ownTokens,
      pre.length + 1 + as.length + 1 < i ∧ i ≤ pre.length + 1 + as.length + 1 + bs.length := by
  obtain ⟨l, r, hchildren, hl, ha, hr, hb⟩ := h.children_eq
  have hfirst := h.first_eq
  have hlast := h.last_eq
  have hmem {x y : PieceTree} {ys : List PieceTree} (hx : x.children = ys) (hy : y ∈ ys) :
      y ∈ x.subtrees := Rose.mem_subtrees_of_mem_children (Rose.self_mem_subtrees x) (hx ▸ hy)
  -- the own tokens of all three lie beside what they join or negate
  have hown {x : PieceTree} {i : Nat} (hx : x ∈ old.subtrees) (hi : i ∈ x.label.kind.ownTokens) :=
    (hlaid x hx).own hi
  have hlmem : l ∈ old.subtrees := hmem hchildren (by simp)
  have hrmem : r ∈ old.subtrees := hmem hchildren (by simp)
  have hamem : a ∈ l.subtrees := hmem ha (by simp)
  have hbmem : b ∈ r.subtrees := hmem hb (by simp)
  have hop := hown (Rose.self_mem_subtrees old) (i := pre.length + 1 + as.length) (by
    rw [h.kind_eq]
    exact List.mem_singleton_self _)
  have hleft := hown hlmem (i := pre.length) (by rw [hl]; exact List.mem_singleton_self _)
  have hright := hown hrmem (i := pre.length + 1 + as.length + 1) (by
    rw [hr]
    exact List.mem_singleton_self _)
  rw [hchildren] at hop
  rw [ha] at hleft
  rw [hb] at hright
  have hopl := hop.2.2 l.label (by simp)
  have hopr := hop.2.2 r.label (by simp)
  have hlefta := hleft.2.2 a.label (by simp)
  have hrightb := hright.2.2 b.label (by simp)
  have hwithinl := hlaid.within hlmem
  have hwithinr := hlaid.within hrmem
  have halaid := (hlaid.of_mem hlmem).of_mem hamem
  have hblaid := (hlaid.of_mem hrmem).of_mem hbmem
  have hwithina := (hlaid.of_mem hlmem).within hamem
  have hwithinb := (hlaid.of_mem hrmem).within hbmem
  refine ⟨fun u hu i hi => ?_, fun u hu i hi => ?_⟩
  · have := halaid.within hu
    have := halaid.own hu hi
    omega
  · have := hblaid.within hu
    have := hblaid.own hu hi
    omega

end PieceTree.NegationsAt

open Twin Parse in
/-- **A file with `!(A || B)` for `!A && !B` is read with the negation of both for the two
negations.** -/
theorem PieceTree.ofTokens_joinNegations {ts pre pre' as as' bs bs' post post' : List Token}
    {n₁ n₁' op op' n₂ lp rp : Token} {length length' : Nat} {t old a b : PieceTree}
    (h : NegationsAt ts pre as bs post n₁ op n₂ old a b)
    (hpre : List.Forall₂ Token.Same pre pre') (has : List.Forall₂ Token.Same as as')
    (hbs : List.Forall₂ Token.Same bs bs') (hpost : List.Forall₂ Token.Same post post')
    (hsame : n₁.Same n₁') (hlp : lp.kind = .lParen) (hop' : op'.kind = .pipePipe)
    (hrp : rp.kind = .rParen) (ht : ofTokens ts length = .ok t) (hmem : old ∈ t.subtrees) :
    ofTokens (pre' ++ n₁' :: lp :: (as' ++ op' :: (bs' ++ rp :: post'))) length' =
      .ok (t.exchange (fun p => decide (p.kind = old.label.kind ∧ p.first = pre.length))
        (pushed pre.length 1)
        (joinedNegation pre.length (pre.length + 1 + as.length) old.label.last a b)) := by
  obtain ⟨rfl, hn₁, hop, -, hkind, hfirst, hlast, l, r, hchildren, hl, ha, hr, hb⟩ := h
  let S : Site :=
    { position := pre.length
      tokens := n₁ :: (as ++ op :: n₂ :: (bs ++ post))
      tokens' := n₁' :: lp :: (as' ++ op' :: (bs' ++ rp :: post'))
      textLength := length
      textLength' := length'
      nonempty := List.cons_ne_nil _ _
      alike := .stop _ _ hsame (by simp [hn₁, TokenKind.endsLook]) }
  have hkindAt : (S.start.kindAt (pre.length + 1 + as.length)).bind TokenKind.precedence? =
      some 2 := by
    have hindex : pre.length + 1 + as.length - pre.length = as.length + 1 := by omega
    show ((n₁ :: (as ++ op :: n₂ :: (bs ++ post)))[pre.length + 1 + as.length - pre.length]?.map
      (·.kind)).bind TokenKind.precedence? = some 2
    rw [hindex, List.getElem?_cons_succ, List.getElem?_append_right (Nat.le_refl _), Nat.sub_self,
      List.getElem?_cons_zero, Option.map_some, hop]
    rfl
  rw [hkind]
  refine ofTokens_exchange_joined (S := S) (D := S.tokens'.length + 1) hpre rfl ht hmem hkind hfirst
    (by simp [S]; omega) hchildren (by simp [hl, NodeKind.isBinary]) hkindAt
    fun n m e h hold => ?_
  rw [hold] at hkind hlast ⊢
  simp only [joinedTree, Rose.label_node, NodeKind.binary.injEq] at hkind hlast ⊢
  have hpos := h.reads.takes.lt (by simp)
  rw [← hkind]
  exact exists_joinedNegation_yields h hl ha hr hb rfl rfl has hbs hpost (hsame.1.trans hn₁) hlp
    hop' hrp hkind (by omega)

open Twin Parse in
/-- **Two operands of a file are read where they begin**, if the left one is not joined itself. -/
theorem PieceTree.exists_joinedAt_of_ofTokens {ts : List Token} {length q level : Nat}
    {t old l r : PieceTree} (ht : ofTokens ts length = .ok t) (hmem : old ∈ t.subtrees)
    (hkind : old.label.kind = .binary q) (hchildren : old.children = [l, r])
    (hl : l.label.kind.isBinary = false)
    (hlevel : (ts[q]?.map (·.kind)).bind TokenKind.precedence? = some level) :
    ∃ pre rest M m e, ts = pre ++ rest ∧
      JoinedAt M level ⟨rest, pre.length, length⟩ l r m e ∧
      old = joinedTree ⟨rest, pre.length, length⟩ l r m e := by
  obtain ⟨e₀, he₀⟩ := ofTokens_eq_ok_iff.1 ht
  have horder := ((isLaid_of_ofTokens_eq_ok ht).1 old hmem).inOrder
  simp only [Piece.layout, hkind, NodeKind.slots, hchildren, TokenRun.interleave, List.map_cons,
    List.map_nil, List.take_succ_cons, List.take_zero, List.drop_succ_cons, List.drop_zero,
    List.nil_append, List.cons_append, TokenRun.inOrder_cons, Piece.first_run, Piece.last_run,
    TokenRun.first_single, TokenRun.last_single] at horder
  obtain ⟨op, hop, -⟩ := Option.bind_eq_some_iff.1 hlevel
  obtain ⟨op, hop, -⟩ := Option.map_eq_some_iff.1 hop
  obtain ⟨hqlength, -⟩ := List.getElem?_eq_some_iff.1 hop
  -- the tokens from the first one of the node on
  obtain ⟨pre, rest, rfl, hpre⟩ : ∃ pre rest, ts = pre ++ rest ∧ pre.length = old.label.first :=
    ⟨ts.take old.label.first, ts.drop old.label.first, (List.take_append_drop _ _).symm,
      List.length_take_of_le (by omega)⟩
  have hsame (us : List Token) : List.Forall₂ Token.Same us us :=
    List.forall₂_same.2 fun _ _ => ⟨rfl, rfl⟩
  let S : Site :=
    { position := pre.length
      tokens := rest
      tokens' := rest
      textLength := length
      textLength' := length
      nonempty := by
        rintro rfl
        rw [List.append_nil] at hqlength
        omega
      alike := .of_forall₂ (hsame rest) }
  have hahead : S.IsAhead ⟨pre ++ rest, 0, length⟩ ⟨pre ++ rest, 0, length⟩ :=
    ⟨⟨pre, pre, rfl, rfl, hsame pre, Nat.zero_add _⟩, rfl, rfl, rfl⟩
  rw [List.getElem?_append_right (by omega)] at hlevel
  obtain ⟨M, m, e, h⟩ := exists_joinedAt hahead he₀ hmem hkind hpre.symm
    (show pre.length < q by omega) hchildren hl hlevel
  exact ⟨pre, rest, M, m, e, rfl, h⟩

open Twin Parse in
/-- **Two negations of a file consist of the signs, the operator and what is negated**, without
other tokens between them.  What is negated ends with no operator. -/
theorem PieceTree.exists_negationsAt {ts : List Token} {length q o o' : Nat}
    {t old l r : PieceTree} (ht : ofTokens ts length = .ok t) (hmem : old ∈ t.subtrees)
    (hkind : old.label.kind = .binary q) (hchildren : old.children = [l, r])
    (hop : ts[q]?.map (·.kind) = some .ampAmp)
    (hl : l.label.kind = .unary o) (ho : ts[o]?.map (·.kind) = some .exclaim)
    (hr : r.label.kind = .unary o') (ho' : ts[o']?.map (·.kind) = some .exclaim) :
    ∃ pre n₁ as op n₂ bs post a b, NegationsAt ts pre as bs post n₁ op n₂ old a b ∧
      o = pre.length ∧ q = pre.length + 1 + as.length ∧ o' = q + 1 ∧
      (∀ t ∈ as.getLast?, t.kind.precedence? = none) ∧ bs ≠ [] := by
  have hlevel : (ts[q]?.map (·.kind)).bind TokenKind.precedence? = some 2 := by
    rw [hop]
    rfl
  obtain ⟨pre, rest, M, m, e, rfl, h, rfl⟩ := exists_joinedAt_of_ofTokens ht hmem hkind hchildren
    (by simp [hl, NodeKind.isBinary]) hlevel
  -- the tokens of what is joined
  obtain ⟨k, v, a, rfl, ha, ⟨us, hus, husk, hmposition, -⟩, hav⟩ := exists_of_unary h.left_forms hl
  obtain ⟨k', v', b, rfl, hb, ⟨vs, hvs, hvsk, heposition, -⟩, hbv⟩ :=
    exists_of_unary h.right_forms hr
  obtain ⟨n₁, as, rfl, rfl, rfl⟩ := List.map_eq_cons_iff.1 husk
  obtain ⟨n₂, bs, rfl, rfl, rfl⟩ := List.map_eq_cons_iff.1 hvsk
  obtain ⟨opk, hopk, -⟩ := nextLevel?_eq_some (eq_of_beq h.operator)
  obtain ⟨op, hmrest⟩ : ∃ op, m.rest = op :: m.tail.rest := by
    cases hm : m.rest with
    | nil => exact absurd hm (rest_ne_nil_of_next?_eq_some hopk)
    | cons op r => exact ⟨op, by simp [TokenStream.tail, hm]⟩
  obtain rfl : m.position = q := NodeKind.binary.inj hkind
  obtain rfl : rest = n₁ :: (as ++ op :: n₂ :: (bs ++ e.rest)) := by
    rw [hmrest, hvs] at hus
    exact hus
  rw [tail_position hopk] at heposition ho' hr
  simp only [List.length_cons, List.length_map] at hmposition heposition
  have hm : m.position = pre.length + 1 + as.length := by omega
  have hkindAt {us : List Token} {x : Token} {i : Nat} {k : TokenKind}
      (hx : us[i]? = some x) (hk : us[i]?.map (·.kind) = some k) : x.kind = k := by
    rw [hx] at hk
    exact Option.some.inj hk
  refine ⟨pre, n₁, as, op, n₂, bs, e.rest, a, b,
    { tokens_eq := rfl
      left := hkindAt (getElem?_behind _ _ rfl rfl) ho
      operator := hkindAt (getElem?_behind (pre ++ n₁ :: as) (n₂ :: (bs ++ e.rest)) (by simp)
        (by simp; omega)) hop
      right := hkindAt (getElem?_behind (pre ++ n₁ :: (as ++ [op])) (bs ++ e.rest) (by simp)
        (by simp; omega)) ho'
      kind_eq := congrArg NodeKind.binary hm
      first_eq := rfl
      last_eq := ?_
      children_eq := ⟨l, r, hchildren, hl, ha, hm ▸ hr, hb⟩ }, rfl, hm, tail_position hopk, ?_, ?_⟩
  · show e.position - 1 = _
    omega
  · intro t ht
    refine hav.getLast?_precedence? t.kind ?_
    rw [List.getLast?_map, ht]
    rfl
  · rintro rfl
    obtain ⟨_, _, hnil, -⟩ := hbv.exists_head_eq (by simp) (by simp)
    cases hnil

end Mend
