import Mend.Proofs.ExchangedNode
import Mend.Proofs.OperandChains
import Mend.Proofs.OwnTokens
import Mend.Proofs.PrecedenceClimbing

/-!
# One operand for two

When the tokens of two operands with an operator between them are exchanged for those of one operand
that binds tighter, the file is read with that operand in place of the two.

The operands are read where the left one begins, as the first ones that are joined there: in the
tree of a file the node of both is a part of what was read at that place.  What is joined to them
further on is joined to the other operand as well.

## Main definitions

* `Phrase.IsFront` — the trees of the first tokens of a word.
* `Parse.JoinedAt` — two operands that are read with an operator of some level between them.
* `Twin.Replacement.ofJoined` — another expression for two operands.

## Main results

* `Phrase.Derives.isFront` — a part that begins where a phrase does belongs to its first tokens.
* `Parse.exists_joinedAt` — two operands of a file were read where the left one begins.
* `PieceTree.ofTokens_exchange_joined` — **a file with one operand for two is read with one tree for
  the other.**
-/

namespace Mend

open Phrase TokenStream

/-! ### Parts at the front of a phrase -/

namespace Phrase

variable {c : Category} {i : Nat} {w : List TokenKind} {t u : PieceTree} {es : List PieceTree}

/-- A tree is a phrase of the first tokens of a word. -/
def IsFront (i : Nat) (w : List TokenKind) (u : PieceTree) : Prop :=
  ∃ c v v', w = v ++ v' ∧ c ≠ .arguments ∧ c ≠ .furtherArguments ∧ Derives c i v [u]

theorem IsFront.append {v : List TokenKind} (h : IsFront i w u) : IsFront i (w ++ v) u := by
  obtain ⟨c, w, w', rfl, hc, hc', hu⟩ := h
  exact ⟨c, w, w' ++ v, by simp, hc, hc', hu⟩

/-- A part of a node that begins where the node does is the node, or it is a part of its first
child. -/
theorem IsFront.of_node {kind : NodeKind} {cs : List PieceTree}
    (h : Derives c i w [.spanning kind i w cs]) (hc : c ≠ .arguments) (hc' : c ≠ .furtherArguments)
    (hes : [PieceTree.spanning kind i w cs] = [t]) (hlaid : t.IsLaid) (hu : u ∈ t.subtrees)
    (hfirst : u.label.first = i)
    (hfront : ∀ e cs', cs = e :: cs' → e.IsLaid → u ∈ e.subtrees → e.label.first = i →
      IsFront i w u) : IsFront i w u := by
  obtain rfl := (List.cons.inj hes).1
  rcases hlaid.eq_or_mem_front hu hfirst with rfl | ⟨e, cs', rfl, hu, he⟩
  · exact ⟨c, w, [], by simp, hc, hc', h⟩
  · exact hfront e cs' rfl ((Rose.all_node.1 hlaid).2 e List.mem_cons_self) hu he

/-- So it is when the first child is a phrase of the first tokens. -/
theorem IsFront.of_first {kind : NodeKind} {v : List TokenKind} {e : PieceTree}
    {cs : List PieceTree} (h : Derives c i (w ++ v) [.spanning kind i (w ++ v) (e :: cs)])
    (hc : c ≠ .arguments) (hc' : c ≠ .furtherArguments)
    (hes : [PieceTree.spanning kind i (w ++ v) (e :: cs)] = [t]) (hlaid : t.IsLaid)
    (hu : u ∈ t.subtrees) (hfirst : u.label.first = i)
    (hfront : e.IsLaid → u ∈ e.subtrees → IsFront i w u) : IsFront i (w ++ v) u := by
  refine .of_node h hc hc' hes hlaid hu hfirst fun e' cs' he hlaid hu _ => ?_
  obtain ⟨rfl, -⟩ := List.cons.inj he
  exact (hfront hlaid hu).append

/-- When the first child begins later, or there is none, only the node begins where it does. -/
theorem IsFront.of_later {kind : NodeKind} {cs : List PieceTree}
    (h : Derives c i w [.spanning kind i w cs]) (hc : c ≠ .arguments) (hc' : c ≠ .furtherArguments)
    (hes : [PieceTree.spanning kind i w cs] = [t]) (hlaid : t.IsLaid) (hu : u ∈ t.subtrees)
    (hfirst : u.label.first = i) (hlater : ∀ e ∈ cs, i < e.label.first) : IsFront i w u := by
  refine .of_node h hc hc' hes hlaid hu hfirst fun e cs' he _ _ hbegin => ?_
  have := hlater e (by simp [he])
  omega

theorem Name.isFront (h : Name i w t) (hc : Derives c i w [t]) (hne : c ≠ .arguments)
    (hne' : c ≠ .furtherArguments) (hlaid : t.IsLaid) (hu : u ∈ t.subtrees)
    (hfirst : u.label.first = i) : IsFront i w u := by
  cases h with
  | bare name => cases name <;> exact .of_later hc hne hne' rfl hlaid hu hfirst (by simp)
  | qualified hqs qualifiers name =>
    refine .of_later hc hne hne' rfl hlaid hu hfirst fun e' he => ?_
    rw [List.mem_singleton.1 he, name.first_eq]
    cases qualifiers with
    | nil => exact absurd rfl hqs
    | cons => simp only [List.length_cons]; omega
  | global qualifiers name =>
    refine .of_later hc hne hne' rfl hlaid hu hfirst fun e' he => ?_
    rw [List.mem_singleton.1 he, name.first_eq]
    omega

/-- **A part of a phrase that begins where the phrase does is a phrase of its first tokens.** -/
theorem Derives.isFront (h : Derives c i w es) (hc : c ≠ .arguments) (hc' : c ≠ .furtherArguments)
    (hes : es = [t]) (hlaid : t.IsLaid) (hu : u ∈ t.subtrees) (hfirst : u.label.first = i) :
    IsFront i w u := by
  induction h generalizing t with
  | value _ ih | operand _ ih | tighter _ _ ih | bare _ ih | alone _ ih =>
    exact ih (by simp) (by simp) hes hlaid hu hfirst
  | conditional h hl hr ih =>
    exact .of_first (.conditional h hl hr) hc hc' hes hlaid hu hfirst fun hlaid hu =>
      ih (by simp) (by simp) rfl hlaid hu hfirst
  | assign hop h hr ih =>
    exact .of_first (.assign hop h hr) hc hc' hes hlaid hu hfirst fun hlaid hu =>
      ih (by simp) (by simp) rfl hlaid hu hfirst
  | join hop h hr ih =>
    exact .of_first (.join hop h hr) hc hc' hes hlaid hu hfirst fun hlaid hu =>
      ih (by simp) (by simp) rfl hlaid hu hfirst
  | call h hr ih =>
    exact .of_first (.call h hr) hc hc' hes hlaid hu hfirst fun hlaid hu =>
      ih (by simp) (by simp) rfl hlaid hu hfirst
  | item h hr ih =>
    exact .of_first (.item h hr) hc hc' hes hlaid hu hfirst fun hlaid hu =>
      ih (by simp) (by simp) rfl hlaid hu hfirst
  | member hop h hr ih =>
    exact .of_first (.member hop h hr) hc hc' hes hlaid hu hfirst fun hlaid hu =>
      ih (by simp) (by simp) rfl hlaid hu hfirst
  | step hop h ih =>
    exact .of_first (.step hop h) hc hc' hes hlaid hu hfirst fun hlaid hu =>
      ih (by simp) (by simp) rfl hlaid hu hfirst
  | unary hop h =>
    exact .of_later (.unary hop h) hc hc' hes hlaid hu hfirst (by simp [h.first_eq])
  | nested h => exact .of_later (.nested h) hc hc' hes hlaid hu hfirst (by simp [h.first_eq])
  | number i hk => exact .of_later (.number i hk) hc hc' hes hlaid hu hfirst (by simp)
  | string i => exact .of_later (.string i) hc hc' hes hlaid hu hfirst (by simp)
  | signedString i => exact .of_later (.signedString i) hc hc' hes hlaid hu hfirst (by simp)
  | bool i hk => exact .of_later (.bool i hk) hc hc' hes hlaid hu hfirst (by simp)
  | this i => exact .of_later (.this i) hc hc' hes hlaid hu hfirst (by simp)
  | name hhead hname =>
    obtain rfl := (List.cons.inj hes).1
    exact hname.isFront (.name hhead hname) hc hc' hlaid hu hfirst
  | noArguments | someArguments => exact absurd rfl hc
  | noMore | more => exact absurd rfl hc'

/-- What is joined by no operator is an operand. -/
theorem Derives.unary_of_isBinary_eq_false {p : Nat} (h : Derives c i w es) (hc : c = .binary p)
    (hes : es = [t]) (ht : t.label.kind.isBinary = false) : Derives .unary i w [t] := by
  induction h generalizing p with
  | operand h => exact hes ▸ h
  | tighter _ _ ih => exact ih rfl hes
  | join =>
    obtain rfl := (List.cons.inj hes).1
    cases ht
  | _ => cases hc

end Phrase

/-! ### Reading two operands -/

namespace Parse

open Twin

variable {n m k level : Nat} {s e e' : TokenStream} {t t' : PieceTree}

/-- More rounds read the same. -/
theorem binaryLevel_yields_of_le (hk : k ≤ 10) (h : n ≤ m)
    (ht : (binaryLevel (Grammar.forTokens n) k).Yields s t e) :
    (binaryLevel (Grammar.forTokens m) k).Yields s t e := by
  obtain ⟨d, rfl⟩ := Nat.exists_eq_add_of_le h
  refine yields_of_matches (fun r j => ?_) ht
  have hσ := couples_of_swap_eq_none (σ := .within r j) rfl n d
  exact Matches.binaryLevel hσ.toPairs k hk (fun level _ => hσ.joinsAt level) []

/-- In any number of rounds the same operands are read. -/
theorem binaryLevel_unique (hk : k ≤ 10)
    (h : (binaryLevel (Grammar.forTokens n) k).Yields s t e)
    (h' : (binaryLevel (Grammar.forTokens m) k).Yields s t' e') : t = t' ∧ e = e' :=
  (binaryLevel_yields_of_le hk (Nat.le_max_left n m) h).unique
    (binaryLevel_yields_of_le hk (Nat.le_max_right n m) h')

/-- Two operands are read, in some number of rounds, with an operator of a level between them. -/
structure JoinedAt (n level : Nat) (s : TokenStream) (l r : PieceTree) (m e : TokenStream) :
    Prop where
  /-- There is such a level. -/
  level_le : level ≤ 10
  /-- The left operand. -/
  left : (binaryLevel (Grammar.forTokens n) (10 - level)).Yields s l m
  /-- The operator. -/
  operator : isAtLevel level m = true
  /-- The right operand. -/
  right : (binaryLevel (Grammar.forTokens n) (10 - level)).Yields m.tail r e

/-- Two operands with the operator between them. -/
def joinedTree (s : TokenStream) (l r : PieceTree) (m e : TokenStream) : PieceTree :=
  .node ⟨.binary m.position, s.position, e.position - 1⟩ [l, r]

namespace JoinedAt

variable {m : TokenStream} {l r : PieceTree} {Q : PieceTree → TokenStream → Prop}

theorem left_forms (h : JoinedAt n level s l r m e) :
    s.Forms (Derives (.binary (level + 1))) [l] m := by
  have hforms :=
    binaryLevel_forms (Grammar.followsRules_forTokens n) (Nat.sub_le 10 level) s l m h.left
  rwa [show 11 - (10 - level) = level + 1 by have := h.level_le; omega] at hforms

theorem right_forms (h : JoinedAt n level s l r m e) :
    m.tail.Forms (Derives (.binary (level + 1))) [r] e := by
  have hforms :=
    binaryLevel_forms (Grammar.followsRules_forTokens n) (Nat.sub_le 10 level) m.tail r e h.right
  rwa [show 11 - (10 - level) = level + 1 by have := h.level_le; omega] at hforms

/-- Both operands are taken. -/
theorem reads (h : JoinedAt n level s l r m e) : s.Reads (joinedTree s l r m e) e := by
  have hsound := Grammar.isSound_forTokens n
  have hl := binaryLevel_ensures hsound _ s l m h.left
  have hr := binaryLevel_ensures hsound _ m.tail r e h.right
  obtain ⟨op, hop, -⟩ := nextLevel?_eq_some (eq_of_beq h.operator)
  have htakes := (hl.takes.append (takes_tail (rest_ne_nil_of_next?_eq_some hop))).append hr.takes
  have hclose : (close (.binary m.position) l.label.first [l, r]).Ensures e s.Reads := by
    refine close_ensures rfl ?_ (htakes.lt (by simp)) hl.first_eq (by simp [hl.isLaid, hr.isLaid])
    simpa [NodeKind.slots, TokenRun.interleave] using htakes
  have hlater : s.position ≤ e.position - 1 := by
    have := htakes.lt (by simp)
    omega
  have hreads := hclose _ _ rfl
  rwa [hl.first_eq, Nat.max_eq_right hlater] at hreads

/-- In any number of rounds the same right operand is read. -/
theorem right_unique {n' : Nat} {r' : PieceTree} {e e' : TokenStream}
    (h : JoinedAt n level s l r m e) (h' : JoinedAt n' level s l r' m e') : r' = r ∧ e' = e :=
  binaryLevel_unique (Nat.sub_le 10 level) h'.right h.right

end JoinedAt

section

variable {l : PieceTree} {m : TokenStream}

/-- An operator and an operand after another one make a node of both. -/
theorem joinRight_ensures_joinedTree (hle : level ≤ 10)
    (hl : (binaryLevel (Grammar.forTokens n) (10 - level)).Yields s l m)
    (hop : isAtLevel level m = true) :
    (joinRight (binaryLevel (Grammar.forTokens n) (10 - level)) l).Ensures m fun y e =>
      ∃ r, JoinedAt n level s l r m e ∧ y = joinedTree s l r m e := by
  have hright : (binaryLevel (Grammar.forTokens n) (10 - level)).Ensures m.tail fun r e =>
      JoinedAt n level s l r m e := fun r e hr => ⟨hle, hl, hop, hr⟩
  refine (advance_yields m).bind_ensures <| hright.bind fun r e h => ?_
  obtain ⟨v, hv, hleft⟩ := h.left_forms
  obtain ⟨v', hv', -⟩ := h.right_forms
  obtain ⟨op, hop, -⟩ := nextLevel?_eq_some (eq_of_beq hop)
  have hlater : s.position ≤ e.position - 1 := by
    rw [hv'.position_eq, tail_position hop, hv.position_eq]
    omega
  rintro z s₃ hz
  cases hz
  refine ⟨r, h, ?_⟩
  rw [joinedTree, hleft.first_eq (by simp), Nat.max_eq_right hlater]

/-- **Where an operand is read and an operator comes next, both are joined to another operand
first**, in any number of rounds. -/
theorem binaryLevel_ensures_joinedTree {Q : PieceTree → TokenStream → Prop} (hle : level ≤ 10)
    (hl : (binaryLevel (Grammar.forTokens n) (10 - level)).Yields s l m)
    (hop : isAtLevel level m = true) (n' : Nat)
    (hQ : ∀ r e, JoinedAt n' level s l r m e → (repeatWhile (fun _ => isAtLevel level)
      (joinRight (binaryLevel (Grammar.forTokens n') (10 - level)))
        (joinedTree s l r m e)).Ensures e Q) :
    (binaryLevel (Grammar.forTokens n') (11 - level)).Ensures s Q := by
  have hk := Nat.sub_le 10 level
  have hrules := Grammar.followsRules_forTokens n'
  have hleft : (binaryLevel (Grammar.forTokens n') (10 - level)).Ensures s fun x s₁ =>
      (binaryLevel (Grammar.forTokens n') (10 - level)).Yields s l m ∧ x = l ∧ s₁ = m := by
    intro x s₁ hx
    obtain ⟨rfl, rfl⟩ := binaryLevel_unique hk hx hl
    exact ⟨hx, rfl, rfl⟩
  rw [binaryLevel_eq_joined hle, joined_eq]
  refine hleft.bind fun x s₁ hx => ?_
  obtain ⟨hx, rfl, rfl⟩ := hx
  refine Ensures.congr_run ?_ ((advances_joinRight hrules hk level).repeatWhile_run_of_more hop)
  refine (joinRight_ensures_joinedTree hle hx hop).bind fun y e hy => ?_
  obtain ⟨r, h, rfl⟩ := hy
  exact hQ r e h

end

end Parse

namespace Twin

open Parse Movable

variable {S : Site} {old new l r : PieceTree} {longer D level q : Nat}

/-- Another expression for operands that are joined. -/
def Replacement.ofJoined (S : Site) (old new : PieceTree) (longer level q : Nat)
    (hold : old.label.first = S.position) (hnew : new.label.first = S.position)
    (hq : S.position < q ∧ q ≤ old.label.last)
    (hlevel : (S.start.kindAt q).bind TokenKind.precedence? = some level) : Replacement S where
  isOld p := decide (p.kind = .binary q ∧ p.first = S.position)
  old := old
  new := new
  level? := some level
  isExchangeable {p} hp := by
    rw [NodeKind.isExchangeable, (of_decide_eq_true hp).1]
    rfl
  longer := longer
  first_old := hold
  first_new := hnew
  lt_last := Nat.lt_of_lt_of_le hq.1 hq.2
  operator {i first last} hp := by
    obtain ⟨hkind, hfirst⟩ := of_decide_eq_true hp
    obtain rfl := NodeKind.binary.inj hkind
    exact ⟨hfirst, hq.1, hq.2, hlevel, rfl⟩

variable {hold : old.label.first = S.position} {hnew : new.label.first = S.position}
  {hq : S.position < q ∧ q ≤ old.label.last}
  {hlevel : (S.start.kindAt q).bind TokenKind.precedence? = some level}

/-- Everything is matched when the parser of the operands that are joined is, at the place where
they begin. -/
theorem couples_ofJoined
    (hjoins : ∀ n,
      (exchanged S (.ofJoined S old new longer level q hold hnew hq hlevel)).Pairs
        (Grammar.forTokens n) (Grammar.forTokens (n + D)) → ∀ ts,
      (exchanged S (.ofJoined S old new longer level q hold hnew hq hlevel)).MatchesAt .before
        S.start S.start' ts (binaryLevel (Grammar.forTokens n) (11 - level))
        (binaryLevel (Grammar.forTokens (n + D)) (11 - level))) (n : Nat) :
    (exchanged S (.ofJoined S old new longer level q hold hnew hq hlevel)).Couples
      (Grammar.forTokens n) (Grammar.forTokens (n + D)) := by
  refine couples_forTokens (fun n hσ ts ph s s' => ?_) (fun n hσ level' r hr hlevel' => ?_) n
  · rw [Nat.add_right_comm]
    refine MatchesAt.statement hσ fun _ p hp => ?_
    rintro ⟨r, hr, hk⟩
    cases hr
    rw [(of_decide_eq_true hk).1] at hp
    cases hp
  · cases hr
    obtain rfl := Option.some.inj hlevel'
    intro ts ph s s' hposition hat
    obtain ⟨rfl, rfl, rfl⟩ := eq_before_of_at hat (hposition.trans hold)
    exact hjoins n hσ ts hat

/-- **Operands that are joined in a file are a part of what was read where they begin.** -/
theorem exists_binaryLevel_yields {n : Nat} {s s' e : TokenStream} {t : PieceTree}
    (hs : S.IsAhead s s') (ht : (Parse.file (Grammar.forTokens n)).Yields s t e)
    (hmem : old ∈ t.subtrees) (hkind : old.label.kind = .binary q)
    (hfirst : old.label.first = S.position) (hlt : S.position < q) (hchildren : old.children ≠ [])
    (hlevel : (S.start.kindAt q).bind TokenKind.precedence? = some level) :
    ∃ m x e, (binaryLevel (Grammar.forTokens m) (11 - level)).Yields S.start x e ∧
      old ∈ x.subtrees := by
  by_contra hnone
  obtain ⟨op, -, hop⟩ := Option.bind_eq_some_iff.1 hlevel
  have hbounds := TokenKind.precedence?_bounds hop
  have hk : 11 - level ≤ 10 := by omega
  let isOld (p : Piece) : Prop := p.kind = .binary q ∧ p.first = S.position
  -- if there is another node in what is read there, that one is in the tree of the file
  obtain ⟨N, hne, hN, hlast, hunique⟩ : ∃ N, N ≠ old ∧ isOld N.label ∧ q ≤ N.label.last ∧
      ∀ m x e, (binaryLevel (Grammar.forTokens m) (11 - level)).Yields S.start x e →
        ∀ u ∈ x.subtrees, isOld u.label → u = N := by
    by_cases hsome : ∃ m x e, (binaryLevel (Grammar.forTokens m) (11 - level)).Yields S.start x e ∧
        ∃ u ∈ x.subtrees, isOld u.label
    · obtain ⟨m, x, e, hx, N, hNx, hN⟩ := hsome
      have hlaid := (binaryLevel_ensures (Grammar.isSound_forTokens m) _ _ x e hx).isLaid
      have hown {u : PieceTree} (hu : isOld u.label) : q ∈ u.label.kind.ownTokens := by
        rw [hu.1]
        exact List.mem_singleton_self q
      refine ⟨N, ?_, hN, (hlaid.own hNx (hown hN)).2, fun m' y e' hy u hu hisOld => ?_⟩
      · rintro rfl
        exact hnone ⟨m, x, e, hx, hNx⟩
      · obtain ⟨rfl, -⟩ := binaryLevel_unique hk hx hy
        exact hlaid.eq_of_own hu hNx (hown hisOld) (hown hN)
    · refine ⟨.node ⟨.binary q, S.position, q⟩ [], ?_, ⟨rfl, rfl⟩, Nat.le_refl _,
        fun m x e hx u hu hisOld => absurd ⟨m, x, e, hx, u, hu, hisOld⟩ hsome⟩
      rintro rfl
      exact hchildren rfl
  have hcouples (m : Nat) :
      (exchanged S.self (.ofJoined S.self N N 0 level q hN.2 hN.2 ⟨hlt, hlast⟩ hlevel)).Couples
        (Grammar.forTokens m) (Grammar.forTokens (m + 0)) := by
    refine couples_ofJoined (fun m hσ ts hat hfits x e hx => ?_) m
    have hreads := binaryLevel_ensures (Grammar.isSound_forTokens m) _ _ x e hx
    obtain ⟨w, hw, -⟩ := binaryLevel_forms (Grammar.followsRules_forTokens m) hk _ x e hx
    have hunique := hunique m x e hx
    by_cases hin : N ∈ x.subtrees
    · -- the node was read as a whole, and it stands for itself
      have hbehind : N.label.last < e.position := by
        have := (hreads.isLaid.within hin).2.2
        have := hreads.last_eq
        omega
      have hfits' : (exchanged S.self (.ofJoined S.self N N 0 level q hN.2 hN.2 ⟨hlt, hlast⟩
          hlevel)).Fits .after [x] := by
        intro t ht u hu r hr hk
        cases hr
        obtain rfl := List.mem_singleton.1 ht
        exact ⟨rfl, hunique u hu (of_decide_eq_true hk)⟩
      refine ⟨.after, e, ⟨List.forall₂_same.2 fun _ _ => ⟨rfl, rfl⟩, hbehind, rfl⟩,
        (hfits.mono (by simp) (List.Subset.refl _)).append hfits', by simp, by simp, fun _ => ?_⟩
      rw [carry_tree, rewrite_of_self rfl rfl (pushed_zero _) hfits']
      exact hx
    · -- the node is not read here, so it does not matter what follows
      refine ⟨.lost, e, ⟨hreads.takes.lt (by simp), hw.isTail⟩,
        (hfits.mono (by simp) (List.Subset.refl _)).append ?_, by simp, by simp, absurd rfl⟩
      intro t ht u hu r hr hk
      cases hr
      obtain rfl := List.mem_singleton.1 ht
      exact absurd (hunique u hu (of_decide_eq_true hk) ▸ hu) hin
  exact hne (mem_subtrees_of_self hs hcouples ht hmem (decide_eq_true ⟨hkind, hfirst⟩)).symm

/-- **Two operands of a file were read where the left one begins**, unless something is joined in
the left one. -/
theorem exists_joinedAt {n : Nat} {s s' e : TokenStream} {t : PieceTree} (hs : S.IsAhead s s')
    (ht : (Parse.file (Grammar.forTokens n)).Yields s t e) (hmem : old ∈ t.subtrees)
    (hkind : old.label.kind = .binary q) (hfirst : old.label.first = S.position)
    (hlt : S.position < q) (hchildren : old.children = [l, r])
    (hl : l.label.kind.isBinary = false)
    (hlevel : (S.start.kindAt q).bind TokenKind.precedence? = some level) :
    ∃ M m e, JoinedAt M level S.start l r m e ∧ old = joinedTree S.start l r m e := by
  obtain ⟨op, hop, hoplevel⟩ := Option.bind_eq_some_iff.1 hlevel
  have hbounds := TokenKind.precedence?_bounds hoplevel
  have hk : 11 - level ≤ 10 := by omega
  obtain ⟨m₀, x, e₀, hx, hmemx⟩ := exists_binaryLevel_yields hs ht hmem hkind hfirst hlt
    (by simp [hchildren]) hlevel
  -- the words of the operands
  have hlaid := (binaryLevel_ensures (Grammar.isSound_forTokens m₀) _ _ x e₀ hx).isLaid
  obtain ⟨w, hw, hxw⟩ := binaryLevel_forms (Grammar.followsRules_forTokens m₀) hk _ x e₀ hx
  obtain ⟨c, v, v', rfl, hc, hc', hold⟩ := hxw.isFront (by simp) (by simp) rfl hlaid hmemx hfirst
  obtain ⟨v₁, v₂, rfl, rfl, hleft, hright⟩ :=
    hold.binary_inv hc hc' hw.foundAt.left hkind hchildren hop hoplevel
  obtain ⟨m₂, hm₂, -⟩ := consumes_append.1 hw
  obtain ⟨m, hm, hopw⟩ := consumes_append.1 hm₂
  obtain ⟨hopnext, -⟩ := consumes_cons.1 hopw
  -- the left one is read as a whole, since the operator does not go on with it
  let M := max m₀ (S.start.rest.length + 1)
  have hphrases := Grammar.readsPhrases_forTokens (S.start.rest.length + 1)
  have hstop : m.next?.any (TokenKind.continuesLevel (level + 1)) = false := by
    rw [hopnext, Option.any_some, TokenKind.continuesLevel_of_precedence? hoplevel]
    simp
  have hoperand : Derives (.binary (level + 1)) S.start.position v₁ [l] :=
    (Derives.operand (hleft.unary_of_isBinary_eq_false rfl rfl hl)).looser (by omega)
  have hreadsl := (binary_reads hphrases hoperand rfl rfl rfl (Nat.le_succ _) hm).yields
    (by omega) hstop
  rw [Nat.add_sub_add_right 10 1] at hreadsl
  have hM : (binaryLevel (Grammar.forTokens M) (10 - level)).Yields S.start l m :=
    binaryLevel_yields_of_le (by omega) (Nat.le_max_right _ _) hreadsl
  have hop' : isAtLevel level m = true := by
    rw [isAtLevel, nextLevel?, hopnext, Option.bind_some, hoplevel]
    exact beq_self_eq_true _
  -- what is joined to it first makes the node
  have hjoined : (binaryLevel (Grammar.forTokens M) (11 - level)).Ensures S.start fun x _ =>
      ∃ r e, JoinedAt M level S.start l r m e ∧ joinedTree S.start l r m e ∈ x.subtrees := by
    refine binaryLevel_ensures_joinedTree (by omega) hM hop' M fun r e h => ?_
    refine ((advances_joinRight (Grammar.followsRules_forTokens M) (Nat.sub_le 10 level)
      level).repeatWhile_ensures (I := fun y _ => joinedTree S.start l r m e ∈ y.subtrees)
      (fun y s₁ hy _ => ?_) (Rose.self_mem_subtrees _)).imp fun y s₁ hy => ⟨r, e, h, hy.1⟩
    -- the node stays a part of the left operand
    refine (advance_yields s₁).bind_ensures <| Ensures.bind (Q := fun _ _ => True)
      (fun _ _ _ => trivial) fun right s₂ _ => ?_
    rintro z s₃ hz
    cases hz
    exact Rose.mem_subtrees_node.2 (.inl ⟨y, List.mem_cons_self, hy⟩)
  obtain ⟨r', e, h, hin⟩ := hjoined x e₀ (binaryLevel_yields_of_le hk (Nat.le_max_left _ _) hx)
  have hsame : old = joinedTree S.start l r' m e := by
    refine hlaid.eq_of_own hmemx hin (i := m.position) ?_ (List.mem_singleton_self _)
    rw [hkind, hm.position_eq]
    exact List.mem_singleton_self _
  obtain ⟨-, rfl⟩ : l = l ∧ r' = r := by simpa [hsame, joinedTree] using hchildren
  exact ⟨M, m, e, h, hsame⟩

/-- Behind the node the same operands are joined to what was read. -/
theorem joinAfter {R : Replacement S} {g g' : Grammar} {s s' : TokenStream} {ts : List PieceTree}
    {x : PieceTree} (hσ : (exchanged S R).Pairs g g') (hle : level ≤ 10)
    (hlevel : R.level? = some level) (hx : x ∈ ts) :
    (exchanged S R).MatchesAt .after s s' ts
      (repeatWhile (fun _ => isAtLevel level) (joinRight (binaryLevel g (10 - level))) x)
      (repeatWhile (fun _ => isAtLevel level) (joinRight (binaryLevel g' (10 - level)))
        ((exchanged S R).carry x)) := by
  have hoperand (us : List PieceTree) : (exchanged S R).Matches us (binaryLevel g (10 - level))
      (binaryLevel g' (10 - level)) := by
    -- nothing is exchanged at a tighter level
    refine Matches.binaryLevel hσ _ (Nat.sub_le 10 level) (fun level' hlevel' r hr hr' => ?_) us
    cases hr
    obtain rfl := Option.some.inj (hlevel.symm.trans hr')
    omega
  have hrounds : Matches.Rounds (exchanged S R) ts True (fun y => y.label.first = x.label.first)
      (fun _ s => s.next?.bind TokenKind.precedence? == some (10 - (10 - level)))
      (joinRight (binaryLevel g (10 - level))) (joinRight (binaryLevel g' (10 - level))) := by
    refine Matches.joins hσ hoperand fun hph hat _ last => ?_
    obtain rfl := hph trivial
    rintro ⟨r, hr, hold⟩
    cases hr
    have hbounds := (R.operator hold).2
    have hbehind := hat.2.1
    omega
  rw [Nat.sub_sub_self hle] at hrounds
  intro hat hfits
  refine .get_bind <| (Matches.rounds_matches hrounds _ (List.Subset.refl ts) (x := x) (by simpa)
    rfl (Nat.le_refl _) (fun _ => rfl) hat hfits).imp fun y s₁ hy => ?_
  obtain ⟨ph₁, s₁', hat₁, hfits₁, hafter, hlost, hyields⟩ := hy
  exact ⟨ph₁, s₁', hat₁, hfits₁, hafter, hlost, fun hph =>
    .get_bind (hyields hph _ (Nat.le_refl _))⟩

/-- When two operands are read at the place, and a tighter one is read there in the second run, the
parsers match each other. -/
theorem couples_of_joinedAt {M : Nat} {m e e' : TokenStream} {hold hnew hq hlevel}
    (h : JoinedAt M level S.start l r m e)
    (hread : (binaryLevel (Grammar.forTokens D) (10 - level)).Yields S.start' new e')
    (hrest : List.Forall₂ Token.Same e.rest e'.rest) (hshift : e'.position = e.position + longer)
    (n : Nat) :
    (exchanged S (.ofJoined S (joinedTree S.start l r m e) new longer level m.position hold hnew hq
      hlevel)).Couples (Grammar.forTokens n) (Grammar.forTokens (n + D)) := by
  refine couples_ofJoined (fun n hσ ts hat hfits => ?_) n
  refine binaryLevel_ensures_joinedTree h.level_le h.left h.operator n fun r' e₁ h' => ?_
  obtain ⟨rfl, rfl⟩ := h.right_unique h'
  have hswap : (Replacement.ofJoined S (joinedTree S.start l r' m e₁) new longer level m.position
      hold hnew hq hlevel).isOld (joinedTree S.start l r' m e₁).label = true :=
    decide_eq_true ⟨rfl, rfl⟩
  have hbehind : (joinedTree S.start l r' m e₁).label.last < e₁.position := by
    have hle := hq.2
    simp only [joinedTree, Rose.label_node] at hle ⊢
    omega
  have hcarry := rewrite_of_isSwapped (σ := exchanged S (.ofJoined S _ new longer level m.position
    hold hnew hq hlevel)) rfl hswap
  refine (joinAfter hσ h.level_le rfl (List.mem_append_right ts (List.mem_singleton_self _))
    ⟨hrest, hbehind, hshift⟩ ?_).imp fun x s₁ hx => ?_
  · refine (hfits.mono (by simp) (List.Subset.refl _)).append ?_
    intro t ht u hu r hr hk
    cases hr
    obtain rfl := List.mem_singleton.1 ht
    refine ⟨rfl, h.reads.isLaid.eq_of_own hu (Rose.self_mem_subtrees _) (i := m.position) ?_ ?_⟩
    · rw [(of_decide_eq_true hk).1]
      exact List.mem_singleton_self _
    · exact List.mem_singleton_self _
  · obtain ⟨ph₁, s₁', hat₁, hfits₁, hafter, hlost, hyields⟩ := hx
    refine ⟨ph₁, s₁', hat₁, hfits₁.mono id ?_, by simp, by simp, fun hph => ?_⟩
    · rw [List.append_assoc]
      exact List.append_subset.2 ⟨List.subset_append_left _ _,
        List.Subset.trans (List.subset_append_right _ _) (List.subset_append_right _ _)⟩
    · rw [binaryLevel_eq_joined h.level_le, joined_eq]
      have hnew := binaryLevel_yields_of_le (Nat.sub_le 10 level) (Nat.le_add_left D n) hread
      have hloop := hyields hph
      rw [carry_tree, hcarry] at hloop
      exact hnew.bind hloop

end Twin

open Twin Parse in
/-- **A file with one operand for two is read with one tree for the other.**  The other operand
binds tighter than what joins the two; it is read, in some number of rounds, where they were, and
the same tokens come after both. -/
theorem PieceTree.ofTokens_exchange_joined {S : Site} {d D level q : Nat} {pre pre' : List Token}
    {t old new l r : PieceTree} (hpre : List.Forall₂ Token.Same pre pre')
    (hposition : pre.length = S.position)
    (ht : ofTokens (pre ++ S.tokens) S.textLength = .ok t) (hmem : old ∈ t.subtrees)
    (hkind : old.label.kind = .binary q) (hfirst : old.label.first = S.position)
    (hlt : S.position < q) (hchildren : old.children = [l, r])
    (hl : l.label.kind.isBinary = false)
    (hlevel : (S.start.kindAt q).bind TokenKind.precedence? = some level)
    (hread : ∀ n m e, JoinedAt n level S.start l r m e → old = joinedTree S.start l r m e →
      ∃ e', (binaryLevel (Grammar.forTokens D) (10 - level)).Yields S.start' new e' ∧
        List.Forall₂ Token.Same e.rest e'.rest ∧ e'.position = e.position + d) :
    ofTokens (pre' ++ S.tokens') S.textLength' =
      .ok (t.exchange (fun p => decide (p.kind = .binary q ∧ p.first = S.position))
        (pushed S.position d) new) := by
  obtain ⟨e₀, he₀⟩ := ofTokens_eq_ok_iff.1 ht
  have hahead : S.IsAhead ⟨pre ++ S.tokens, 0, S.textLength⟩
      ⟨pre' ++ S.tokens', 0, S.textLength'⟩ :=
    ⟨⟨pre, pre', rfl, rfl, hpre, (Nat.zero_add _).trans hposition⟩, rfl, rfl, rfl⟩
  obtain ⟨n, m, e, h, rfl⟩ :=
    exists_joinedAt hahead he₀ hmem hkind hfirst hlt hchildren hl hlevel
  obtain rfl := NodeKind.binary.inj hkind
  obtain ⟨e', he', hrest, hshift⟩ := hread n m e h rfl
  have hreads' := binaryLevel_ensures (Grammar.isSound_forTokens D) _ _ new e' he'
  have hq : S.position < m.position ∧ m.position ≤ (joinedTree S.start l r m e).label.last :=
    ⟨hlt, (h.reads.isLaid.own (Rose.self_mem_subtrees _) (List.mem_singleton_self _)).2⟩
  -- both expressions are followed by as many tokens
  have hlength : S.tokens'.length = S.tokens.length + d := by
    have htotal := h.reads.takes.total_eq
    have htotal' := hreads'.takes.total_eq
    have hsame := hrest.length_eq
    simp only [TokenStream.total, Site.start, Site.start'] at htotal htotal'
    omega
  have hcouples (n : Nat) : (exchanged S (.ofJoined S (joinedTree S.start l r m e) new d level
      m.position hfirst hreads'.first_eq hq hlevel)).Couples (Grammar.forTokens n)
        (Grammar.forTokens (n + (d + D))) :=
    couples_of_joinedAt h (binaryLevel_yields_of_le (Nat.sub_le 10 level) (Nat.le_add_left D d) he')
      hrest hshift n
  exact (ofTokens_exchange hpre hposition hlength ht hmem (decide_eq_true ⟨rfl, hfirst⟩) hcouples).2

end Mend
