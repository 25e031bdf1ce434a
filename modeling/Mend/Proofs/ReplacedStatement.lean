import Mend.Proofs.ExchangedNode

/-!
# One statement for another

When the tokens of an `if` statement are exchanged for those of another one, the file is read with
the other statement in place of the first one.  It is enough to know how the other statement is read
where the first one was.

## Main definitions

* `Twin.Replacement.ofStatement` — one `if` statement for another one.

## Main results

* `Parse.next?_of_ifKeyword?` — the keyword of an `if` statement is one.
* `Parse.exists_statement_yields` — the statements of a tree were read where they begin.
* `PieceTree.ofTokens_exchange_statement` — **a file with one statement for another is read with one
  tree for the other.**
-/

namespace Mend

namespace Twin

open Parse Movable

/-- What is read from the keyword of an `if` statement on, in any number of rounds. -/
theorem statement_of_kwIf {n : Nat} {s e : TokenStream} {t : PieceTree}
    (hs : s.next? = some .kwIf) (h : (Grammar.forTokens n).statement.Yields s t e) :
    s.Reads t e ∧ t.label.kind.ifKeyword? = some s.position ∧ s.position < t.label.last := by
  cases n with
  | zero => exact (fail_ensures (Q := fun _ _ => False) _ t e h).elim
  | succ n =>
    obtain ⟨hreads, -⟩ := (Grammar.isSound_forTokens (n + 1)).statement s t e h
    obtain ⟨lparen, rparen, elseToken, hkind⟩ := statement_ensures_of_kwIf hs t e h
    have hkey : t.label.kind.ifKeyword? = some s.position := by rw [hkind]; rfl
    exact ⟨hreads, hkey, (hreads.isLaid.ifKeyword?_bounds hkey).2.1⟩

/-- One `if` statement for another one. -/
def Replacement.ofStatement (S : Site) (old new : PieceTree) (longer : Nat)
    (hold : old.label.first = S.position) (hnew : new.label.first = S.position)
    (hlast : S.position < old.label.last) : Replacement S where
  isOld p := p.kind.ifKeyword? == some S.position
  old := old
  new := new
  level? := none
  isExchangeable {p} hp := by
    rw [beq_iff_eq] at hp
    cases hk : p.kind <;> rw [hk] at hp <;> first | rfl | cases hp
  longer := longer
  first_old := hold
  first_new := hnew
  lt_last := hlast
  operator h := by cases h

variable {S : Site} {old new : PieceTree} {longer D : Nat} {hold : old.label.first = S.position}
  {hnew : new.label.first = S.position} {hlast : S.position < old.label.last}

/-- When what is read from the keyword at the place on is the first statement, and the other one is
read there in the second run, the parsers match each other. -/
theorem couples_ofStatement (hread : S.start.next? = some .kwIf →
    ∀ n x e, (Grammar.forTokens n).statement.Yields S.start x e →
      x = old ∧ ∃ e', (Grammar.forTokens (n + D)).statement.Yields S.start' new e' ∧
        List.Forall₂ Token.Same e.rest e'.rest ∧ e'.position = e.position + longer) (n : Nat) :
    (exchanged S (.ofStatement S old new longer hold hnew hlast)).Couples (Grammar.forTokens n)
      (Grammar.forTokens (n + D)) := by
  refine couples_forTokens (fun n hσ ts ph s s' => ?_) (fun _ _ _ r hr hlevel => ?_) n
  · by_cases hplace : s.position = S.position ∧ s.next? = some .kwIf
    · obtain ⟨hposition, hif⟩ := hplace
      intro hat hfits x e hx
      -- this is the place, and the runs go on behind the statements
      obtain ⟨rfl, rfl, rfl⟩ := eq_before_of_at hat hposition
      obtain ⟨rfl, e', he', hrest, hshift⟩ := hread hif (n + 1) x e hx
      obtain ⟨hreads, hkey, -⟩ := statement_of_kwIf hif hx
      have hbehind : x.label.last < e.position := by
        have := hreads.last_eq
        omega
      refine ⟨.after, e', ⟨hrest, hbehind, hshift⟩, ?_, by simp, by simp, fun _ => ?_⟩
      · refine (hfits.mono (by simp) (List.Subset.refl _)).append ?_
        intro t ht u hu r hr hku
        cases hr
        obtain rfl := List.mem_singleton.1 ht
        have hku : u.label.kind.ifKeyword? = some S.position := beq_iff_eq.1 hku
        exact ⟨rfl, hreads.isLaid.eq_of_ifKeyword? (hold ▸ hkey) hu (hold ▸ hku)⟩
      · rw [carry_tree, rewrite_of_isSwapped (t := x) rfl (beq_iff_eq.2 hkey)]
        exact he'
    · rw [Nat.add_right_comm]
      refine MatchesAt.statement hσ fun hif p hp => ?_
      rintro ⟨r, hr, hk⟩
      cases hr
      exact hplace ⟨Option.some.inj (hp.symm.trans (beq_iff_eq.1 hk)), hif⟩
  · cases hr
    cases hlevel

end Twin

namespace Parse

open Twin

/-- More rounds read the same. -/
theorem statement_yields_of_le {n m : Nat} (h : n ≤ m) {s e : TokenStream} {t : PieceTree}
    (ht : (Grammar.forTokens n).statement.Yields s t e) :
    (Grammar.forTokens m).statement.Yields s t e := by
  obtain ⟨d, rfl⟩ := Nat.exists_eq_add_of_le h
  exact yields_of_matches (fun r k => (couples_of_swap_eq_none rfl n d).statement []) ht

/-- In any number of rounds the same statement is read. -/
theorem statement_unique {n m : Nat} {s e e' : TokenStream} {t t' : PieceTree}
    (h : (Grammar.forTokens n).statement.Yields s t e)
    (h' : (Grammar.forTokens m).statement.Yields s t' e') : t = t' ∧ e = e' :=
  (statement_yields_of_le (Nat.le_max_left n m) h).unique
    (statement_yields_of_le (Nat.le_max_right n m) h')

/-- What stands where an `if` statement has its keyword is one. -/
theorem next?_of_ifKeyword? {S : Site} {n : Nat} {s s' e : TokenStream} {t old : PieceTree}
    (hs : S.IsAhead s s') (ht : (Parse.file (Grammar.forTokens n)).Yields s t e)
    (hold : old ∈ t.subtrees) (hkey : old.label.kind.ifKeyword? = some S.position) :
    S.start.next? = some .kwIf := by
  by_contra hif
  -- no statement is read there, so anything could stand for it
  let N : PieceTree := .node ⟨.file, S.position, S.position + 1⟩ []
  have hcouples (m : Nat) : (exchanged S.self (.ofStatement S.self N N 0 rfl rfl
      (Nat.lt_succ_self _))).Couples (Grammar.forTokens m) (Grammar.forTokens (m + 0)) :=
    couples_ofStatement (S := S.self) (D := 0) (fun hif' => absurd hif' hif) m
  obtain rfl := mem_subtrees_of_self hs hcouples ht hold (beq_iff_eq.2 hkey)
  cases hkey

/-- **The `if` statements of a file were read where they begin.** -/
theorem exists_statement_yields {S : Site} {n : Nat} {s s' e : TokenStream} {t old : PieceTree}
    (hs : S.IsAhead s s') (ht : (Parse.file (Grammar.forTokens n)).Yields s t e)
    (hold : old ∈ t.subtrees) (hkey : old.label.kind.ifKeyword? = some S.position) :
    ∃ m e, (Grammar.forTokens m).statement.Yields S.start old e := by
  have hif := next?_of_ifKeyword? hs ht hold hkey
  by_contra hnone
  -- if another tree is read there, that one is in the tree of the file
  obtain ⟨N, hne, hfirst, hlast, hN⟩ : ∃ N, N ≠ old ∧ N.label.first = S.position ∧
      S.position < N.label.last ∧ ∀ m x e, (Grammar.forTokens m).statement.Yields S.start x e →
        x = N := by
    by_cases hsome : ∃ m x e, (Grammar.forTokens m).statement.Yields S.start x e
    · obtain ⟨m, x, e, hx⟩ := hsome
      obtain ⟨hreads, -, hlast⟩ := statement_of_kwIf hif hx
      refine ⟨x, ?_, hreads.first_eq, hlast, fun m' y e' hy => (statement_unique hy hx).1⟩
      rintro rfl
      exact hnone ⟨m, e, hx⟩
    · refine ⟨.node ⟨.file, S.position, S.position + 1⟩ [], ?_, rfl, Nat.lt_succ_self _,
        fun m x e hx => absurd ⟨m, x, e, hx⟩ hsome⟩
      rintro rfl
      cases hkey
  have hcouples (m : Nat) :
      (exchanged S.self (.ofStatement S.self N N 0 hfirst hfirst hlast)).Couples
        (Grammar.forTokens m) (Grammar.forTokens (m + 0)) :=
    couples_ofStatement (S := S.self) (D := 0) (fun _ m x e hx => by
      obtain rfl := hN m x e hx
      exact ⟨rfl, e, hx, List.forall₂_same.2 fun _ _ => ⟨rfl, rfl⟩, rfl⟩) m
  exact hne (mem_subtrees_of_self hs hcouples ht hold (beq_iff_eq.2 hkey)).symm

end Parse

open Twin Parse in
/-- **A file with one statement for another is read with one tree for the other.**  The other
statement is read, in some number of rounds more, where the first one was, and the same tokens come
after both. -/
theorem PieceTree.ofTokens_exchange_statement {S : Site} {d D : Nat} {pre pre' : List Token}
    {t old new : PieceTree} (hpre : List.Forall₂ Token.Same pre pre')
    (hposition : pre.length = S.position)
    (ht : ofTokens (pre ++ S.tokens) S.textLength = .ok t)
    (hold : old ∈ t.subtrees) (hkey : old.label.kind.ifKeyword? = some S.position)
    (hread : ∀ n e, (Grammar.forTokens n).statement.Yields S.start old e →
      ∃ e', (Grammar.forTokens (n + D)).statement.Yields S.start' new e' ∧
        List.Forall₂ Token.Same e.rest e'.rest ∧ e'.position = e.position + d) :
    ofTokens (pre' ++ S.tokens') S.textLength' =
      .ok (t.exchange (fun p => p.kind.ifKeyword? == some S.position) (pushed S.position d)
        new) := by
  obtain ⟨e, he⟩ := ofTokens_eq_ok_iff.1 ht
  have hahead : S.IsAhead ⟨pre ++ S.tokens, 0, S.textLength⟩
      ⟨pre' ++ S.tokens', 0, S.textLength'⟩ :=
    ⟨⟨pre, pre', rfl, rfl, hpre, (Nat.zero_add _).trans hposition⟩, rfl, rfl, rfl⟩
  have hif := next?_of_ifKeyword? hahead he hold hkey
  obtain ⟨m, em, hm⟩ := exists_statement_yields hahead he hold hkey
  obtain ⟨em', hm', hrest, hshift⟩ := hread m em hm
  obtain ⟨hreads, -, hlast⟩ := statement_of_kwIf hif hm
  obtain ⟨hreads', -, -⟩ := statement_of_kwIf (S.next?_start'.trans hif) hm'
  -- both statements are followed by as many tokens
  have hlength : S.tokens'.length = S.tokens.length + d := by
    have htotal := hreads.takes.total_eq
    have htotal' := hreads'.takes.total_eq
    have hsame := hrest.length_eq
    simp only [TokenStream.total, Site.start, Site.start'] at htotal htotal'
    omega
  have hcouples (n : Nat) : (exchanged S (.ofStatement S old new d hreads.first_eq
      hreads'.first_eq hlast)).Couples (Grammar.forTokens n) (Grammar.forTokens (n + (d + D))) :=
    couples_ofStatement (fun _ n x e hx => by
      obtain ⟨rfl, rfl⟩ := statement_unique hx hm
      obtain ⟨e', he', hrest, hshift⟩ := hread n _ hx
      exact ⟨rfl, e', statement_yields_of_le (by omega) he', hrest, hshift⟩) n
  exact (ofTokens_exchange hpre hposition hlength ht hold (beq_iff_eq.2 hkey) hcouples).2

end Mend
