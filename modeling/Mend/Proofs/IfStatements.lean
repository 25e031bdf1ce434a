import Mend.Proofs.ParsedStatements
import Mend.Proofs.ParserRuns

/-!
# How `if` statements are read

An `if` statement is read when its parts are: the keyword, a condition in parentheses, a statement,
and, when an `else` comes next, another statement after it.

## Main definitions

* `Parse.oneBranch`, `Parse.twoBranches` — what comes after the condition, without an `else` and
  with one.

## Main results

* `Parse.branches_yields_iff` — an `else` that comes next is always taken.
* `Parse.statement_yields_iff_of_kwIf` — an `if` statement is read just when its parts are.
* `PieceTree.IsLaid.eq_of_ifKeyword?` — no two `if` statements have the same keyword.
-/

namespace Mend

namespace Parse

open TokenStream

variable {g : Grammar} {s m s₁ : TokenStream} {keyword lparen rparen i : Nat} {k : TokenKind}
  {c t : PieceTree}

/-! ### One parser after the other -/

/-- A parser that succeeds has a first part that does. -/
theorem Yields.of_bind {α β : Type} {p : Parse α} {f : α → Parse β} {y : β}
    (h : (p >>= f).Yields s y s₁) : ∃ x m, p.Yields s x m ∧ (f x).Yields m y s₁ := by
  rw [Yields, StateT.run_bind] at h
  cases hp : p.run s with
  | error e =>
    rw [hp] at h
    cases h
  | ok r =>
    rw [hp] at h
    exact ⟨r.1, r.2, hp, h⟩

theorem expect_yields_iff :
    (expect k).Yields s i s₁ ↔ s.next? = some k ∧ i = s.position ∧ s₁ = s.tail := by
  constructor
  · intro h
    by_cases hk : s.next? = some k
    · exact ⟨hk, h.unique (expect_yields hk)⟩
    · have hat : s.isAt k = false := by simpa [isAt] using hk
      exact (expect_ensures_of_isAt_eq_false (Q := fun _ _ => False) hat i s₁ h).elim
  · rintro ⟨hk, rfl, rfl⟩
    exact expect_yields hk

/-! ### Branches -/

/-- The branches of an `if` statement, after its condition. -/
def branches (g : Grammar) (keyword lparen rparen : Nat) (c : PieceTree) : Parse PieceTree := do
  let thenBranch ← g.statement
  match ← eat? .kwElse with
  | some elseToken =>
    let elseBranch ← g.statement
    close (.ifStatement keyword lparen rparen (some elseToken)) keyword
      [c, thenBranch, elseBranch]
  | none => close (.ifStatement keyword lparen rparen none) keyword [c, thenBranch]

/-- The branches when there are two. -/
def twoBranches (g : Grammar) (keyword lparen rparen : Nat) (c : PieceTree) : Parse PieceTree := do
  let thenBranch ← g.statement
  let elseToken ← expect .kwElse
  let elseBranch ← g.statement
  close (.ifStatement keyword lparen rparen (some elseToken)) keyword [c, thenBranch, elseBranch]

/-- The branches when there is one. -/
def oneBranch (g : Grammar) (keyword lparen rparen : Nat) (c : PieceTree) : Parse PieceTree := do
  let thenBranch ← g.statement
  close (.ifStatement keyword lparen rparen none) keyword [c, thenBranch]

theorem ifStatement_eq (g : Grammar) :
    ifStatement g = advance >>= fun keyword => controlCondition g >>= fun c =>
      branches g keyword c.1 c.2.2 c.2.1 := rfl

theorem twoBranches_yields_iff : (twoBranches g keyword lparen rparen c).Yields s t s₁ ↔
    ∃ b m e, g.statement.Yields s b m ∧ m.next? = some .kwElse ∧ g.statement.Yields m.tail e s₁ ∧
      t = .node ⟨.ifStatement keyword lparen rparen (some m.position), keyword,
        max keyword (s₁.position - 1)⟩ [c, b, e] := by
  constructor
  · intro h
    obtain ⟨b, m, hb, hrest⟩ := h.of_bind
    obtain ⟨i, m', hi, hlater⟩ := hrest.of_bind
    obtain ⟨e, m'', he, hclose⟩ := hlater.of_bind
    obtain ⟨hm, rfl, rfl⟩ := expect_yields_iff.1 hi
    cases hclose
    exact ⟨b, m, e, hb, hm, he, rfl⟩
  · rintro ⟨b, m, e, hb, hm, he, rfl⟩
    exact hb.bind ((expect_yields hm).bind (he.bind rfl))

theorem oneBranch_yields_iff : (oneBranch g keyword lparen rparen c).Yields s t s₁ ↔
    ∃ b, g.statement.Yields s b s₁ ∧
      t = .node ⟨.ifStatement keyword lparen rparen none, keyword,
        max keyword (s₁.position - 1)⟩ [c, b] := by
  constructor
  · intro h
    obtain ⟨b, m, hb, hclose⟩ := h.of_bind
    cases hclose
    exact ⟨b, hb, rfl⟩
  · rintro ⟨b, hb, rfl⟩
    exact hb.bind rfl

/-- **An `else` that comes next is always taken.**  There are two branches when one comes after the
first branch, and one branch otherwise. -/
theorem branches_yields_iff : (branches g keyword lparen rparen c).Yields s t s₁ ↔
    (twoBranches g keyword lparen rparen c).Yields s t s₁ ∨
      (oneBranch g keyword lparen rparen c).Yields s t s₁ ∧ s₁.next? ≠ some .kwElse := by
  constructor
  · intro h
    obtain ⟨b, m, hb, hrest⟩ := h.of_bind
    obtain ⟨o, m₁, ho, hlater⟩ := hrest.of_bind
    by_cases hnext : m.next? = some .kwElse
    · obtain ⟨rfl, rfl⟩ := ho.unique (eat?_yields_some hnext)
      exact .inl (hb.bind ((expect_yields hnext).bind hlater))
    · obtain ⟨rfl, rfl⟩ := ho.unique (eat?_yields_none hnext)
      cases hlater
      exact .inr ⟨hb.bind rfl, hnext⟩
  · rintro (h | ⟨h, hnext⟩)
    · obtain ⟨b, m, e, hb, hm, he, rfl⟩ := twoBranches_yields_iff.1 h
      exact hb.bind ((eat?_yields_some hm).bind (he.bind rfl))
    · obtain ⟨b, hb, rfl⟩ := oneBranch_yields_iff.1 h
      exact hb.bind ((eat?_yields_none hnext).bind rfl)

theorem branches_ensures_kind : (branches g keyword lparen rparen c).Ensures s fun t _ =>
    ∃ elseToken, t.label.kind = .ifStatement keyword lparen rparen elseToken := by
  intro t s₁ h
  rcases branches_yields_iff.1 h with h | ⟨h, -⟩
  · obtain ⟨b, m, e, -, -, -, rfl⟩ := twoBranches_yields_iff.1 h
    exact ⟨_, rfl⟩
  · obtain ⟨b, -, rfl⟩ := oneBranch_yields_iff.1 h
    exact ⟨_, rfl⟩

/-! ### Whole statements -/

theorem controlCondition_yields_iff {p : Nat × PieceTree × Nat} :
    (controlCondition g).Yields s p s₁ ↔ ∃ c m, s.next? = some .lParen ∧
      (condition g).Yields s.tail c m ∧ m.next? = some .rParen ∧
        p = (s.position, c, m.position) ∧ s₁ = m.tail := by
  constructor
  · intro h
    obtain ⟨i, m, hi, hrest⟩ := h.of_bind
    obtain ⟨c, m', hc, hlater⟩ := hrest.of_bind
    obtain ⟨j, m'', hj, hpure⟩ := hlater.of_bind
    obtain ⟨hs, rfl, rfl⟩ := expect_yields_iff.1 hi
    obtain ⟨hm, rfl, rfl⟩ := expect_yields_iff.1 hj
    cases hpure
    exact ⟨c, m', hs, hc, hm, rfl, rfl⟩
  · rintro ⟨c, m, hs, hc, hm, rfl, rfl⟩
    exact (expect_yields hs).bind (hc.bind ((expect_yields hm).bind (.pure _ _)))

/-- **An `if` statement is read just when its parts are.** -/
theorem statement_yields_iff_of_kwIf (hs : s.next? = some .kwIf) :
    (statement g).Yields s t s₁ ↔ ∃ c m, s.tail.next? = some .lParen ∧
      (condition g).Yields s.tail.tail c m ∧ m.next? = some .rParen ∧
        (branches g s.position s.tail.position m.position c).Yields m.tail t s₁ := by
  have hstatement : (statement g).run s = (ifStatement g).run s := by
    refine (peek_yields s).run_bind.trans ?_
    simp only [hs]
  rw [Yields, hstatement, ifStatement_eq]
  constructor
  · intro h
    obtain ⟨i, m, hi, hrest⟩ := Yields.of_bind h
    obtain ⟨p, m', hp, hbranches⟩ := hrest.of_bind
    obtain ⟨rfl, rfl⟩ := hi.unique (advance_yields s)
    obtain ⟨c, m, hlparen, hc, hrparen, rfl, rfl⟩ := controlCondition_yields_iff.1 hp
    exact ⟨c, m, hlparen, hc, hrparen, hbranches⟩
  · rintro ⟨c, m, hlparen, hc, hrparen, h⟩
    have hcondition : (controlCondition g).Yields s.tail (s.tail.position, c, m.position) m.tail :=
      controlCondition_yields_iff.2 ⟨c, m, hlparen, hc, hrparen, rfl, rfl⟩
    exact (advance_yields s).bind (hcondition.bind h)

/-- What is read from the keyword of an `if` statement on is one with that keyword. -/
theorem statement_ensures_of_kwIf (hs : s.next? = some .kwIf) :
    (statement g).Ensures s fun t _ => ∃ lparen rparen elseToken,
      t.label.kind = .ifStatement s.position lparen rparen elseToken := by
  intro t s₁ h
  obtain ⟨c, m, -, -, -, h⟩ := (statement_yields_iff_of_kwIf hs).1 h
  obtain ⟨elseToken, hkind⟩ := branches_ensures_kind t s₁ h
  exact ⟨_, _, elseToken, hkind⟩

end Parse

/-! ### Keywords -/

/-- The keyword of an `if` statement. -/
def NodeKind.ifKeyword? : NodeKind → Option Nat
  | .ifStatement keyword _ _ _ => some keyword
  | _ => none

namespace PieceTree

variable {t u : PieceTree} {keyword : Nat}

/-- The keyword of an `if` statement is not its last token, and its parts begin after it. -/
theorem IsLaid.ifKeyword?_bounds (h : t.IsLaid) (hk : t.label.kind.ifKeyword? = some keyword) :
    t.label.first ≤ keyword ∧ keyword < t.label.last ∧
      ∀ c ∈ t.children, keyword < c.label.first := by
  obtain ⟨⟨kind, first, last⟩, cs⟩ := t
  have horder := (Rose.all_node.1 h).1.inOrder
  cases kind
  case ifStatement k lparen rparen elseToken =>
    obtain rfl := Option.some.inj hk
    simp only [Piece.layout, NodeKind.slots, TokenRun.interleave, List.map_cons, List.map_nil,
      List.cons_append, List.nil_append, TokenRun.inOrder_cons, TokenRun.first_single,
      TokenRun.last_single] at horder
    obtain ⟨hfirst, -, hlparen, -, horder⟩ := horder
    have hle := horder.le
    refine ⟨hfirst, Nat.lt_of_lt_of_le hlparen (Nat.le_of_succ_le_succ hle), fun c hc => ?_⟩
    -- the runs of the parts come after the keyword and the parenthesis
    have hparts : TokenRun.InOrder (lparen + 1) ((cs.map Rose.label).map Piece.run) (last + 1) :=
      horder.sublist (TokenRun.sublist_interleave [([], 1), ([rparen], 1), (elseToken.toList, 0)] _)
    have hwithin := hparts.of_mem (List.mem_map_of_mem (List.mem_map_of_mem hc))
    have hc : lparen + 1 ≤ c.label.first := hwithin.1
    omega
  all_goals cases hk

/-- A subtree begins and ends where its tree does, or in between. -/
theorem IsLaid.first_le (h : t.IsLaid) (hu : u ∈ t.subtrees) : t.label.first ≤ u.label.first := by
  induction t using Rose.induct with
  | h p ts ih =>
    rcases Rose.mem_subtrees_node.1 hu with ⟨c, hc, hu⟩ | rfl
    · obtain ⟨hp, hts⟩ := Rose.all_node.1 h
      exact Nat.le_trans (hp.within (List.mem_map_of_mem hc)).1 (ih c hc (hts c hc) hu)
    · exact Nat.le_refl _

/-- **No other `if` statement in one has its keyword**, when the statement begins with it. -/
theorem IsLaid.eq_of_ifKeyword? (h : t.IsLaid) (hk : t.label.kind.ifKeyword? = some t.label.first)
    (hu : u ∈ t.subtrees) (hku : u.label.kind.ifKeyword? = some t.label.first) : u = t := by
  obtain ⟨p, ts⟩ := t
  rcases Rose.mem_subtrees_node.1 hu with ⟨c, hc, hu'⟩ | rfl
  · obtain ⟨-, hts⟩ := Rose.all_node.1 h
    have hlaid : IsLaid c := hts c hc
    have hlt := (h.ifKeyword?_bounds hk).2.2 c hc
    have hle := hlaid.first_le hu'
    have hlaid : u.IsLaid := fun v hv => h v (Rose.subtrees_subset hu hv)
    have hfirst := (hlaid.ifKeyword?_bounds hku).1
    omega
  · rfl

end PieceTree

end Mend
