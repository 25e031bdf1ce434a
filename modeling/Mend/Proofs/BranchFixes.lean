import Mend.Fix.Branch
import Mend.Proofs.CursorPaths
import Mend.Proofs.FittingChanges

/-!
# Fixes for branches do not fail

Braces and cases only put text into a file.  To split a condition, one of its parts is moved before
the statement, or the other one behind the branch.  The operator is looked for among the nodes that
lie further inward than the statement.  The first of those is a binary expression and a child of the
statement, and since branches are no binary expressions, it is the condition.

## Main results

* `Query.exists_of_splitPoint?` — the operator belongs to one of the nodes that are looked at.
* `Query.parts_within` — **both parts lie within the condition of the statement.**
* `Query.exists_of_mem_splitIf` — where the fix is offered, and what it changes.
* `Query.succeeds_addBraces`, `Query.succeeds_splitIf`, `Query.succeeds_completeSwitch` — **the
  fixes do not fail.**
-/

namespace Mend

namespace Query

open Change SourceCode

variable {q : Query} {t condition branch : SyntaxTree} {rest : List SyntaxTree}

/-! ### Braces -/

/-- Braces can be put around whatever there is. -/
theorem succeeds_brace (hq : q.IsProper) (t : SyntaxTree) (depth : Nat) :
    (q.brace t depth).Succeeds q.snapshot := by
  have hstart := (q.file.isOrdered.tokenSpan (t.label.first - 1)).2
  have hstop : q.file.stopOf t ≤ q.file.text.length := (q.file.isOrdered.tokenSpan _).2
  refine succeeds_propose hq ⟨?_, ?_⟩ _ _ _
  · simp [extents]
    omega
  · simp [marks, Span.Apart]
    omega

theorem succeeds_addBraces (hq : q.IsProper) : ∀ x ∈ q.addBraces, x.Succeeds q.snapshot := by
  intro x hx
  unfold addBraces at hx
  dsimp only at hx
  split at hx
  next =>
    rw [List.mem_singleton.1 hx]
    exact succeeds_brace hq _ _
  next =>
    rw [Option.mem_toList] at hx
    obtain ⟨⟨t, depth⟩, -, hfound⟩ := List.exists_of_findSome?_eq_some hx
    dsimp only at hfound
    split at hfound
    next =>
      split at hfound
      next =>
        cases hfound
        exact succeeds_brace hq _ _
      next => cases hfound
    next => cases hfound

/-! ### Splitting a condition -/

/-- The operator at which a condition is split belongs to one of the nodes that are looked at, and
the first of those is a binary expression. -/
theorem exists_of_splitPoint? {hasElse : Bool} {seen : Option TokenKind}
    {ts : List (SyntaxTree × Nat)} {p : SplitPoint}
    (h : q.splitPoint? hasElse seen ts = some p) :
    (∃ u ∈ ts.map Prod.fst, ∃ operator,
        u.label.kind = .binary operator ∧ u.children = [p.left, p.right]) ∧
      ∀ u ∈ (ts.map Prod.fst).head?, u.label.kind.isBinary = true := by
  induction ts generalizing seen with
  | nil => cases h
  | cons n ts ih =>
    obtain ⟨u, depth⟩ := n
    unfold splitPoint? at h
    split at h
    next operator left right hkind hchildren =>
      have hhead : ∀ v ∈ (((u, depth) :: ts).map Prod.fst).head?,
          v.label.kind.isBinary = true := by
        rintro _ ⟨⟩
        rw [hkind]
        rfl
      refine ⟨?_, hhead⟩
      split at h
      next => cases h
      next k _ =>
        obtain ⟨-, h⟩ := Option.ite_none_left_eq_some.1 h
        split at h
        next =>
          -- the query is about this operator
          cases h
          exact ⟨u, List.mem_cons_self, operator, hkind, hchildren⟩
        next =>
          obtain ⟨v, hv, hparts⟩ := (ih h).1
          exact ⟨v, List.mem_cons_of_mem _ hv, hparts⟩
    next => cases h

/-- The tokens and children of an `if` statement follow each other. -/
theorem ifStatement_order {keyword lparen rparen : Nat} {elseToken : Option Nat}
    (ht : t ∈ q.file.tree.subtrees)
    (hkind : t.label.kind = .ifStatement keyword lparen rparen elseToken)
    (hchildren : t.children = condition :: branch :: rest) :
    Span.InOrder (q.file.startOf t)
      [q.file.spanOf condition, q.file.tokenSpan rparen, q.file.spanOf branch]
      (q.file.stopOf t) := by
  refine (q.file.isOrdered.node ht).sublist ?_
  have hlayout : q.file.layoutSpans t = [q.file.tokenSpan keyword, q.file.tokenSpan lparen] ++
      ([q.file.spanOf condition, q.file.tokenSpan rparen, q.file.spanOf branch] ++
        (elseToken.toList.map q.file.tokenSpan ++ rest.map q.file.spanOf)) := by
    cases elseToken <;>
      simp [layoutSpans, Piece.layout, NodeKind.slots, TokenRun.interleave, hkind, hchildren,
        Function.comp_def]
  rw [hlayout]
  exact .trans (List.sublist_append_left _ _) (List.sublist_append_right _ _)

/-- A binary expression that is a child of an `if` statement is its condition. -/
theorem eq_condition_of_isBinary (ht : t ∈ q.file.tree.subtrees)
    (hif : t.label.kind.isIf = true) (hchildren : t.children = condition :: rest)
    {u : SyntaxTree} (hu : u ∈ t.children) (hbinary : u.label.kind.isBinary = true) :
    u = condition := by
  have hlaid : t.label.toPiece.IsLaid ((t.children.map Rose.label).map Node.toPiece) :=
    q.file.isOrdered.tree t ht
  have hbranches := hlaid.branches hif
  rw [hchildren] at hu hbranches
  rcases List.mem_cons.1 hu with rfl | hu
  · rfl
  · have hbranch := hbranches u.label.toPiece
      (List.mem_map_of_mem (List.mem_map_of_mem hu))
    rw [hbinary] at hbranch
    cases hbranch

/-- The nodes that are looked at begin with the condition, and each of them is a child of the one
before. -/
theorem exists_below {depth : Nat} {hasElse : Bool} {p : SplitPoint} (ht : (t, depth) ∈ q.outward)
    (hif : t.label.kind.isIf = true) (hchildren : t.children = condition :: rest)
    (hp : q.splitPoint? hasElse none (q.inward.drop (depth + 1)) = some p) :
    ∃ below, (q.inward.drop (depth + 1)).map Prod.fst = condition :: below ∧
      (condition :: below).IsChain fun u v => v ∈ u.children := by
  obtain ⟨⟨u, hu, -⟩, hhead⟩ := exists_of_splitPoint? hp
  have hdrop : (q.inward.drop (depth + 1)).map Prod.fst = q.path.drop (depth + 1) := by
    rw [List.map_drop, inward, List.zipIdx_map_fst]
  have hchain := isChain_drop_path ht
  rw [hdrop] at hu hhead ⊢
  cases hbelow : q.path.drop (depth + 1) with
  | nil =>
    rw [hbelow] at hu
    cases hu
  | cons c below =>
    rw [hbelow] at hhead hchain
    obtain ⟨hchild, hchain⟩ := List.isChain_cons_cons.1 hchain
    -- the first node below the statement is its condition
    obtain rfl := eq_condition_of_isBinary (mem_subtrees_of_mem_outward ht) hif hchildren hchild
      (hhead c rfl)
    exact ⟨below, rfl, hchain⟩

/-- **Both parts lie within the condition of the statement**, around the operator at which it is
split. -/
theorem parts_within {depth : Nat} {hasElse : Bool} {p : SplitPoint}
    (ht : (t, depth) ∈ q.outward) (hif : t.label.kind.isIf = true)
    (hchildren : t.children = condition :: rest)
    (hp : q.splitPoint? hasElse none (q.inward.drop (depth + 1)) = some p) :
    Span.InOrder (q.file.startOf condition) [q.file.spanOf p.left, q.file.spanOf p.right]
      (q.file.stopOf condition) := by
  obtain ⟨⟨u, hu, operator, hkind, hparts⟩, -⟩ := exists_of_splitPoint? hp
  obtain ⟨below, hbelow, hchain⟩ := exists_below ht hif hchildren hp
  have hcondition := Rose.mem_subtrees_of_mem_children (mem_subtrees_of_mem_outward ht)
    (show condition ∈ t.children by simp [hchildren])
  rw [hbelow] at hu
  have hu : u ∈ condition.subtrees := by
    rcases List.mem_cons.1 hu with rfl | hu
    · exact u.self_mem_subtrees
    · exact Rose.mem_subtrees_of_isChain hchain hu
  have hwithin := q.file.isOrdered.subtree hcondition hu
  have hnode := q.file.isOrdered.binary (Rose.subtrees_subset hcondition hu) hkind hparts
  simp only [Span.inOrder_cons, Span.inOrder_nil, start_tokenSpan, stop_tokenSpan, start_spanOf,
    stop_spanOf] at hnode ⊢
  omega

/-- Where the fix is offered, the innermost `if` statement at the cursor is split at an operator
that was found in it. -/
theorem exists_of_mem_splitIf {x : Proposal} (hx : x ∈ q.splitIf) :
    ∃ t depth keyword lparen rparen elseToken condition branch rest p,
      (q.outward.find? fun n => n.1.label.kind.isIf) = some (t, depth) ∧
      t.label.kind = .ifStatement keyword lparen rparen elseToken ∧
      t.children = condition :: branch :: rest ∧
      q.splitPoint? elseToken.isSome none (q.inward.drop (depth + 1)) = some p ∧
      x = q.propose "Split if Statement" p.depth
        (if p.isAnd then q.splitAnd t p else q.splitOr rparen branch p) [q.file.spanOf t] := by
  unfold splitIf at hx
  dsimp only at hx
  split at hx
  next => cases hx
  next t depth ht =>
    split at hx
    next keyword lparen rparen elseToken condition branch rest hkind hchildren =>
      split at hx
      next => cases hx
      next p hp =>
        exact ⟨t, depth, keyword, lparen, rparen, elseToken, condition, branch, rest, p, ht, hkind,
          hchildren, hp, List.mem_singleton.1 hx⟩
    next => cases hx

/-- The parts of a condition lie between the statement and its branch. -/
theorem split_order {depth : Nat} {keyword lparen rparen : Nat} {elseToken : Option Nat}
    {p : SplitPoint} (ht : (t, depth) ∈ q.outward)
    (hkind : t.label.kind = .ifStatement keyword lparen rparen elseToken)
    (hchildren : t.children = condition :: branch :: rest)
    (hp : q.splitPoint? elseToken.isSome none (q.inward.drop (depth + 1)) = some p) :
    Span.InOrder (q.file.startOf t) [q.file.spanOf p.left, q.file.spanOf p.right,
      q.file.tokenSpan rparen, q.file.spanOf branch] (q.file.stopOf t) := by
  have horder := ifStatement_order (mem_subtrees_of_mem_outward ht) hkind hchildren
  have hparts := parts_within ht (by rw [hkind]; rfl) hchildren hp
  simp only [Span.inOrder_cons, Span.inOrder_nil, start_tokenSpan, stop_tokenSpan, start_spanOf,
    stop_spanOf] at horder hparts ⊢
  omega

/-- The changes that put one statement into the other fit the text. -/
theorem fit_splitAnd {p : SplitPoint} {rparen : Nat} (ht : t ∈ q.file.tree.subtrees)
    (h : Span.InOrder (q.file.startOf t) [q.file.spanOf p.left, q.file.spanOf p.right,
      q.file.tokenSpan rparen, q.file.spanOf branch] (q.file.stopOf t)) :
    Fit (q.splitAnd t p) q.file.text.length := by
  have hlies := q.file.isOrdered.spanOf ht
  simp only [Span.inOrder_cons, Span.inOrder_nil, start_tokenSpan, stop_tokenSpan, start_spanOf,
    stop_spanOf] at h
  refine ⟨?_, ?_⟩
  · simp [splitAnd, extents]
    omega
  · simp [splitAnd, marks, Span.Apart]
    omega

/-- The changes that put one statement after the other fit the text. -/
theorem fit_splitOr {p : SplitPoint} {rparen : Nat} (ht : t ∈ q.file.tree.subtrees)
    (h : Span.InOrder (q.file.startOf t) [q.file.spanOf p.left, q.file.spanOf p.right,
      q.file.tokenSpan rparen, q.file.spanOf branch] (q.file.stopOf t)) :
    Fit (q.splitOr rparen branch p) q.file.text.length := by
  have hlies := q.file.isOrdered.spanOf ht
  simp only [Span.inOrder_cons, Span.inOrder_nil, start_tokenSpan, stop_tokenSpan, start_spanOf,
    stop_spanOf] at h
  refine ⟨?_, ?_⟩
  · simp [splitOr, extents]
    omega
  · simp [splitOr, marks, Span.Apart]
    omega

theorem succeeds_splitIf (hq : q.IsProper) : ∀ x ∈ q.splitIf, x.Succeeds q.snapshot := by
  intro x hx
  obtain ⟨t, depth, keyword, lparen, rparen, elseToken, condition, branch, rest, p, hfind, hkind,
    hchildren, hp, rfl⟩ := exists_of_mem_splitIf hx
  have ht := List.mem_of_find?_eq_some hfind
  have horder := split_order ht hkind hchildren hp
  refine succeeds_propose hq ?_ _ _ _
  split
  next => exact fit_splitAnd (mem_subtrees_of_mem_outward ht) horder
  next => exact fit_splitOr (mem_subtrees_of_mem_outward ht) horder

/-! ### Cases -/

theorem succeeds_completeSwitch (hq : q.IsProper) :
    ∀ x ∈ q.completeSwitch, x.Succeeds q.snapshot := by
  intro x hx
  rw [completeSwitch, Option.mem_toList] at hx
  obtain ⟨t, depth, ht, hdecides⟩ := exists_of_decideOutward hx
  split at hdecides
  next keyword _ _ condition body _ _ =>
    split at hdecides
    next lbrace _ _ =>
      generalize (if q.isOnToken keyword then q.missingCases condition body else []) = names
        at hdecides
      dsimp only at hdecides
      split at hdecides
      next => cases hdecides
      next =>
        cases hdecides
        exact succeeds_propose hq (fit_insert (q.file.isOrdered.tokenSpan lbrace).2 _) _ _ _
    next => cases hdecides
  next => cases hdecides

end Query

end Mend
