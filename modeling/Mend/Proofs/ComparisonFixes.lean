import Mend.Fix.Comparison
import Mend.Proofs.CursorPaths
import Mend.Proofs.FittingChanges

/-!
# Fixes for comparisons do not fail

What these fixes change are an operator, its operands, the signs of negations and the ends of the
expressions around them.  All of those are tokens and children of nodes at the cursor, so they keep
apart.

## Main results

* `Query.fit_negate` — negating an expression keeps apart from what is changed within it.
* `Query.succeeds_invertComparison`, `Query.succeeds_swapOperands`, `Query.succeeds_joinNegations` —
  **the fixes do not fail.**
-/

namespace Mend

namespace Query

open Change SourceCode

variable {q : Query} {t : SyntaxTree} {i : Nat}

/-! ### Operators and signs -/

theorem kind_of_operatorHere? (h : q.operatorHere? t = some i) : t.label.kind = .binary i := by
  unfold operatorHere? at h
  split at h
  next hkind =>
    split at h
    next =>
      cases h
      exact hkind
    next => cases h
  next => cases h

theorem kind_of_negationSign? (h : q.negationSign? t = some i) : t.label.kind = .unary i := by
  unfold negationSign? at h
  split at h
  next hkind =>
    split at h
    next =>
      cases h
      exact hkind
    next => cases h
  next => cases h

/-- The operator of an expression lies within it, however many operands there are. -/
theorem operator_within (ht : t ∈ q.file.tree.subtrees) (hkind : t.label.kind = .binary i) :
    q.file.startOf t ≤ q.file.tokenStart i ∧ q.file.tokenStart i ≤ q.file.tokenStop i ∧
      q.file.tokenStop i ≤ q.file.stopOf t := by
  have hmem : q.file.tokenSpan i ∈ q.file.layoutSpans t := by
    simp [layoutSpans, Piece.layout, NodeKind.slots, TokenRun.interleave, hkind]
  exact (q.file.isOrdered.node ht).of_mem hmem

/-- The sign of a negation lies within it, before what is negated. -/
theorem sign_within (ht : t ∈ q.file.tree.subtrees) (hkind : t.label.kind = .unary i) :
    Span.InOrder (q.file.startOf t) (q.file.tokenSpan i :: t.children.map q.file.spanOf)
      (q.file.stopOf t) := by
  have hnode := q.file.isOrdered.node ht
  simpa [layoutSpans, Piece.layout, NodeKind.slots, TokenRun.interleave, hkind,
    Function.comp_def] using hnode

/-! ### Inverting a comparison -/

/-- **Negating an expression keeps apart from what is changed within it.**  Around it, from the
inside out, stand the nodes that it lies in. -/
theorem fit_negate {around : List SyntaxTree} {s : Span} {text : Text}
    (ht : t ∈ q.file.tree.subtrees) (haround : ∀ u ∈ around, u ∈ q.file.tree.subtrees)
    (hchain : (t :: around).IsChain fun u v => u ∈ v.children) (hstart : q.file.startOf t ≤ s.start)
    (hspan : s.start ≤ s.stop) (hstop : s.stop ≤ q.file.stopOf t) :
    Fit (q.negate t around ++ [.replace s text]) q.file.text.length := by
  have hlies := q.file.isOrdered.spanOf ht
  have hplain : Fit ([.insert (q.file.startOf t) "!(".toList, .insert (q.file.stopOf t) ")".toList]
      ++ [.replace s text]) q.file.text.length := by
    refine ⟨?_, ?_⟩
    · simp [extents]
      omega
    · simp [marks, Span.Apart]
      omega
  cases around with
  | nil => exact hplain
  | cons nested rest =>
    obtain ⟨hnested, hrest⟩ := List.isChain_cons_cons.1 hchain
    have hchild := (q.file.isOrdered.children (haround nested List.mem_cons_self)).of_mem
      (List.mem_map_of_mem hnested)
    rw [negate]
    split
    next =>
      split
      next sign hsign =>
        -- the sign stands before the parentheses
        obtain ⟨negation, hnegation, hsign⟩ := Option.bind_eq_some_iff.1 hsign
        have hmem : negation ∈ rest := List.mem_of_mem_head? hnegation
        have hbefore := sign_within (haround negation (List.mem_cons_of_mem _ hmem))
          (kind_of_negationSign? hsign)
        have hoperand := hbefore.2.2.of_mem
          (List.mem_map_of_mem ((List.isChain_cons.1 hrest).1 negation hnegation))
        have hsignspan := hbefore.2.1
        simp only [start_tokenSpan, stop_tokenSpan, start_spanOf, stop_spanOf]
          at hchild hoperand hsignspan
        refine ⟨?_, ?_⟩
        · simp [extents]
          omega
        · simp [marks, Span.Apart]
          omega
      next =>
        simp only [start_spanOf, stop_spanOf] at hchild
        refine ⟨?_, ?_⟩
        · simp [extents]
          omega
        · simp [marks, Span.Apart]
          omega
    next => exact hplain

theorem succeeds_invertComparison (hq : q.IsProper) :
    ∀ x ∈ q.invertComparison, x.Succeeds q.snapshot := by
  intro x hx
  unfold invertComparison at hx
  split at hx
  next => cases hx
  next t around hpath =>
    split at hx
    next => cases hx
    next operator hoperator =>
      split at hx
      next => cases hx
      next inverse =>
        rw [List.mem_singleton.1 hx]
        have hmem : ∀ u ∈ t :: around, u ∈ q.file.tree.subtrees := fun u hu =>
          mem_subtrees_of_mem_path (List.mem_reverse.1 (hpath ▸ hu))
        have hchain := List.isChain_reverse.2 q.isChain_path
        rw [hpath] at hchain
        obtain ⟨hstart, hspan, hstop⟩ :=
          operator_within (hmem t List.mem_cons_self) (kind_of_operatorHere? hoperator)
        exact succeeds_propose hq (fit_negate (hmem t List.mem_cons_self)
          (fun u hu => hmem u (List.mem_cons_of_mem _ hu)) hchain hstart hspan hstop) _ _ _

/-! ### Swapping operands -/

theorem succeeds_swapOperands (hq : q.IsProper) :
    ∀ x ∈ q.swapOperands, x.Succeeds q.snapshot := by
  intro x hx
  unfold swapOperands at hx
  split at hx
  next => cases hx
  next t ht =>
    split at hx
    next operator left right hoperator hchildren =>
      have hmem := mem_subtrees_of_mem_path (mem_path_of_innermost? ht)
      have hlies := q.file.isOrdered.spanOf hmem
      have hnode := q.file.isOrdered.binary hmem (kind_of_operatorHere? hoperator) hchildren
      simp only [Span.inOrder_cons, Span.inOrder_nil, start_tokenSpan, stop_tokenSpan,
        start_spanOf, stop_spanOf] at hnode
      split at hx
      next => cases hx
      next instead =>
        dsimp only at hx
        split at hx
        next =>
          rw [List.mem_singleton.1 hx]
          refine succeeds_propose hq ⟨?_, ?_⟩ _ _ _
          · simp [extents]
            omega
          · simp [marks, Span.Apart]
            omega
        next =>
          rw [List.mem_singleton.1 hx]
          refine succeeds_propose hq ⟨?_, ?_⟩ _ _ _
          · simp [extents]
            omega
          · simp [marks, Span.Apart]
            omega
    next => cases hx

/-! ### Joining negations -/

/-- The signs and the operator keep apart, and the ends of the expression lie around them. -/
theorem fit_joinNegations {l r : SyntaxTree} {left right : Nat}
    (ht : t ∈ q.file.tree.subtrees) (hkind : t.label.kind = .binary i)
    (hchildren : t.children = [l, r]) (hl : l.label.kind = .unary left)
    (hr : r.label.kind = .unary right) (instead before after : Text) :
    Fit [.replace (q.file.tokenSpan i) instead, .remove (q.file.tokenSpan left),
      .remove (q.file.tokenSpan right), .insert (q.file.startOf t) before,
      .insert (q.file.stopOf t) after] q.file.text.length := by
  have hlies := q.file.isOrdered.spanOf ht
  have hnode := q.file.isOrdered.binary ht hkind hchildren
  have hl := sign_within (Rose.mem_subtrees_of_mem_children ht (by simp [hchildren])) hl
  have hr := sign_within (Rose.mem_subtrees_of_mem_children ht (by simp [hchildren])) hr
  have hl := hl.of_mem List.mem_cons_self
  have hr := hr.of_mem List.mem_cons_self
  simp only [Span.inOrder_cons, Span.inOrder_nil, start_tokenSpan, stop_tokenSpan,
    start_spanOf, stop_spanOf] at hnode hl hr
  refine ⟨?_, ?_⟩
  · simp [extents]
    omega
  · simp [marks, Span.Apart]
    omega

theorem succeeds_joinNegations (hq : q.IsProper) :
    ∀ x ∈ q.joinNegations, x.Succeeds q.snapshot := by
  intro x hx
  unfold joinNegations at hx
  split at hx
  next => cases hx
  next t depth ht =>
    split at hx
    next operator left right hoperator hsigns =>
      split at hx
      next =>
        rw [List.mem_singleton.1 hx]
        obtain ⟨u, us, hchildren, hleft, hus⟩ := List.map_eq_cons_iff.1 hsigns
        obtain ⟨v, vs, rfl, hright, hvs⟩ := List.map_eq_cons_iff.1 hus
        obtain rfl := List.map_eq_nil_iff.1 hvs
        have hmem := mem_subtrees_of_mem_outward (List.mem_of_find?_eq_some ht)
        exact succeeds_propose hq (fit_joinNegations hmem (kind_of_operatorHere? hoperator)
          hchildren (kind_of_negationSign? hleft) (kind_of_negationSign? hright) _ _ _) _ _ _
      next => cases hx
    next => cases hx

end Query

end Mend
