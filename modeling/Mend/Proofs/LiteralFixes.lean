import Mend.Fix.Literal
import Mend.Fix.Rename
import Mend.Proofs.CursorPaths
import Mend.Proofs.FittingChanges

/-!
# Fixes for literals and names do not fail

A literal gets something before and after it, or its digits are exchanged.  A sign that goes and a
call that is taken away stand around the literal.  The uses of a name are tokens of their own.

## Main results

* `IntegerLiteral.length_digits_le` — the digits of an integer are a part of its spelling.
* `Query.exists_enclosingCall?` — the literal is a child of the call that is found around it.
* `Query.succeeds_wrapLiteral`, `Query.succeeds_translateString`, `Query.succeeds_signString`,
  `Query.succeeds_convertInteger`, `Query.succeeds_renameToCamelCase` — **the fixes do not fail.**
-/

namespace Mend

/-- The digits of an integer are a part of its spelling. -/
theorem IntegerLiteral.length_digits_le {spelling : Text} {l : IntegerLiteral}
    (h : read? spelling = some l) : l.digits.length ≤ spelling.length := by
  unfold read? at h
  dsimp only at h
  split at h
  next => cases h
  next =>
    split at h
    next =>
      split at h
      next =>
        cases h
        have hdrop : (spelling.reverse.dropWhile fun c => !isHexDigit c).length
            ≤ spelling.reverse.length := (List.dropWhile_sublist _).length_le
        rwa [List.length_reverse] at hdrop ⊢
      next => cases h
    next => cases h

namespace Query

open Change SourceCode

variable {q : Query} {t call : SyntaxTree} {i : Nat}

/-! ### Strings -/

/-- Text before and after a node fits the text of the file. -/
theorem fit_around (ht : t ∈ q.file.tree.subtrees) (before after : Text) :
    Fit [.insert (q.file.startOf t) before, .insert (q.file.stopOf t) after]
      q.file.text.length := by
  have hlies := q.file.isOrdered.spanOf ht
  refine ⟨?_, ?_⟩
  · simp [extents]
    omega
  · simp [marks, Span.Apart]
    omega

/-- The sign of a string is what a wrapper takes the place of. -/
theorem kind_of_wrapper? {name : String} (h : q.wrapper? t = some (name, some i)) :
    ∃ token, t.label.kind = .stringLiteral (some i) token := by
  unfold wrapper? at h
  split at h
  next sign hsign =>
    cases h
    unfold stringSign? at hsign
    split at hsign
    next token hkind =>
      cases hsign
      exact ⟨token, hkind⟩
    next => cases hsign
  next =>
    split at h
    · cases h
    · cases h

theorem succeeds_wrapLiteral (hq : q.IsProper) :
    ∀ x ∈ q.wrapLiteral, x.Succeeds q.snapshot := by
  intro x hx
  unfold wrapLiteral at hx
  split at hx
  next => cases hx
  next t ht =>
    have hmem := mem_subtrees_of_mem_path (mem_path_of_innermost? ht)
    split at hx
    next => cases hx
    next name sign hwrapper =>
      split at hx
      next => cases hx
      next =>
        rw [List.mem_singleton.1 hx]
        cases sign with
        -- without a sign nothing is taken out
        | none => exact succeeds_propose hq (fit_around hmem _ _) _ _ _
        | some i =>
          obtain ⟨token, hkind⟩ := kind_of_wrapper? hwrapper
          have hsign : q.file.tokenSpan i ∈ q.file.layoutSpans t := by
            simp [layoutSpans, Piece.layout, NodeKind.slots, TokenRun.interleave, hkind]
          have hlies := q.file.isOrdered.spanOf hmem
          have hsign := (q.file.isOrdered.node hmem).of_mem hsign
          simp only [start_tokenSpan, stop_tokenSpan] at hsign
          refine succeeds_propose hq ⟨?_, ?_⟩ _ _ _
          · simp [extents]
            omega
          · simp [marks, Span.Apart]
            omega

theorem succeeds_translateString (hq : q.IsProper) :
    ∀ x ∈ q.translateString, x.Succeeds q.snapshot := by
  intro x hx
  unfold translateString at hx
  split at hx
  next => cases hx
  next t ht =>
    split at hx
    next => cases hx
    next =>
      rw [List.mem_singleton.1 hx]
      have hmem := mem_subtrees_of_mem_path (mem_path_of_innermost? ht)
      exact succeeds_propose hq (fit_around hmem _ _) _ _ _

/-- The innermost node is a child of the call that is found around it. -/
theorem exists_enclosingCall? {name : String} (ht : q.innermost? = some t)
    (h : q.enclosingCall? = some (call, name)) : call ∈ q.path ∧ t ∈ call.children := by
  have hbefore : q.path.dropLast.getLast? = some call := by
    unfold enclosingCall? at h
    split at h
    next => cases h
    next u hu =>
      split at h
      next =>
        split at h
        next =>
          cases h
          exact hu
        next => cases h
      next => cases h
  obtain ⟨before, hsplit⟩ := List.getLast?_eq_some_iff.1 ht
  have hchain := q.isChain_path
  rw [hsplit, List.dropLast_concat] at hbefore
  rw [hsplit, List.isChain_append] at hchain
  rw [hsplit]
  exact ⟨List.mem_append_left _ (List.mem_of_getLast? hbefore),
    hchain.2.2 call hbefore t rfl⟩

theorem succeeds_signString (hq : q.IsProper) :
    ∀ x ∈ q.signString, x.Succeeds q.snapshot := by
  intro x hx
  unfold signString at hx
  split at hx
  next => cases hx
  next t ht =>
    split at hx
    next =>
      dsimp only at hx
      rw [List.mem_singleton.1 hx]
      have hmem := mem_subtrees_of_mem_path (mem_path_of_innermost? ht)
      have hlies := q.file.isOrdered.spanOf hmem
      refine succeeds_propose hq ?_ _ _ _
      split
      next call name hcall =>
        -- what is written before and after the string within the call around it goes
        obtain ⟨hcall, hchild⟩ := exists_enclosingCall? ht (Option.filter_eq_some_iff.1 hcall).1
        have hcall := mem_subtrees_of_mem_path hcall
        have hwhole := q.file.isOrdered.spanOf hcall
        have hwithin := (q.file.isOrdered.children hcall).of_mem (List.mem_map_of_mem hchild)
        simp only [start_spanOf, stop_spanOf] at hwithin
        refine ⟨?_, ?_⟩
        · simp [extents]
          omega
        · simp [marks, Span.Apart]
          omega
      next => exact fit_insert (by omega) _
    next => cases hx

/-! ### Integers -/

theorem succeeds_convertInteger (hq : q.IsProper) :
    ∀ x ∈ q.convertInteger, x.Succeeds q.snapshot := by
  intro x hx
  unfold convertInteger at hx
  split at hx
  next => cases hx
  next t ht =>
    split at hx
    next i hkind =>
      split at hx
      next =>
        split at hx
        next => cases hx
        next l hread =>
          obtain ⟨⟨radix, text⟩, -, rfl⟩ := List.mem_map.1 hx
          have hdigits := IntegerLiteral.length_digits_le hread
          have hspelled := q.file.isOrdered.tokenStart_add_length i
          have hlies := q.file.isOrdered.tokenSpan i
          refine succeeds_propose hq ⟨?_, ?_⟩ _ _ _
          · simp [extents]
            omega
          · simp [marks]
      next => cases hx
    next => cases hx

/-! ### Names -/

/-- The uses of a name come one after the other. -/
theorem pairwise_usesOf (f : ParsedFile) (i : Nat) : (f.usesOf i).Pairwise (· < ·) :=
  List.pairwise_lt_range.filter _

theorem succeeds_renameToCamelCase (hq : q.IsProper) :
    ∀ x ∈ q.renameToCamelCase, x.Succeeds q.snapshot := by
  intro x hx
  unfold renameToCamelCase at hx
  split at hx
  next => cases hx
  next i hi =>
    dsimp only at hx
    split at hx
    next =>
      rw [List.mem_singleton.1 hx]
      refine succeeds_propose hq ⟨?_, ?_⟩ _ _ _
      · intro c hc u hu
        obtain ⟨j, -, rfl⟩ := List.mem_map.1 hc
        obtain rfl := List.mem_singleton.1 hu
        exact q.file.isOrdered.tokenSpan j
      · -- two uses are two tokens, and the first of them stops before the second one starts
        rw [List.flatMap_map]
        refine List.pairwise_flatMap.2 ⟨fun j _ => List.pairwise_singleton _ _, ?_⟩
        refine (pairwise_usesOf q.file i).imp fun hlt s hs u hu => .inl ?_
        obtain rfl := List.mem_singleton.1 hs
        obtain rfl := List.mem_singleton.1 hu
        exact q.file.isOrdered.tokenStop_le_tokenStart hlt
    next => cases hx

end Query

end Mend
