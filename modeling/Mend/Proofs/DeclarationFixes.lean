import Mend.Fix.Declaration
import Mend.Proofs.CursorPaths
import Mend.Proofs.FittingChanges

/-!
# Fixes for declarations do not fail

The declarators of a declaration follow each other, so each of them can be moved behind the
declaration together with what separates it from the one before it.  A declaration in a condition
lies within the statement whose condition it is.  Only the type of a new variable may be unknown.

## Main results

* `Query.apart_splitOff` — splitting off declarators leaves marks that keep apart, by induction on
  the declarators.
* `Query.mem_subtrees_of_declaredInCondition?` — the declared name lies within the condition.
* `Query.succeeds_splitDeclaration`, `Query.succeeds_hoistFromIf`, `Query.succeeds_hoistFromWhile` —
  **the fixes do not fail.**
* `Query.succeeds_or_unresolvedType_declareLocal` — **nor does this one when the type is known.**
-/

namespace Mend

namespace Query

open Change SourceCode

variable {q : Query} {t d : SyntaxTree} {ds : List SyntaxTree}

/-! ### Splitting -/

/-- The changes that split off all declarators behind the first one. -/
def splitOffAll (q : Query) (specifiers : Span) (o : Nat) (d : SyntaxTree) (ds : List SyntaxTree) :
    List Change :=
  ((d :: ds).zip ds).flatMap fun p => q.splitOff specifiers o p.1 p.2

/-- Splitting off one declarator leaves marks that end with it, and the place where things are
put. -/
theorem eq_point_of_mem_marks_splitOff {specifiers s : Span} {o : Nat} {e : SyntaxTree}
    (hde : q.file.stopOf d ≤ q.file.startOf e) (he : q.file.startOf e ≤ q.file.stopOf e)
    (hs : s ∈ (q.splitOff specifiers o d e).flatMap marks) :
    (q.file.stopOf d ≤ s.start ∧ s.start ≤ s.stop ∧ s.stop ≤ q.file.stopOf e) ∨
      s = .point o := by
  simp only [splitOff, List.flatMap_cons, List.flatMap_nil, marks, List.cons_append,
    List.nil_append, List.mem_cons, List.not_mem_nil, or_false] at hs
  rcases hs with rfl | rfl | rfl | rfl | rfl | rfl | rfl
  · exact .inr rfl
  · exact .inr rfl
  · exact .inr rfl
  · exact .inl ⟨hde, he, Nat.le_refl _⟩
  · exact .inr rfl
  · exact .inr rfl
  · exact .inl ⟨Nat.le_refl _, hde, he⟩

/-- **Splitting off declarators leaves marks that keep apart.**  They lie behind the first
declarator and end with the declaration. -/
theorem apart_splitOff (specifiers : Span) {lo o : Nat}
    (h : Span.InOrder lo ((d :: ds).map q.file.spanOf) o) :
    ((q.splitOffAll specifiers o d ds).flatMap marks).Pairwise Span.Apart ∧
      ∀ s ∈ (q.splitOffAll specifiers o d ds).flatMap marks,
        q.file.stopOf d ≤ s.start ∧ s.start ≤ s.stop ∧ s.stop ≤ o := by
  -- along the declarators: each is split off from the one before it, which is told anew
  induction ds generalizing d lo with
  | nil => simp [splitOffAll]
  | cons e ds ih =>
    obtain ⟨-, -, hrest⟩ := h
    obtain ⟨hpairs, hwithin⟩ := ih hrest
    have hle : q.file.stopOf e ≤ o := hrest.2.2.le
    have hde : q.file.stopOf d ≤ q.file.startOf e := hrest.1
    have he : q.file.startOf e ≤ q.file.stopOf e := hrest.2.1
    have hcons : q.splitOffAll specifiers o d (e :: ds)
        = q.splitOff specifiers o d e ++ q.splitOffAll specifiers o e ds := rfl
    rw [hcons, List.flatMap_append]
    refine ⟨List.pairwise_append.2 ⟨?_, hpairs, ?_⟩, List.forall_mem_append.2 ⟨?_, ?_⟩⟩
    · simp [splitOff, marks, Span.Apart]
      omega
    · -- what one step does stops before what the later ones do, or is put behind the declaration
      intro s hs u hu
      obtain ⟨hstart, hspan, hstop⟩ := hwithin u hu
      rcases eq_point_of_mem_marks_splitOff hde he hs with ⟨-, -, hend⟩ | rfl
      · exact .inl (Nat.le_trans hend hstart)
      · exact .inr hstop
    · intro s hs
      rcases eq_point_of_mem_marks_splitOff hde he hs with ⟨hstart, hspan, hend⟩ | rfl
      · exact ⟨hstart, hspan, Nat.le_trans hend hle⟩
      · exact ⟨Nat.le_trans hde (Nat.le_trans he hle), Nat.le_refl o, Nat.le_refl o⟩
    · intro s hs
      obtain ⟨hstart, hspan, hstop⟩ := hwithin s hs
      exact ⟨Nat.le_trans (Nat.le_trans hde he) hstart, hspan, hstop⟩

/-- Splitting off declarators speaks of the specifiers and of its marks. -/
theorem extents_splitOffAll {specifiers u : Span} {o : Nat} {c : Change}
    (hc : c ∈ q.splitOffAll specifiers o d ds) (hu : u ∈ c.extents) :
    u = specifiers ∨ u ∈ c.marks := by
  obtain ⟨⟨before, declarator⟩, -, hc⟩ := List.mem_flatMap.1 hc
  simp only [splitOff, List.mem_cons, List.not_mem_nil, or_false] at hc
  rcases hc with rfl | rfl | rfl | rfl | rfl | rfl <;> simp_all [extents, marks]

/-- Splitting a declaration fits the text of the file. -/
theorem fit_splitOffAll {specifiers : Span} {lo o : Nat}
    (h : Span.InOrder lo ((d :: ds).map q.file.spanOf) o) (ho : o ≤ q.file.text.length)
    (hspecifiers : specifiers.start ≤ specifiers.stop ∧ specifiers.stop ≤ q.file.text.length) :
    Fit (q.splitOffAll specifiers o d ds) q.file.text.length := by
  obtain ⟨hpairs, hwithin⟩ := apart_splitOff specifiers h
  refine ⟨fun c hc u hu => ?_, hpairs⟩
  rcases extents_splitOffAll hc hu with rfl | hu
  · exact hspecifiers
  · obtain ⟨-, hspan, hstop⟩ := hwithin u (List.mem_flatMap.2 ⟨c, hc, hu⟩)
    exact ⟨hspan, Nat.le_trans hstop ho⟩

/-- The specifiers of a declaration lie within it. -/
theorem specifierSpan?_within {s : Span} (ht : t ∈ q.file.tree.subtrees)
    (h : q.specifierSpan? t = some s) :
    s.start ≤ s.stop ∧ s.stop ≤ q.file.stopOf t := by
  have hsub : t.specifiers.Sublist t.children := List.filter_sublist
  have horder := (q.file.isOrdered.children ht).sublist (hsub.map q.file.spanOf)
  unfold specifierSpan? at h
  split at h
  next first last hfirst hlast =>
    cases h
    obtain ⟨rest, hcons⟩ : ∃ rest, t.specifiers = first :: rest := by
      cases hlist : t.specifiers with
      | nil => simp [hlist] at hfirst
      | cons u us => exact ⟨us, by simpa [hlist] using hfirst⟩
    have hmem : last ∈ first :: rest := hcons ▸ List.mem_of_getLast? hlast
    have hlies := horder.of_mem (List.mem_map_of_mem (List.mem_of_getLast? hlast))
    rw [hcons] at horder
    refine ⟨?_, hlies.2.2⟩
    rcases List.mem_cons.1 hmem with rfl | hmem
    · exact hlies.2.1
    · have hbehind := horder.2.2.of_mem (List.mem_map_of_mem hmem)
      exact Nat.le_trans horder.2.1 (Nat.le_trans hbehind.1 hbehind.2.1)
  next => cases h

theorem succeeds_splitDeclaration (hq : q.IsProper) :
    ∀ x ∈ q.splitDeclaration, x.Succeeds q.snapshot := by
  intro x hx
  unfold splitDeclaration at hx
  dsimp only at hx
  split at hx
  next => cases hx
  next t depth ht =>
    split at hx
    next => cases hx
    next specifiers hspecifiers =>
      split at hx
      next =>
        rw [List.mem_singleton.1 hx]
        have hmem := mem_subtrees_of_mem_outward (List.mem_of_find?_eq_some ht)
        have hlies := q.file.isOrdered.spanOf hmem
        have hwithin := specifierSpan?_within hmem hspecifiers
        have hsub : t.declarators.Sublist t.children := List.filter_sublist
        have horder := (q.file.isOrdered.children hmem).sublist (hsub.map q.file.spanOf)
        refine succeeds_propose hq ?_ _ _ _
        cases hdeclarators : t.declarators with
        | nil => exact ⟨by simp, by simp⟩
        | cons d ds =>
          rw [hdeclarators] at horder
          exact fit_splitOffAll horder hlies.2 ⟨hwithin.1, Nat.le_trans hwithin.2 hlies.2⟩
      next => cases hx

/-! ### Hoisting -/

/-- The name that a condition declares lies within the condition. -/
theorem mem_subtrees_of_declaredInCondition? {condition name : SyntaxTree} {b : Bool}
    (h : declaredInCondition? condition = some (name, b)) : name ∈ condition.subtrees := by
  unfold declaredInCondition? at h
  split at h
  next =>
    split at h
    next d hd =>
      obtain ⟨n, hn, heq⟩ := Option.map_eq_some_iff.1 h
      cases heq
      have hd : d ∈ condition.children := List.mem_of_mem_filter (List.mem_of_mem_head? hd)
      have hn : name ∈ d.children := List.mem_of_find?_eq_some hn
      exact Rose.mem_subtrees_of_mem_children
        (Rose.mem_subtrees_of_mem_children condition.self_mem_subtrees hd) hn
    next => cases h
  next => cases h

/-- Where a declaration in the condition of a statement lies: the statement, its condition and the
declared name, from the outside in. -/
theorem condition_within {condition name : SyntaxTree} {rest : List SyntaxTree} {b : Bool}
    (ht : t ∈ q.file.tree.subtrees) (hchildren : t.children = condition :: rest)
    (hname : declaredInCondition? condition = some (name, b)) :
    q.file.startOf t ≤ q.file.startOf condition ∧
      q.file.startOf condition ≤ q.file.startOf name ∧ q.file.startOf name ≤ q.file.stopOf name ∧
      q.file.stopOf name ≤ q.file.stopOf condition ∧
      q.file.stopOf condition ≤ q.file.text.length := by
  have hmem : condition ∈ t.children := hchildren ▸ List.mem_cons_self
  have hcondition := Rose.mem_subtrees_of_mem_children ht hmem
  have hwithin := (q.file.isOrdered.children ht).of_mem (List.mem_map_of_mem hmem)
  have hlies := q.file.isOrdered.subtree hcondition (mem_subtrees_of_declaredInCondition? hname)
  exact ⟨hwithin.1, hlies.1, hlies.2.1, hlies.2.2, (q.file.isOrdered.spanOf hcondition).2⟩

theorem succeeds_hoistFromIf (hq : q.IsProper) :
    ∀ x ∈ q.hoistFromIf, x.Succeeds q.snapshot := by
  intro x hx
  rw [hoistFromIf, Option.mem_toList] at hx
  obtain ⟨t, depth, ht, hdecides⟩ := exists_of_decideOutward hx
  split at hdecides
  next condition rest _ hchildren =>
    split at hdecides
    next => cases hdecides
    next name b hname =>
      split at hdecides
      next =>
        cases hdecides
        have hlies := condition_within (mem_subtrees_of_mem_outward ht) hchildren hname
        refine succeeds_propose hq ⟨?_, ?_⟩ _ _ _
        · simp [extents]
          omega
        · simp [marks, Span.Apart]
          omega
      next => cases hdecides
  next => cases hdecides

theorem succeeds_hoistFromWhile (hq : q.IsProper) :
    ∀ x ∈ q.hoistFromWhile, x.Succeeds q.snapshot := by
  intro x hx
  rw [hoistFromWhile, Option.mem_toList] at hx
  obtain ⟨t, depth, ht, hdecides⟩ := exists_of_decideOutward hx
  split at hdecides
  next condition rest _ hchildren =>
    split at hdecides
    next => cases hdecides
    next => cases hdecides
    next name hname =>
      split at hdecides
      next =>
        cases hdecides
        have hlies := condition_within (mem_subtrees_of_mem_outward ht) hchildren hname
        refine succeeds_propose hq ⟨?_, ?_⟩ _ _ _
        · simp [extents]
          omega
        · simp [marks, Span.Apart]
          omega
      next => cases hdecides
  next => cases hdecides

/-! ### Declaring -/

/-- A new variable gets its type unless that is unknown. -/
theorem succeeds_or_unresolvedType_declareLocal (hq : q.IsProper) :
    ∀ x ∈ q.declareLocal,
      x.Succeeds q.snapshot ∨ ∃ e, x.patch = .error (.unresolvedType e) := by
  intro x hx
  rw [declareLocal, Option.mem_toList] at hx
  obtain ⟨t, depth, ht, hdecides⟩ := exists_of_decideOutward hx
  split at hdecides
  next left right _ _ =>
    split at hdecides
    next =>
      dsimp only at hdecides
      split at hdecides
      next =>
        cases hdecides
        have hlies := q.file.isOrdered.spanOf (mem_subtrees_of_mem_outward ht)
        dsimp only [Proposal.Succeeds, typePatch]
        split
        next => exact .inr ⟨_, rfl⟩
        next => exact .inr ⟨_, rfl⟩
        next => exact .inl (Patch.exists_ofChanges_eq_ok hq.file (fit_insert (by omega) _) _)
      next => cases hdecides
    next => cases hdecides
  next => cases hdecides

end Query

end Mend
