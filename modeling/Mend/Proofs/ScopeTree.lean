import Mathlib.Logic.Relation
import Mend.Proofs.SourcePositions

/-!
# The tree of scopes

Scopes are opened in the order of the text, each one within the scope that is open, so they form a
tree of spans.  While a file is walked through, every scope that was opened before either is around
the place of the walk or has been left, and then it stops before that place.  That is what makes two
scopes lie apart unless one of them is around the other.

## Main definitions

* `Span.Within` — one span in another.
* `Scope.IsParent`, `Scope.IsAround` — a scope around another one, directly or not.
* `Scope.Covers` — a span in a scope.
* `Scope.IsNested` — scopes that form a tree of spans.
* `Scope.IsSettled` — the scopes that are not around a place have been left before it.

## Main results

* `Scope.IsNested.concat` — **a scope that is opened where the walk is keeps the tree.**
* `Scope.IsSettled.leave` — a scope that is left stops before the place after it.
* `Scope.IsNested.lies_apart` — scopes neither of which is around the other do not overlap.
-/

namespace Mend

namespace Span

/-! ### Spans in spans -/

/-- One span lies in another one; both ends count. -/
def Within (s u : Span) : Prop := u.start ≤ s.start ∧ s.start ≤ s.stop ∧ s.stop ≤ u.stop

variable {s u v : Span} {lo hi : Nat} {ss : List Span}

theorem Within.trans (h : s.Within u) (h' : u.Within v) : s.Within v :=
  ⟨Nat.le_trans h'.1 h.1, h.2.1, Nat.le_trans h.2.2 h'.2.2⟩

/-- Spans in order stay so when the last offset moves back. -/
theorem InOrder.mono_right {hi' : Nat} (h : InOrder lo ss hi) (hhi : hi ≤ hi') :
    InOrder lo ss hi' := by
  induction ss generalizing lo with
  | nil => exact Nat.le_trans h hhi
  | cons s ss ih => exact ⟨h.1, h.2.1, ih h.2.2⟩

/-- Spans in order up to a last one. -/
theorem inOrder_append_singleton :
    InOrder lo (ss ++ [s]) hi ↔ InOrder lo ss s.start ∧ s.start ≤ s.stop ∧ s.stop ≤ hi := by
  induction ss generalizing lo with
  | nil => simp
  | cons u ss ih => simp [ih, and_assoc]

end Span

namespace Scope

variable {scopes scopes' : List Scope} {i j k o o' length : Nat} {s u : Scope} {span : Span}
  {kind : ScopeKind}

/-! ### Scopes around others -/

/-- The scope with a number stands right around another one. -/
def IsParent (scopes : List Scope) (i j : Nat) : Prop := (scopes[j]?).bind (·.parent) = some i

/-- The scope with a number stands around another one. -/
def IsAround (scopes : List Scope) : Nat → Nat → Prop := Relation.TransGen (IsParent scopes)

/-- A span lies in the scope with a number. -/
def Covers (scopes : List Scope) (i : Nat) (span : Span) : Prop :=
  ∃ s, scopes[i]? = some s ∧ span.Within s.span

theorem isParent_iff : IsParent scopes i j ↔ ∃ s, scopes[j]? = some s ∧ s.parent = some i := by
  simp [IsParent, Option.bind_eq_some_iff]

/-- A scope stays what it is when others are added. -/
theorem getElem?_of_isPrefix (h : scopes <+: scopes') (hs : scopes[i]? = some s) :
    scopes'[i]? = some s := by
  obtain ⟨added, rfl⟩ := h
  rw [List.getElem?_append_left (List.getElem?_eq_some_iff.1 hs).1, hs]

theorem IsParent.mono (hparent : IsParent scopes i j) (h : scopes <+: scopes') :
    IsParent scopes' i j := by
  obtain ⟨s, hs, hsparent⟩ := isParent_iff.1 hparent
  exact isParent_iff.2 ⟨s, getElem?_of_isPrefix h hs, hsparent⟩

theorem IsAround.mono (haround : IsAround scopes i j) (h : scopes <+: scopes') :
    IsAround scopes' i j :=
  Relation.TransGen.mono (fun _ _ hparent => IsParent.mono hparent h) _ _ haround

theorem Covers.mono (hcovers : Covers scopes i span) (h : scopes <+: scopes') :
    Covers scopes' i span := by
  obtain ⟨s, hs, hwithin⟩ := hcovers
  exact ⟨s, getElem?_of_isPrefix h hs, hwithin⟩

/-- What lies in a span lies in a scope that the span lies in. -/
theorem Covers.of_within {inner : Span} (h : Covers scopes i span) (hinner : inner.Within span) :
    Covers scopes i inner := by
  obtain ⟨s, hs, hwithin⟩ := h
  exact ⟨s, hs, hinner.trans hwithin⟩

/-! ### Nested scopes -/

/-- The scopes form a tree of spans: the first one is the whole file, every other one lies in an
earlier one, and a scope that is not around a later one stops before it starts. -/
structure IsNested (scopes : List Scope) (length : Nat) : Prop where
  /-- The first scope is the whole file. -/
  file : scopes[0]? = some ⟨.fileScope, ⟨0, length⟩, none⟩
  /-- Every other scope lies in an earlier one. -/
  parent : ∀ j s, scopes[j + 1]? = some s →
    ∃ i, s.parent = some i ∧ i ≤ j ∧ Covers scopes i s.span
  /-- An earlier scope is around a later one, or stops before it. -/
  apart : ∀ i j s u, i < j → scopes[i]? = some s → scopes[j]? = some u →
    IsAround scopes i j ∨ s.span.stop ≤ u.span.start

/-- Every scope is the one with a number, or around it, or has been left before an offset. -/
def IsSettled (scopes : List Scope) (i o : Nat) : Prop :=
  ∀ j s, scopes[j]? = some s → j = i ∨ IsAround scopes j i ∨ s.span.stop ≤ o

theorem IsSettled.mono (h : IsSettled scopes i o) (ho : o ≤ o') : IsSettled scopes i o' :=
  fun j s hs => (h j s hs).imp_right (.imp_right (Nat.le_trans · ho))

/-- The scopes before a new one are what they were, and the new one comes behind them. -/
theorem getElem?_concat_eq_some :
    (scopes ++ [s])[i]? = some u ↔ scopes[i]? = some u ∨ i = scopes.length ∧ u = s := by
  rcases Nat.lt_trichotomy i scopes.length with hlt | rfl | hgt
  · simp [List.getElem?_append_left hlt, Nat.ne_of_lt hlt]
  · simp [eq_comm]
  · have hnone : (scopes ++ [s])[i]? = none :=
      List.getElem?_eq_none (by simp only [List.length_append, List.length_singleton]; omega)
    simp [hnone, Nat.ne_of_gt hgt, Nat.le_of_lt hgt]

/-- The scope that is open stands right around a new one. -/
theorem isParent_concat : IsParent (scopes ++ [⟨kind, span, some i⟩]) i scopes.length :=
  isParent_iff.2 ⟨_, getElem?_concat_eq_some.2 (.inr ⟨rfl, rfl⟩), rfl⟩

/-- What was found before a scope is opened is around it, or has been left. -/
theorem IsSettled.around_or_left (h : IsSettled scopes i o) (ho : o ≤ span.start)
    (hs : scopes[j]? = some s) :
    IsAround (scopes ++ [⟨kind, span, some i⟩]) j scopes.length ∨ s.span.stop ≤ span.start := by
  rcases h j s hs with rfl | haround | hleft
  · exact .inl (.single isParent_concat)
  · exact .inl ((IsAround.mono haround (List.prefix_append _ _)).tail isParent_concat)
  · exact .inr (Nat.le_trans hleft ho)

/-- **A scope that is opened where the walk is keeps the tree.** -/
theorem IsNested.concat (h : IsNested scopes length) (hsettled : IsSettled scopes i o)
    (ho : o ≤ span.start) (hcovers : Covers scopes i span) :
    IsNested (scopes ++ [⟨kind, span, some i⟩]) length where
  file := getElem?_of_isPrefix (List.prefix_append _ _) h.file
  parent j s hs := by
    rcases getElem?_concat_eq_some.1 hs with hs | ⟨hj, rfl⟩
    · obtain ⟨k, hk, hkj, hin⟩ := h.parent j s hs
      exact ⟨k, hk, hkj, hin.mono (List.prefix_append _ _)⟩
    · obtain ⟨u, hu, -⟩ := id hcovers
      have hi := (List.getElem?_eq_some_iff.1 hu).1
      exact ⟨i, rfl, by omega, hcovers.mono (List.prefix_append _ _)⟩
  apart j k s u hjk hs hu := by
    have hj : j < scopes.length := by
      have := (List.getElem?_eq_some_iff.1 hu).1
      rw [List.length_append, List.length_singleton] at this
      omega
    have hs := (getElem?_concat_eq_some.1 hs).resolve_right fun h => Nat.ne_of_lt hj h.1
    rcases getElem?_concat_eq_some.1 hu with hu | ⟨rfl, rfl⟩
    · exact (h.apart j k s u hjk hs hu).imp_left (IsAround.mono · (List.prefix_append _ _))
    · exact hsettled.around_or_left ho hs

/-- The walk goes on in a scope that was opened. -/
theorem IsSettled.enter (h : IsSettled scopes i o) (ho : o ≤ span.start) :
    IsSettled (scopes ++ [⟨kind, span, some i⟩]) scopes.length span.start := by
  intro j s hs
  rcases getElem?_concat_eq_some.1 hs with hs | ⟨rfl, -⟩
  · exact .inr (h.around_or_left ho hs)
  · exact .inl rfl

/-- **A scope that is left stops before the place after it.** -/
theorem IsSettled.leave (h : IsSettled scopes k o) (hs : scopes[k]? = some s)
    (hparent : s.parent = some i) (ho : o ≤ s.span.stop) : IsSettled scopes i s.span.stop := by
  intro j u hu
  rcases h j u hu with rfl | haround | hleft
  · rw [hs] at hu
    cases hu
    exact .inr (.inr (Nat.le_refl _))
  · -- the last step goes from the scope that is open again
    obtain ⟨m, hjm, hmk⟩ := Relation.TransGen.tail'_iff.1 haround
    obtain ⟨v, hv, hvparent⟩ := isParent_iff.1 hmk
    rw [hs] at hv
    cases hv
    obtain rfl : m = i := Option.some.inj (hvparent.symm.trans hparent)
    rcases Relation.reflTransGen_iff_eq_or_transGen.1 hjm with heq | haround
    · exact .inl heq.symm
    · exact .inr (.inl haround)
  · exact .inr (.inr (Nat.le_trans hleft ho))

/-- **Scopes neither of which is around the other do not overlap.** -/
theorem IsNested.lies_apart (h : IsNested scopes length) (hne : i ≠ j)
    (hs : scopes[i]? = some s) (hu : scopes[j]? = some u) (hij : ¬IsAround scopes i j)
    (hji : ¬IsAround scopes j i) : s.span.stop ≤ u.span.start ∨ u.span.stop ≤ s.span.start := by
  rcases Nat.lt_or_gt_of_ne hne with hlt | hgt
  · exact .inl ((h.apart i j s u hlt hs hu).resolve_left hij)
  · exact .inr ((h.apart j i u s hgt hu hs).resolve_left hji)

/-- What stands right around a scope comes before it. -/
theorem IsNested.lt_of_isParent (h : IsNested scopes length) (hparent : IsParent scopes i j) :
    i < j := by
  obtain ⟨s, hs, hsparent⟩ := isParent_iff.1 hparent
  cases j with
  | zero =>
    rw [h.file] at hs
    cases hs
    cases hsparent
  | succ j =>
    obtain ⟨k, hk, hkj, -⟩ := h.parent j s hs
    obtain rfl : k = i := Option.some.inj (hk.symm.trans hsparent)
    omega

/-! ### The first scope -/

/-- The scope of the whole file alone. -/
theorem isNested_file (length : Nat) : IsNested [⟨.fileScope, ⟨0, length⟩, none⟩] length where
  file := rfl
  parent := nofun
  apart i j s u hij hs hu := by
    have hj := (List.getElem?_eq_some_iff.1 hu).1
    rw [List.length_singleton] at hj
    omega

theorem isSettled_file (length o : Nat) : IsSettled [⟨.fileScope, ⟨0, length⟩, none⟩] 0 o := by
  intro j s hs
  have hj := (List.getElem?_eq_some_iff.1 hs).1
  rw [List.length_singleton] at hj
  exact .inl (by omega)

end Scope

end Mend
