import Mend.Proofs.CursorPaths
import Mend.Proofs.ReadingEnds

/-!
# The nodes at an offset

On the way down to an offset the first child that holds the offset is taken, and none of its
siblings is looked at again.  At an offset within a token nothing is missed by this: the nodes that
hold the offset are those that cover the token, and of the children of a node one at most does.
Between two tokens that touch, the way goes on with the earlier child.

## Main definitions

* `SyntaxTree.CoversToken` — a token lies in the run of a node.
* `SourceCode.Holds` — an offset lies in a node or at one of its ends.

## Main results

* `Rose.mem_pathWhere_iff` — a way down meets all trees with a property, if the property passes to
  the parent and siblings do not share it.
* `SourceCode.holds_iff_of_within_token` — within a token, holding an offset is covering the token.
* `SourceCode.pathAt_finds_nodes` — **the nodes at an offset are a way down from the root that cannot
  be continued, and within a token they are all nodes that cover it.**
-/

namespace Mend

/-! ### The first child that qualifies -/

namespace Rose

variable {α : Type} {p : α → Bool} {t u : Rose α}

/-- The way down from a list is the one from the first tree that qualifies. -/
theorem pathWhereAny_eq (p : α → Bool) (ts : List (Rose α)) :
    pathWhereAny p ts = ((ts.find? fun t => p t.label).map (pathWhere p)).getD [] := by
  induction ts with
  | nil => rfl
  | cons t ts ih =>
    rw [pathWhereAny, List.find?_cons]
    cases p t.label with
    | true => rfl
    | false => exact ih

/-- The way down is empty if the root does not qualify. -/
theorem pathWhere_eq_nil_iff : t.pathWhere p = [] ↔ ¬p t.label = true := by
  cases t with
  | node a ts =>
    rw [pathWhere]
    split <;> simp_all

/-- The way down goes on as long as a child qualifies. -/
theorem not_of_mem_getLast?_pathWhere (h : u ∈ (t.pathWhere p).getLast?) :
    ∀ v ∈ u.children, ¬p v.label = true := by
  induction t using induct with
  | h a ts ih =>
    rw [pathWhere] at h
    split at h
    case isFalse => simp at h
    case isTrue =>
      rw [pathWhereAny_eq] at h
      cases hfind : ts.find? fun t => p t.label with
      | none =>
        rw [hfind] at h
        obtain rfl : node a ts = u := by simpa using h
        exact List.find?_eq_none.1 hfind
      | some t =>
        have hne : t.pathWhere p ≠ [] := fun hnil =>
          pathWhere_eq_nil_iff.1 hnil (by simpa using List.find?_some hfind)
        rw [hfind, Option.map_some, Option.getD_some, List.getLast?_cons_of_ne_nil hne] at h
        exact ih t (List.mem_of_find?_eq_some hfind) h

/-- **A way down meets all trees with a property**, if the property of a child is one of its parent
and if no two children of one tree have it. -/
theorem mem_pathWhere_iff
    (hup : ∀ s ∈ t.subtrees, ∀ v ∈ s.subtrees, p v.label = true → p s.label = true)
    (hone : ∀ s ∈ t.subtrees, ∀ v ∈ s.children, ∀ w ∈ s.children,
      p v.label = true → p w.label = true → v = w) :
    u ∈ t.pathWhere p ↔ u ∈ t.subtrees ∧ p u.label = true := by
  refine ⟨fun hu => ⟨mem_subtrees_of_mem_pathWhere hu, label_of_mem_pathWhere p t u hu⟩, ?_⟩
  rintro ⟨hu, hp⟩
  induction t using induct with
  | h a ts ih =>
    have ha : p a = true := hup _ (self_mem_subtrees _) u hu hp
    rw [pathWhere, if_pos ha]
    rcases mem_subtrees_node.1 hu with ⟨v, hv, huv⟩ | rfl
    case inr => exact List.mem_cons_self
    case inl =>
      -- the tree lies below a child that qualifies, and the search finds no other child
      have hsub : ∀ s ∈ v.subtrees, s ∈ (node a ts).subtrees := fun s hs =>
        mem_subtrees_node.2 (.inl ⟨v, hv, hs⟩)
      have hpv : p v.label = true := hup v (hsub v v.self_mem_subtrees) u huv hp
      obtain ⟨w, hw⟩ : ∃ w, ts.find? (fun t => p t.label) = some w :=
        Option.isSome_iff_exists.1 (List.find?_isSome.2 ⟨v, hv, hpv⟩)
      have hpw : p w.label = true := by simpa using List.find?_some hw
      obtain rfl : w = v :=
        hone _ (self_mem_subtrees _) w (List.mem_of_find?_eq_some hw) v hv hpw hpv
      rw [pathWhereAny_eq, hw]
      exact List.mem_cons_of_mem _ (ih w hv (fun s hs => hup s (hsub s hs))
        (fun s hs => hone s (hsub s hs)) huv)

end Rose

namespace SyntaxTree

/-! ### Covering a token -/

/-- A node covers the tokens from its first one to its last one. -/
def CoversToken (u : SyntaxTree) (i : Nat) : Prop := u.first ≤ i ∧ i ≤ u.last

namespace IsLaid

variable {t p u v : SyntaxTree} {i : Nat}

/-- What covers a token lies in nothing but nodes that cover it. -/
theorem coversToken_of_mem_subtrees (h : IsLaid t) (hu : u ∈ t.subtrees) (hv : v ∈ u.subtrees)
    (hi : CoversToken v i) : CoversToken u i := by
  have hlaid : IsLaid u := fun w hw => h w (Rose.subtrees_subset hu hw)
  obtain ⟨hfirst, -, hlast⟩ := hlaid.subtree hv
  exact ⟨Nat.le_trans hfirst hi.1, Nat.le_trans hi.2 hlast⟩

/-- One child of a node at most covers a token. -/
theorem eq_of_coversToken (h : IsLaid t) (hp : p ∈ t.subtrees) (hu : u ∈ p.children)
    (hv : v ∈ p.children) (hui : CoversToken u i) (hvi : CoversToken v i) : u = v := by
  obtain ⟨-, -, hpairwise⟩ := h.children hp
  have happart : ∀ a b : SyntaxTree, a.label.last < b.label.first →
      ¬(CoversToken a i ∧ CoversToken b i) := by
    rintro a b hab ⟨⟨-, ha⟩, hb, -⟩
    exact absurd (Nat.le_trans hb ha) (Nat.not_le.2 hab)
  exact List.Pairwise.forall_of_forall_of_flip
    (R := fun a b => CoversToken a i → CoversToken b i → a = b)
    (fun _ _ _ _ => rfl) (hpairwise.imp fun hab ha hb => (happart _ _ hab ⟨ha, hb⟩).elim)
    (hpairwise.imp fun hab hb ha => (happart _ _ hab ⟨ha, hb⟩).elim) hu hv hui hvi

end IsLaid

end SyntaxTree

namespace SourceCode

variable {c : SourceCode} {t : Text} {u v : SyntaxTree} {o i : Nat}

/-! ### Nodes that hold an offset -/

/-- An offset lies in a node, between the start of its first token and the end of its last one, or
at one of these ends. -/
def Holds (c : SourceCode) (u : SyntaxTree) (o : Nat) : Prop :=
  ∃ a b, c.tokens[u.first]? = some a ∧ c.tokens[u.last]? = some b ∧ a.start ≤ o ∧ o ≤ b.stop

theorem isOnNode_iff_holds : c.isOnNode o u.label = true ↔ c.Holds u o := by
  unfold isOnNode Holds
  split
  next a b ha hb =>
    rw [decide_eq_true_iff]
    constructor
    · exact fun h => ⟨a, b, ha, hb, h⟩
    · rintro ⟨a', b', ha', hb', h⟩
      obtain rfl : a = a' := Option.some.inj (ha.symm.trans ha')
      obtain rfl : b = b' := Option.some.inj (hb.symm.trans hb')
      exact h
  next hnone =>
    refine ⟨fun h => (Bool.false_ne_true h).elim, ?_⟩
    rintro ⟨a, b, ha, hb, -⟩
    exact (hnone a b ha hb).elim

/-- A node whose tokens exist holds the offsets that its span touches. -/
theorem holds_iff_touches (h : c.IsOrdered) (hu : u ∈ c.nodes) (hlast : u.last < c.tokens.size) :
    c.Holds u o ↔ (c.spanOf u).Touches o := by
  have hrun : u.first ≤ u.last := (h.tree.subtree hu).2.1
  have hfirst : u.first < c.tokens.size := Nat.lt_of_le_of_lt hrun hlast
  simp only [Holds, Span.Touches, start_spanOf, stop_spanOf, startOf, stopOf, tokenStart, tokenStop,
    Array.getElem?_eq_getElem hfirst, Array.getElem?_eq_getElem hlast, Option.some.injEq]
  exact ⟨by rintro ⟨_, _, rfl, rfl, h⟩; exact h, fun h => ⟨_, _, rfl, rfl, h⟩⟩

/-- A token that has an offset within it exists. -/
theorem lt_size_of_within_token (hstart : c.tokenStart i < o) (hstop : o < c.tokenStop i) :
    i < c.tokens.size := by
  by_contra hge
  have hnone : c.tokens[i]? = none := Array.getElem?_eq_none (Nat.le_of_not_lt hge)
  rw [tokenStart, hnone] at hstart
  rw [tokenStop, hnone] at hstop
  exact Nat.lt_asymm hstart hstop

/-- **Within a token, holding an offset is covering the token.** -/
theorem holds_iff_of_within_token (hc : c.IsOrdered) (hw : c.IsWithin) (hu : u ∈ c.nodes)
    (hstart : c.tokenStart i < o) (hstop : o < c.tokenStop i) :
    c.Holds u o ↔ u.CoversToken i := by
  have htokens : c.tokens.toList ≠ [] := by
    intro hnil
    have hi := lt_size_of_within_token hstart hstop
    rw [← Array.length_toList, hnil] at hi
    exact Nat.not_lt_zero i hi
  rw [holds_iff_touches hc hu (hw.runs htokens u hu).2.1]
  constructor
  · rintro ⟨hleft, hright⟩
    constructor
    · by_contra hlt
      have hbefore : c.tokenStop i ≤ c.startOf u :=
        hc.tokenStop_le_tokenStart (Nat.lt_of_not_le hlt)
      exact absurd (Nat.lt_of_lt_of_le hstop hbefore) (Nat.not_lt.2 hleft)
    · by_contra hlt
      have hafter : c.stopOf u ≤ c.tokenStart i :=
        hc.tokenStop_le_tokenStart (Nat.lt_of_not_le hlt)
      exact absurd (Nat.lt_of_le_of_lt hafter hstart) (Nat.not_lt.2 hright)
  · rintro ⟨hfirst, hlast⟩
    constructor
    · exact Nat.le_trans (hc.tokenStart_mono hfirst) (Nat.le_of_lt hstart)
    · exact Nat.le_trans (Nat.le_of_lt hstop) (hc.tokenStop_mono hlast)

/-! ### Parents -/

/-- The parent of a child is found. -/
theorem parent?_of_mem_children (h : ofText t = .ok c) (hu : u ∈ c.nodes) (hv : v ∈ u.children) :
    c.parent? v = some u := by
  obtain ⟨L, p, -, -, rfl⟩ := ofText_eq_ok_iff.1 h
  exact SyntaxTree.parentIn_of_mem_children hu hv

/-! ### The nodes at an offset -/

/-- **The nodes at an offset.**  They are a way down from the root, from parent to child, which is
empty if the root does not hold the offset; all of them hold it, and no child of the last one does.
At an offset within a token they are the nodes that cover the token. -/
theorem pathAt_finds_nodes (h : ofText t = .ok c) (o : Nat) :
    (c.pathAt o = [] ↔ ¬c.Holds c.tree o) ∧
      (∀ u ∈ (c.pathAt o).head?, u = c.tree) ∧
      (c.pathAt o).IsChain (fun u v => v ∈ u.children ∧ c.parent? v = some u) ∧
      (∀ u ∈ c.pathAt o, c.Holds u o) ∧
      (∀ u ∈ (c.pathAt o).getLast?, ∀ v ∈ u.children, ¬c.Holds v o) ∧
      ∀ i, c.tokenStart i < o → o < c.tokenStop i →
        ∀ u, u ∈ c.pathAt o ↔ u ∈ c.nodes ∧ u.CoversToken i := by
  have hc := isOrdered_of_ofText_eq_ok h
  have hw := isWithin_of_ofText_eq_ok h
  refine ⟨?empty, Rose.head?_pathWhere _ _, ?chain, ?holds, ?last, ?within⟩
  case empty => rw [← isOnNode_iff_holds]; exact Rose.pathWhere_eq_nil_iff
  case chain =>
    refine List.IsChain.imp_of_mem_imp (fun u v hu _ hv => ⟨hv, ?_⟩) (Rose.isChain_pathWhere _ _)
    exact parent?_of_mem_children h (Rose.mem_subtrees_of_mem_pathWhere hu) hv
  case holds => exact fun u hu => isOnNode_iff_holds.1 (Rose.label_of_mem_pathWhere _ _ u hu)
  case last =>
    intro u hu v hv
    rw [← isOnNode_iff_holds]
    exact Rose.not_of_mem_getLast?_pathWhere hu v hv
  case within =>
    intro i hstart hstop u
    have hcovers : ∀ u ∈ c.nodes, c.isOnNode o u.label = true ↔ u.CoversToken i :=
      fun u hu => isOnNode_iff_holds.trans (holds_iff_of_within_token hc hw hu hstart hstop)
    rw [pathAt, Rose.mem_pathWhere_iff ?up ?one]
    case up =>
      intro s hs v hv hp
      exact (hcovers s hs).2 (hc.tree.coversToken_of_mem_subtrees hs hv
        ((hcovers v (Rose.subtrees_subset hs hv)).1 hp))
    case one =>
      intro s hs v hv w hw hpv hpw
      exact hc.tree.eq_of_coversToken hs hv hw
        ((hcovers v (Rose.mem_subtrees_of_mem_children hs hv)).1 hpv)
        ((hcovers w (Rose.mem_subtrees_of_mem_children hs hw)).1 hpw)
    exact and_congr_right fun hu => hcovers u hu

/-- A declaration of one name: the nodes within the name are the five on the way down to it. -/
theorem pathAt_finds_nodes_declaration :
    ∃ c, ofText "int total;".toList = .ok c ∧
      (c.pathAt 6).map SyntaxTree.id = [5, 4, 3, 2, 1] ∧
      ∀ u, u ∈ c.pathAt 6 ↔ u ∈ c.nodes ∧ u.CoversToken 1 := by
  obtain ⟨c, hread, hids, hstart, hstop⟩ : ∃ c, ofText "int total;".toList = .ok c ∧
      (c.pathAt 6).map SyntaxTree.id = [5, 4, 3, 2, 1] ∧
      c.tokenStart 1 < 6 ∧ 6 < c.tokenStop 1 := exists_of_map_decide (by decide +kernel)
  obtain ⟨-, -, -, -, -, hwithin⟩ := pathAt_finds_nodes hread 6
  exact ⟨c, hread, hids, hwithin 1 hstart hstop⟩

end SourceCode

end Mend
