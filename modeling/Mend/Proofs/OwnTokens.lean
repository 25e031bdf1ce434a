import Mathlib.Data.List.Pairwise
import Mend.Proofs.ParserRules

/-!
# The tokens of a node of its own

A node that is laid out covers its own tokens, and none of them lies in one of its children.  So a
token is the own token of one node of a tree at most, and a node is known by any of them.

## Main definitions

* `NodeKind.ownTokens` — the tokens of a node of its own.

## Main results

* `Piece.IsLaid.own` — the own tokens of a node lie beside its children.
* `PieceTree.IsLaid.eq_of_own` — **a token is the own token of one node at most.**
* `PieceTree.IsLaid.eq_or_mem_front` — a part that begins where a tree does is in its first child.
-/

namespace Mend

/-- The tokens of a node of its own. -/
def NodeKind.ownTokens (k : NodeKind) : List Nat := (k.slots []).flatMap (·.1)

/-- What the children are does not change the own tokens. -/
theorem NodeKind.flatMap_slots (k : NodeKind) (cs : List NodeKind) :
    (k.slots cs).flatMap (·.1) = k.ownTokens := by
  cases k <;> rfl

namespace TokenRun

/-- Tokens that are put between runs stay as they are, and so do the runs. -/
theorem interleave_perm (groups : List (List Nat × Nat)) (rs : List TokenRun) :
    (interleave groups rs).Perm ((groups.flatMap (·.1)).map single ++ rs) := by
  induction groups generalizing rs with
  | nil => exact .refl _
  | cons group groups ih =>
    obtain ⟨tokens, n⟩ := group
    rw [interleave, List.flatMap_cons, List.map_append, List.append_assoc]
    refine ((((ih (rs.drop n)).append_left (rs.take n)).trans ?_)).append_left _
    -- the runs that were taken come back to those that are left
    have hcomm : (rs.take n ++ ((groups.flatMap (·.1)).map single ++ rs.drop n)).Perm
        ((groups.flatMap (·.1)).map single ++ (rs.take n ++ rs.drop n)) := by
      rw [← List.append_assoc, ← List.append_assoc]
      exact List.perm_append_comm.append_right _
    rwa [List.take_append_drop] at hcomm

end TokenRun

/-- **The own tokens of a node lie beside its children.** -/
theorem Piece.IsLaid.own {p : Piece} {cs : List Piece} {i : Nat} (h : p.IsLaid cs)
    (hi : i ∈ p.kind.ownTokens) :
    p.first ≤ i ∧ i ≤ p.last ∧ ∀ c ∈ cs, i < c.first ∨ c.last < i := by
  have hperm := TokenRun.interleave_perm (p.kind.slots (cs.map kind)) (cs.map run)
  rw [NodeKind.flatMap_slots] at hperm
  have hmem : TokenRun.single i ∈ p.kind.ownTokens.map TokenRun.single := List.mem_map_of_mem hi
  obtain ⟨hfirst, -, hlast⟩ :=
    h.inOrder.of_mem (hperm.mem_iff.2 (List.mem_append_left _ hmem))
  refine ⟨hfirst, Nat.le_of_lt_succ hlast, fun c hc => ?_⟩
  have hapart : (p.layout cs).Pairwise fun r s => r.last < s.first ∨ s.last < r.first :=
    h.inOrder.pairwise.imp .inl
  have happend := (List.Perm.pairwise_iff (fun h => Or.symm h) hperm).1 hapart
  exact (List.pairwise_append.1 happend).2.2 _ hmem _ (List.mem_map_of_mem hc)

namespace PieceTree

variable {t u v : PieceTree} {i : Nat}

/-- A part lies in its tree. -/
theorem IsLaid.within (h : t.IsLaid) (hu : u ∈ t.subtrees) :
    t.label.first ≤ u.label.first ∧ u.label.first ≤ u.label.last ∧
      u.label.last ≤ t.label.last := by
  induction t using Rose.induct with
  | h p ts ih =>
    obtain ⟨hp, hts⟩ := Rose.all_node.1 h
    rcases Rose.mem_subtrees_node.1 hu with ⟨c, hc, hu⟩ | rfl
    · obtain ⟨hfirst, -, hlast⟩ := hp.within (List.mem_map_of_mem hc)
      obtain ⟨hfirst', hrun, hlast'⟩ := ih c hc (hts c hc) hu
      exact ⟨Nat.le_trans hfirst hfirst', hrun, Nat.le_trans hlast' hlast⟩
    · exact ⟨Nat.le_refl _, hp.first_le_last, Nat.le_refl _⟩

/-- A part of a tree that is laid out is laid out. -/
theorem IsLaid.of_mem (h : t.IsLaid) (hu : u ∈ t.subtrees) : u.IsLaid :=
  fun v hv => h v (Rose.subtrees_subset hu hv)

/-- A node covers its own tokens. -/
theorem IsLaid.own (h : t.IsLaid) (hu : u ∈ t.subtrees) (hi : i ∈ u.label.kind.ownTokens) :
    u.label.first ≤ i ∧ i ≤ u.label.last := by
  obtain ⟨hfirst, hlast, -⟩ := (h u hu).own hi
  exact ⟨hfirst, hlast⟩

/-- **A token is the own token of one node at most.** -/
theorem IsLaid.eq_of_own (h : t.IsLaid) (hu : u ∈ t.subtrees) (hv : v ∈ t.subtrees)
    (hiu : i ∈ u.label.kind.ownTokens) (hiv : i ∈ v.label.kind.ownTokens) : u = v := by
  induction t using Rose.induct with
  | h p ts ih =>
    obtain ⟨hp, hts⟩ := Rose.all_node.1 h
    replace hts : ∀ c ∈ ts, IsLaid c := hts
    -- a child covers the own tokens of the nodes in it, and none of those of the node above
    have hcover {c w : PieceTree} (hc : c ∈ ts) (hw : w ∈ c.subtrees)
        (hi : i ∈ w.label.kind.ownTokens) : c.label.first ≤ i ∧ i ≤ c.label.last := by
      obtain ⟨hfirst, -, hlast⟩ := (hts c hc).within hw
      obtain ⟨hfirst', hlast'⟩ := (hts c hc).own hw hi
      omega
    have habove {c w : PieceTree} (hc : c ∈ ts) (hw : w ∈ c.subtrees)
        (hi : i ∈ w.label.kind.ownTokens) : i ∉ p.kind.ownTokens := by
      intro hown
      obtain ⟨hfirst, hlast⟩ := hcover hc hw hi
      have hbeside := (hp.own hown).2.2 _ (List.mem_map_of_mem hc)
      omega
    rcases Rose.mem_subtrees_node.1 hu with ⟨c, hc, hu⟩ | rfl <;>
      rcases Rose.mem_subtrees_node.1 hv with ⟨d, hd, hv⟩ | rfl
    · -- both are in the same child, since children lie beside each other
      have hsame : c = d := by
        by_contra hne
        obtain ⟨hfirst, hlast⟩ := hcover hc hu hiu
        obtain ⟨hfirst', hlast'⟩ := hcover hd hv hiv
        let apart (c d : PieceTree) : Prop :=
          c.label.last < d.label.first ∨ d.label.last < c.label.first
        have hsymm : Std.Symm apart := ⟨fun _ _ h => Or.symm h⟩
        have hpairwise : ts.Pairwise apart := (List.pairwise_map.1 hp.pairwise).imp .inl
        have hapart : apart c d := hpairwise.forall hc hd hne
        simp only [apart] at hapart
        omega
      subst hsame
      exact ih c hc (hts c hc) hu hv
    · exact absurd hiv (habove hc hu hiu)
    · exact absurd hiu (habove hd hv hiv)
    · rfl

/-- **A part that begins where a tree does is in its first child**, or it is the tree. -/
theorem IsLaid.eq_or_mem_front {p : Piece} {cs : List PieceTree} (h : IsLaid (.node p cs))
    (hu : u ∈ (Rose.node p cs).subtrees) (hfirst : u.label.first = p.first) :
    u = .node p cs ∨ ∃ c cs', cs = c :: cs' ∧ u ∈ c.subtrees ∧ c.label.first = p.first := by
  obtain ⟨hp, hts⟩ := Rose.all_node.1 h
  replace hts : ∀ c ∈ cs, IsLaid c := hts
  rcases Rose.mem_subtrees_node.1 hu with ⟨c, hc, hin⟩ | hu
  · refine .inr ?_
    have hlow := (hp.within (List.mem_map_of_mem hc)).1
    have hhigh := ((hts c hc).within hin).1
    cases cs with
    | nil => cases hc
    | cons d cs =>
      rcases List.mem_cons.1 hc with rfl | hc
      · exact ⟨_, _, rfl, hin, by omega⟩
      · -- another child begins behind the first one
        have hpairwise := List.pairwise_map.1 hp.pairwise
        have hbehind := (List.pairwise_cons.1 hpairwise).1 c hc
        have hd := hp.within (List.mem_map_of_mem (f := Rose.label) (List.mem_cons_self (a := d)))
        omega
  · exact .inl hu

end PieceTree

end Mend
