import Mend.Code.SourceCode
import Mend.Proofs.ParsedStatements

/-!
# The nodes of a syntax tree

A syntax tree is numbered by the positions of its nodes in the list of all subtrees.  So a node is
known by its number, its parent is found by looking for its number among the children of all nodes,
and going from child to parent the numbers grow until the root is reached.

## Main definitions

* `SyntaxTree.IsLaid` — every node of a syntax tree is laid out.

## Main results

* `SyntaxTree.id_eq_of_getElem?_subtrees` — the number of a node is its position.
* `SyntaxTree.exists_parent`, `SyntaxTree.eq_of_mem_children` — every node but the root has a
  parent, and only one.
* `SyntaxTree.parentIn_of_mem_children` — the parent is found by the number of the child.
-/

namespace Mend

namespace SyntaxTree

/-- Every node of a tree is laid out. -/
def IsLaid (t : SyntaxTree) : Prop :=
  t.All fun n ns => n.toPiece.IsLaid (ns.map Node.toPiece)

/-! ### Runs of nodes -/

variable {t u p c : SyntaxTree}

/-- The children of a node follow each other within it. -/
theorem IsLaid.children (h : IsLaid t) (hp : p ∈ t.subtrees) :
    p.label.first ≤ p.label.last ∧
      (∀ c ∈ p.children, p.label.first ≤ c.label.first ∧ c.label.first ≤ c.label.last ∧
        c.label.last ≤ p.label.last) ∧
      p.children.Pairwise fun c d => c.label.last < d.label.first := by
  have hlaid : p.label.toPiece.IsLaid ((p.children.map Rose.label).map Node.toPiece) := h p hp
  rw [List.map_map] at hlaid
  exact ⟨hlaid.first_le_last, fun c hc => hlaid.within (List.mem_map_of_mem hc),
    List.pairwise_map.1 hlaid.pairwise⟩

/-- A subtree covers tokens that the tree covers. -/
theorem IsLaid.subtree (h : IsLaid t) (hu : u ∈ t.subtrees) :
    t.label.first ≤ u.label.first ∧ u.label.first ≤ u.label.last ∧ u.label.last ≤ t.label.last := by
  induction Rose.mem_subtrees_iff_reflTransGen.1 hu with
  | refl => exact ⟨Nat.le_refl _, (h.children hu).1, Nat.le_refl _⟩
  | tail hp hc ih =>
    have hp := Rose.mem_subtrees_iff_reflTransGen.2 hp
    have := ih hp
    have := (h.children hp).2.1 _ hc
    omega

/-! ### Numbers of nodes -/

theorem isLaid_ofPieces {t : PieceTree} (h : t.IsLaid) : (ofPieces t).IsLaid :=
  Rose.All.mapNumbered (g := Node.toPiece) (fun _ _ => rfl) h 0

theorem toPiece_label_ofPieces (t : PieceTree) : (ofPieces t).label.toPiece = t.label := by
  cases t with
  | node p ts => rfl

theorem map_id_subtrees_ofPieces (t : PieceTree) :
    (ofPieces t).subtrees.map SyntaxTree.id = List.range (ofPieces t).subtrees.length := by
  have hnumbered : Rose.IsNumbered Node.id 0 (ofPieces t).subtrees _ :=
    Rose.isNumbered_mapNumbered (fun _ _ => rfl) t 0
  rw [List.range_eq_range']
  exact hnumbered.2

/-- **The number of a node is its position.** -/
theorem id_eq_of_getElem?_subtrees {t : PieceTree} {i : Nat}
    (hi : (ofPieces t).subtrees[i]? = some u) : u.label.id = i := by
  have hid : ((ofPieces t).subtrees.map SyntaxTree.id)[i]? = some u.label.id := by
    rw [List.getElem?_map, hi]
    rfl
  rw [map_id_subtrees_ofPieces] at hid
  obtain ⟨hlt, heq⟩ := List.getElem?_eq_some_iff.1 hid
  rw [List.getElem_range] at heq
  exact heq.symm

/-- A node is found at its number. -/
theorem getElem?_subtrees_ofPieces {t : PieceTree} (hu : u ∈ (ofPieces t).subtrees) :
    (ofPieces t).subtrees[u.label.id]? = some u := by
  obtain ⟨i, hi⟩ := List.mem_iff_getElem?.1 hu
  rw [id_eq_of_getElem?_subtrees hi, hi]

/-- Nodes with the same number are the same. -/
theorem eq_of_id_eq {t : PieceTree} (hu : u ∈ (ofPieces t).subtrees)
    (hc : c ∈ (ofPieces t).subtrees) (hid : c.label.id = u.label.id) : c = u := by
  have h := getElem?_subtrees_ofPieces hc
  rw [hid, getElem?_subtrees_ofPieces hu] at h
  exact (Option.some.inj h).symm

theorem nodup_subtrees_ofPieces (t : PieceTree) : (ofPieces t).subtrees.Nodup :=
  List.Nodup.of_map SyntaxTree.id (map_id_subtrees_ofPieces t ▸ List.nodup_range)

/-- A child has a smaller number than its parent. -/
theorem id_lt_of_mem_children {t : PieceTree} (hp : p ∈ (ofPieces t).subtrees)
    (hc : c ∈ p.children) : c.label.id < p.label.id := by
  have hall : (ofPieces t).All fun n ns => ∀ m ∈ ns, Node.id m < Node.id n :=
    Rose.all_num_lt (fun _ _ => rfl) t 0
  exact hall p hp c.label (List.mem_map_of_mem hc)

/-- A node below another one has no larger number. -/
theorem id_le_of_mem_subtrees {t : PieceTree} (hp : p ∈ (ofPieces t).subtrees)
    (hu : u ∈ p.subtrees) : u.label.id ≤ p.label.id := by
  induction Rose.mem_subtrees_iff_reflTransGen.1 hu with
  | refl => exact Nat.le_refl _
  | tail hq hc ih =>
    have hq := Rose.mem_subtrees_iff_reflTransGen.2 hq
    have hlt := id_lt_of_mem_children (Rose.subtrees_subset hp hq) hc
    exact Nat.le_trans (Nat.le_of_lt hlt) (ih hq)

/-! ### Parents -/

/-- The root is no child. -/
theorem ne_root_of_mem_children {t : PieceTree} (hp : p ∈ (ofPieces t).subtrees)
    (hc : c ∈ p.children) : c ≠ ofPieces t := by
  rintro rfl
  exact absurd (id_lt_of_mem_children hp hc)
    (Nat.not_lt.2 (id_le_of_mem_subtrees (Rose.self_mem_subtrees _) hp))

/-- **Every node but the root has a parent.** -/
theorem exists_parent {t : PieceTree} (hu : u ∈ (ofPieces t).subtrees) (hne : u ≠ ofPieces t) :
    ∃ p ∈ (ofPieces t).subtrees, u ∈ p.children := by
  obtain ⟨_, ⟨p, hj, hk⟩, -⟩ := Rose.existsUnique_isChildAt (nodup_subtrees_ofPieces t) hu hne
  exact ⟨p, List.mem_of_getElem? hj, List.mem_of_getElem? hk⟩

/-- A node is a child of one node only. -/
theorem eq_of_mem_children {t : PieceTree} {q : SyntaxTree} (hp : p ∈ (ofPieces t).subtrees)
    (hq : q ∈ (ofPieces t).subtrees) (hcp : c ∈ p.children) (hcq : c ∈ q.children) : p = q := by
  obtain ⟨_, -, hunique⟩ := Rose.existsUnique_isChildAt (nodup_subtrees_ofPieces t)
    (Rose.mem_subtrees_of_mem_children hp hcp) (ne_root_of_mem_children hp hcp)
  obtain ⟨i, hi⟩ := List.mem_iff_getElem?.1 hp
  obtain ⟨j, hj⟩ := List.mem_iff_getElem?.1 hq
  obtain ⟨k, hk⟩ := List.mem_iff_getElem?.1 hcp
  obtain ⟨l, hl⟩ := List.mem_iff_getElem?.1 hcq
  have heq := (hunique (i, k) ⟨p, hi, hk⟩).trans (hunique (j, l) ⟨q, hj, hl⟩).symm
  rw [Prod.mk.injEq] at heq
  rw [heq.1, hj] at hi
  exact (Option.some.inj hi).symm

/-- The parent of a child is found by its number. -/
theorem parentIn_of_mem_children {t : PieceTree} (hp : p ∈ (ofPieces t).subtrees)
    (hc : c ∈ p.children) :
    Rose.parentIn (fun s => s.label.id == c.label.id) (ofPieces t).subtrees = some p := by
  -- the search succeeds, and what it finds has a child with this number
  have hfound :
      (Rose.parentIn (fun s => s.label.id == c.label.id) (ofPieces t).subtrees).isSome := by
    rw [Rose.parentIn, List.find?_isSome]
    exact ⟨p, hp, List.any_eq_true.2 ⟨c, hc, beq_self_eq_true _⟩⟩
  obtain ⟨q, hq⟩ := Option.isSome_iff_exists.1 hfound
  rw [Rose.parentIn] at hq
  have hany : (q.children.any fun s => s.label.id == c.label.id) = true := by
    simpa using List.find?_some hq
  obtain ⟨d, hd, hid⟩ := List.any_eq_true.1 hany
  have hqmem := List.mem_of_find?_eq_some hq
  obtain rfl : d = c := eq_of_id_eq (Rose.mem_subtrees_of_mem_children hp hc)
    (Rose.mem_subtrees_of_mem_children hqmem hd) (eq_of_beq hid)
  rw [Rose.parentIn, hq, eq_of_mem_children hp hqmem hc hd]

end SyntaxTree

end Mend
