import Mathlib.Data.List.Chain
import Mend.Fix.Query
import Mend.Proofs.SourcePositions

/-!
# The nodes at a cursor

The nodes at a cursor are those on a way down the tree: each of them is a child of the one before
it.  So whatever a fix finds there is a node of the file, and what it finds further inward lies
within what it finds further outward.

## Main results

* `Rose.isChain_pathWhere` — **every tree on a way down is a child of the one before it.**
* `Rose.mem_subtrees_of_isChain` — what comes later on a way down lies within what comes before.
* `Query.mem_subtrees_of_mem_path` — the nodes at the cursor are nodes of the file.
-/

namespace Mend

/-! ### Ways down a tree -/

namespace Rose

variable {α : Type} {p : α → Bool} {t u v : Rose α} {us : List (Rose α)}

/-- A way down begins with the tree, and the way down from a list with one of its trees. -/
theorem head?_pathWhere (p : α → Bool) (t : Rose α) : ∀ u ∈ (t.pathWhere p).head?, u = t := by
  cases t with
  | node a ts =>
    rw [pathWhere]
    split <;> simp [eq_comm]

theorem head?_pathWhereAny (p : α → Bool) (ts : List (Rose α)) :
    ∀ u ∈ (pathWhereAny p ts).head?, u ∈ ts := by
  induction ts with
  | nil => simp [pathWhereAny]
  | cons t ts ih =>
    intro u hu
    rw [pathWhereAny] at hu
    split at hu
    next => exact head?_pathWhere p t u hu ▸ List.mem_cons_self
    next => exact List.mem_cons_of_mem _ (ih u hu)

/-- **Every tree on a way down is a child of the one before it.** -/
theorem isChain_pathWhere (p : α → Bool) (t : Rose α) :
    (t.pathWhere p).IsChain fun u v => v ∈ u.children := by
  -- together with the way down from a list of trees, which starts at the first that qualifies
  induction t using Rose.rec
    (motive_2 := fun ts => (pathWhereAny p ts).IsChain fun u v => v ∈ u.children) with
  | node a ts ih =>
    rw [pathWhere]
    split
    next => exact List.isChain_cons.2 ⟨head?_pathWhereAny p ts, ih⟩
    next => exact .nil
  | nil => exact .nil
  | cons t ts ih ihs =>
    rw [pathWhereAny]
    split
    next => exact ih
    next => exact ihs

/-- What comes later on a way down lies within what comes before. -/
theorem mem_subtrees_of_isChain (h : (t :: us).IsChain fun u v => v ∈ u.children)
    (hv : v ∈ us) : v ∈ t.subtrees := by
  induction us generalizing t with
  | nil => cases hv
  | cons u us ih =>
    obtain ⟨hu, hrest⟩ := List.isChain_cons_cons.1 h
    have hut : u ∈ t.subtrees := mem_subtrees_of_mem_children t.self_mem_subtrees hu
    rcases List.mem_cons.1 hv with rfl | hv
    · exact hut
    · exact subtrees_subset hut (ih hrest hv)

/-- The trees on a way down are subtrees. -/
theorem mem_subtrees_of_mem_pathWhere (hu : u ∈ t.pathWhere p) : u ∈ t.subtrees := by
  have hchain := isChain_pathWhere p t
  have hhead := head?_pathWhere p t
  cases hpath : t.pathWhere p with
  | nil =>
    rw [hpath] at hu
    cases hu
  | cons s us =>
    rw [hpath] at hu hchain hhead
    obtain rfl : s = t := hhead s rfl
    rcases List.mem_cons.1 hu with rfl | hu
    · exact u.self_mem_subtrees
    · exact mem_subtrees_of_isChain hchain hu

end Rose

/-! ### Queries -/

namespace Query

variable {q : Query} {t u : SyntaxTree} {depth : Nat}

/-- Each node at the cursor is a child of the one before it. -/
theorem isChain_path (q : Query) : q.path.IsChain fun u v => v ∈ u.children :=
  Rose.isChain_pathWhere _ _

/-- **The nodes at the cursor are nodes of the file.** -/
theorem mem_subtrees_of_mem_path (h : t ∈ q.path) : t ∈ q.file.tree.subtrees :=
  Rose.mem_subtrees_of_mem_pathWhere h

theorem mem_path_of_innermost? (h : q.innermost? = some t) : t ∈ q.path :=
  List.mem_of_getLast? h

/-- A node comes with its place among the nodes at the cursor. -/
theorem mem_outward_iff : (t, depth) ∈ q.outward ↔ q.path[depth]? = some t := by
  rw [outward, inward, List.mem_reverse, List.mem_zipIdx_iff_getElem?]

theorem mem_subtrees_of_mem_outward (h : (t, depth) ∈ q.outward) :
    t ∈ q.file.tree.subtrees :=
  mem_subtrees_of_mem_path (List.mem_of_getElem? (mem_outward_iff.1 h))

/-- The nodes further inward than a node lie within it, and the first of them is a child. -/
theorem isChain_drop_path (h : (t, depth) ∈ q.outward) :
    (t :: q.path.drop (depth + 1)).IsChain fun u v => v ∈ u.children := by
  obtain ⟨hlt, rfl⟩ := List.getElem?_eq_some_iff.1 (mem_outward_iff.1 h)
  rw [← List.drop_eq_getElem_cons hlt]
  exact q.isChain_path.drop depth

/-- What the nodes at the cursor decide is decided by one of them. -/
theorem exists_of_decideOutward {α : Type} {decision : SyntaxTree → Nat → Option (Option α)}
    {a : α} (h : q.decideOutward decision = some a) :
    ∃ t depth, (t, depth) ∈ q.outward ∧ decision t depth = some (some a) := by
  obtain ⟨⟨t, depth⟩, hmem, hdecides⟩ :=
    List.exists_of_findSome?_eq_some (Option.join_eq_some_iff.1 h)
  exact ⟨t, depth, hmem, hdecides⟩

end Query

end Mend
