/-!
# Rose trees

A rose tree is a node with a label and any number of subtrees in order.

## Main definitions

* `Rose` — the trees, with `label` and `children`.
* `Rose.subtrees` — all subtrees, each one after its own subtrees.
* `Rose.fold` — a value for each tree from its label, its children and their values.
* `Rose.mapNumbered` — new labels, from old ones and the position among the subtrees.
* `Rose.pathWhere` — the way down to a subtree by a property of labels.
-/

namespace Mend

/-- A node with a label and subtrees in order. -/
inductive Rose (α : Type)
  /-- A node. -/
  | node (label : α) (children : List (Rose α))

namespace Rose

variable {α β : Type}

instance [Inhabited α] : Inhabited (Rose α) := ⟨.node default []⟩

/-- The label of the root. -/
def label : Rose α → α
  | node a _ => a

/-- The subtrees below the root. -/
def children : Rose α → List (Rose α)
  | node _ ts => ts

@[simp] theorem label_node (a : α) (ts : List (Rose α)) : (node a ts).label = a := rfl

@[simp] theorem children_node (a : α) (ts : List (Rose α)) : (node a ts).children = ts := rfl

/-! ### All subtrees -/

mutual

/-- All subtrees of a tree, each one after its own subtrees; the tree itself is the last. -/
def subtrees : Rose α → List (Rose α)
  | node a ts => subtreesAll ts ++ [node a ts]

/-- All subtrees of the trees of a list. -/
def subtreesAll : List (Rose α) → List (Rose α)
  | [] => []
  | t :: ts => subtrees t ++ subtreesAll ts

end

/-- The trees of a list of subtrees whose children hold a given one. -/
def parentIn (isChild : Rose α → Bool) (ts : List (Rose α)) : Option (Rose α) :=
  ts.find? fun t => t.children.any isChild

/-! ### Values from the leaves up -/

mutual

/-- A value for a tree, from its label, its children and their values. -/
def fold (f : α → List (Rose α × β) → β) : Rose α → β
  | node a ts => f a (foldAll f ts)

/-- The trees of a list with their values. -/
def foldAll (f : α → List (Rose α × β) → β) : List (Rose α) → List (Rose α × β)
  | [] => []
  | t :: ts => (t, fold f t) :: foldAll f ts

end

theorem foldAll_eq_map (f : α → List (Rose α × β) → β) (ts : List (Rose α)) :
    foldAll f ts = ts.map fun t => (t, fold f t) := by
  induction ts with
  | nil => rfl
  | cons t ts ih => simp [foldAll, ih]

/-- The value of a tree follows from the values of its children. -/
theorem fold_node (f : α → List (Rose α × β) → β) (a : α) (ts : List (Rose α)) :
    fold f (node a ts) = f a (ts.map fun t => (t, fold f t)) := by
  rw [fold, foldAll_eq_map]

/-! ### Numbering -/

mutual

/-- Gives each subtree a new label, from its old one and its position in the list of subtrees
when that list begins at `n`; with the position after the last one. -/
def mapNumbered (f : Nat → α → β) (n : Nat) : Rose α → Rose β × Nat
  | node a ts =>
    let r := mapNumberedAll f n ts
    (node (f r.2 a) r.1, r.2 + 1)

/-- Gives the subtrees of the trees of a list new labels. -/
def mapNumberedAll (f : Nat → α → β) (n : Nat) : List (Rose α) → List (Rose β) × Nat
  | [] => ([], n)
  | t :: ts =>
    let r := mapNumbered f n t
    let s := mapNumberedAll f r.2 ts
    (r.1 :: s.1, s.2)

end

/-! ### The way down -/

mutual

/-- The subtrees on the way down from the root, as long as their labels have a property.  Of
several children that have it, the way goes on with the first. -/
def pathWhere (p : α → Bool) : Rose α → List (Rose α)
  | node a ts => if p a then node a ts :: pathWhereAny p ts else []

/-- The way down from the first tree of a list whose label has the property. -/
def pathWhereAny (p : α → Bool) : List (Rose α) → List (Rose α)
  | [] => []
  | t :: ts => if p t.label then pathWhere p t else pathWhereAny p ts

end

/-- Every tree on the way down has the property. -/
theorem label_of_mem_pathWhere (p : α → Bool) (t : Rose α) :
    ∀ s ∈ pathWhere p t, p s.label = true := by
  induction t using Rose.rec
    (motive_2 := fun ts => ∀ s ∈ pathWhereAny p ts, p s.label = true) with
  | node a ts ih =>
    intro s hs
    rw [pathWhere] at hs
    split at hs
    next ha =>
      rcases List.mem_cons.1 hs with rfl | hs
      · exact ha
      · exact ih s hs
    next => simp at hs
  | nil => rename_i hs; simp [pathWhereAny] at hs
  | cons t ts ih ihs =>
    rename_i s hs
    rw [pathWhereAny] at hs
    split at hs
    · exact ih s hs
    · exact ihs s hs

end Rose

end Mend
