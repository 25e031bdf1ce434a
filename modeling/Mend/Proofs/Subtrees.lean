import Mathlib.Data.List.Nodup
import Mathlib.Data.List.Perm.Basic
import Mathlib.Logic.Relation
import Mend.Code.Rose

/-!
# Subtrees and their numbers

The subtrees of a tree are listed each one after its own subtrees.  Every one of them but the tree
itself is a child of one that comes later, so when no subtree occurs twice, the places of the list
at which something is a child are one for each subtree but the last.

## Main definitions

* `Rose.All` — a property of every label, together with the labels of the children.
* `Rose.IsChildAt` — a tree is the child at some position of the subtree at some position.
* `Rose.IsNumbered` — trees that have the numbers from some number on.

## Main results

* `Rose.induct` — induction over a tree with a hypothesis for every child.
* `Rose.perm_subtrees` — the children of all subtrees are all subtrees but the root.
* `Rose.existsUnique_isChildAt` — **every subtree but the root is a child in one place only.**
* `Rose.isNumbered_mapNumbered`, `Rose.all_num_lt` — the numbers count the subtrees, and a child has
  a smaller one than its parent.
-/

namespace Mend

namespace Rose

variable {α β : Type}

/-- Induction over a tree, with a hypothesis for every child. -/
theorem induct {P : Rose α → Prop} (h : ∀ a ts, (∀ t ∈ ts, P t) → P (node a ts)) (t : Rose α) :
    P t := by
  induction t using Rose.rec (motive_2 := fun ts => ∀ t ∈ ts, P t) with
  | node a ts ih => exact h a ts ih
  | nil => rename_i ht; cases ht
  | cons t ts ih ihs =>
    rename_i u hu
    rcases List.mem_cons.1 hu with rfl | hu
    · exact ih
    · exact ihs u hu

/-! ### Membership -/

theorem subtreesAll_eq_flatMap (ts : List (Rose α)) : subtreesAll ts = ts.flatMap subtrees := by
  induction ts with
  | nil => rfl
  | cons t ts ih => rw [subtreesAll, ih, List.flatMap_cons]

/-- The subtrees of a node: those of its children, and then the node. -/
theorem subtrees_node (a : α) (ts : List (Rose α)) :
    (node a ts).subtrees = ts.flatMap subtrees ++ [node a ts] := by
  rw [subtrees, subtreesAll_eq_flatMap]

theorem mem_subtrees_node {a : α} {ts : List (Rose α)} {u : Rose α} :
    u ∈ (node a ts).subtrees ↔ (∃ t ∈ ts, u ∈ t.subtrees) ∨ u = node a ts := by
  rw [subtrees_node, List.mem_append, List.mem_flatMap, List.mem_singleton]

@[simp] theorem self_mem_subtrees (t : Rose α) : t ∈ t.subtrees := by
  cases t with
  | node a ts => exact mem_subtrees_node.2 (.inr rfl)

/-- The tree itself is the last of its subtrees. -/
@[simp] theorem getLast?_subtrees (t : Rose α) : t.subtrees.getLast? = some t := by
  cases t with
  | node a ts => rw [subtrees_node, List.getLast?_concat]

/-- The subtrees of a subtree are subtrees. -/
theorem subtrees_subset {t u : Rose α} (hu : u ∈ t.subtrees) : u.subtrees ⊆ t.subtrees := by
  induction t using induct with
  | h a ts ih =>
    rcases mem_subtrees_node.1 hu with ⟨t, ht, hu⟩ | rfl
    · exact fun v hv => mem_subtrees_node.2 (.inl ⟨t, ht, ih t ht hu hv⟩)
    · exact fun v hv => hv

/-- The children of a subtree are subtrees. -/
theorem mem_subtrees_of_mem_children {t p u : Rose α} (hp : p ∈ t.subtrees)
    (hu : u ∈ p.children) : u ∈ t.subtrees := by
  refine subtrees_subset hp ?_
  cases p with
  | node a ts => exact mem_subtrees_node.2 (.inl ⟨u, hu, self_mem_subtrees u⟩)

/-- The subtrees are what is reached by going down from child to child. -/
theorem mem_subtrees_iff_reflTransGen {t u : Rose α} :
    u ∈ t.subtrees ↔ Relation.ReflTransGen (fun p c : Rose α => c ∈ p.children) t u := by
  constructor
  · intro hu
    induction t using induct with
    | h a ts ih =>
      rcases mem_subtrees_node.1 hu with ⟨t, ht, hu⟩ | rfl
      · exact .head ht (ih t ht hu)
      · exact .refl
  · intro h
    induction h with
    | refl => exact self_mem_subtrees t
    | tail _ hc ih => exact mem_subtrees_of_mem_children ih hc

/-! ### Properties of all labels -/

/-- Every label has a property, which may look at the labels of the children too. -/
def All (P : α → List α → Prop) (t : Rose α) : Prop :=
  ∀ u ∈ t.subtrees, P u.label (u.children.map label)

theorem all_node {P : α → List α → Prop} {a : α} {ts : List (Rose α)} :
    (node a ts).All P ↔ P a (ts.map label) ∧ ∀ t ∈ ts, t.All P := by
  constructor
  · intro h
    exact ⟨h _ (self_mem_subtrees _),
      fun t ht u hu => h u (mem_subtrees_node.2 (.inl ⟨t, ht, hu⟩))⟩
  · rintro ⟨ha, hts⟩ u hu
    rcases mem_subtrees_node.1 hu with ⟨t, ht, hu⟩ | rfl
    · exact hts t ht u hu
    · exact ha

/-! ### Children -/

/-- **The children of all subtrees are all subtrees but the root.** -/
theorem perm_subtrees (t : Rose α) : (t.subtrees.flatMap children ++ [t]).Perm t.subtrees := by
  -- the subtrees of several trees are their children, and the trees
  have hall : ∀ ts : List (Rose α),
      (∀ t ∈ ts, (t.subtrees.flatMap children ++ [t]).Perm t.subtrees) →
      ((ts.flatMap subtrees).flatMap children ++ ts).Perm (ts.flatMap subtrees) := by
    intro ts
    induction ts with
    | nil => intro _; exact .refl _
    | cons t ts ihs =>
      intro ih
      have hhead := ih t List.mem_cons_self
      have htail := ihs fun u hu => ih u (List.mem_cons_of_mem _ hu)
      rw [List.flatMap_cons, List.flatMap_append, List.append_assoc]
      refine .trans ?_ (hhead.append htail)
      rw [List.append_assoc, List.singleton_append]
      exact List.perm_middle.append_left _
  induction t using induct with
  | h a ts ih =>
    rw [subtrees_node, List.flatMap_append, List.flatMap_singleton, children_node]
    exact (hall ts ih).append_right _

/-- No child of a subtree occurs twice, when no subtree does. -/
theorem nodup_children {t p : Rose α} (hnodup : t.subtrees.Nodup) (hp : p ∈ t.subtrees) :
    p.children.Nodup :=
  (List.nodup_flatMap.1 (List.nodup_append.1 (t.perm_subtrees.nodup_iff.2 hnodup)).1).1 p hp

/-- A tree is the child at position `k` of the subtree at position `j`. -/
def IsChildAt (t u : Rose α) (j k : Nat) : Prop :=
  ∃ p, t.subtrees[j]? = some p ∧ p.children[k]? = some u

/-- **Every subtree but the root is a child in one place only**, when no subtree occurs twice. -/
theorem existsUnique_isChildAt {t u : Rose α} (hnodup : t.subtrees.Nodup) (hu : u ∈ t.subtrees)
    (hne : u ≠ t) : ∃! jk : Nat × Nat, t.IsChildAt u jk.1 jk.2 := by
  have hperm := t.perm_subtrees
  have hchild : u ∈ t.subtrees.flatMap children := by
    rcases List.mem_append.1 (hperm.mem_iff.2 hu) with h | h
    · exact h
    · exact absurd (List.mem_singleton.1 h) hne
  obtain ⟨heach, hdisjoint⟩ :=
    List.nodup_flatMap.1 (List.nodup_append.1 (hperm.nodup_iff.2 hnodup)).1
  obtain ⟨p, hp, hup⟩ := List.mem_flatMap.1 hchild
  obtain ⟨j, hj⟩ := List.mem_iff_getElem?.1 hp
  obtain ⟨k, hk⟩ := List.mem_iff_getElem?.1 hup
  refine ⟨(j, k), ⟨p, hj, hk⟩, ?_⟩
  rintro ⟨j', k'⟩ ⟨p', hj', hk'⟩
  -- two subtrees at different positions share no child
  have hjj' : j' = j := by
    by_contra hne
    obtain ⟨hlt, rfl⟩ := List.getElem?_eq_some_iff.1 hj
    obtain ⟨hlt', rfl⟩ := List.getElem?_eq_some_iff.1 hj'
    have hpair := List.pairwise_iff_getElem.1 hdisjoint
    rcases Nat.lt_or_gt_of_ne hne with h | h
    · exact hpair j' j hlt' hlt h (List.mem_of_getElem? hk') hup
    · exact hpair j j' hlt hlt' h hup (List.mem_of_getElem? hk')
  subst hjj'
  obtain rfl : p' = p := Option.some.inj (hj'.symm.trans hj)
  obtain ⟨hlt, hget⟩ := List.getElem?_eq_some_iff.1 hk
  obtain ⟨hlt', hget'⟩ := List.getElem?_eq_some_iff.1 hk'
  rw [Prod.mk.injEq]
  exact ⟨rfl, (List.Nodup.getElem_inj_iff (heach p' hp)).1 (hget'.trans hget.symm)⟩

/-! ### Numbers -/

variable {f : Nat → α → β} {num : β → Nat}

/-- The trees of a list get the next free number each. -/
theorem exists_of_mem_mapNumberedAll {n : Nat} {ts : List (Rose α)} {u : Rose β}
    (hu : u ∈ (mapNumberedAll f n ts).1) : ∃ t ∈ ts, ∃ m, u = (t.mapNumbered f m).1 := by
  induction ts generalizing n with
  | nil => cases hu
  | cons t ts ih =>
    rcases List.mem_cons.1 hu with rfl | hu
    · exact ⟨t, List.mem_cons_self, n, rfl⟩
    · obtain ⟨v, hv, m, hm⟩ := ih hu
      exact ⟨v, List.mem_cons_of_mem _ hv, m, hm⟩

/-- A tree is numbered from `n` on when its subtrees have the numbers that follow, and the next
number is the one after them. -/
def IsNumbered (num : β → Nat) (n : Nat) (us : List (Rose β)) (next : Nat) : Prop :=
  next = n + us.length ∧ us.map (fun u => num u.label) = List.range' n us.length

/-- Numbered trees, and behind them others that have the numbers after theirs. -/
theorem IsNumbered.append {n next next' : Nat} {us vs : List (Rose β)}
    (h : IsNumbered num n us next) (h' : IsNumbered num next vs next') :
    IsNumbered num n (us ++ vs) next' := by
  obtain ⟨rfl, hus⟩ := h
  obtain ⟨rfl, hvs⟩ := h'
  rw [IsNumbered, List.map_append, hus, hvs, List.range'_append_1, List.length_append]
  exact ⟨Nat.add_assoc _ _ _, rfl⟩

/-- Trees that are numbered one by one are numbered together. -/
theorem isNumbered_mapNumberedAll_of {ts : List (Rose α)}
    (h : ∀ t ∈ ts, ∀ n, IsNumbered num n (t.mapNumbered f n).1.subtrees (t.mapNumbered f n).2)
    (n : Nat) : IsNumbered num n ((mapNumberedAll f n ts).1.flatMap subtrees)
      (mapNumberedAll f n ts).2 := by
  induction ts generalizing n with
  | nil => exact ⟨rfl, rfl⟩
  | cons t ts ih =>
    rw [mapNumberedAll, List.flatMap_cons]
    exact (h t List.mem_cons_self n).append (ih (fun u hu => h u (List.mem_cons_of_mem _ hu)) _)

/-- **The numbers count the subtrees.** -/
theorem isNumbered_mapNumbered (hnum : ∀ i a, num (f i a) = i) (t : Rose α) (n : Nat) :
    IsNumbered num n (t.mapNumbered f n).1.subtrees (t.mapNumbered f n).2 := by
  induction t using induct generalizing n with
  | h a ts ih =>
    rw [mapNumbered, subtrees_node]
    refine (isNumbered_mapNumberedAll_of ih n).append ⟨rfl, ?_⟩
    rw [List.map_singleton, label_node, hnum]
    rfl

/-- A child has a smaller number than its parent. -/
theorem all_num_lt (hnum : ∀ i a, num (f i a) = i) (t : Rose α) (n : Nat) :
    (t.mapNumbered f n).1.All fun b bs => ∀ c ∈ bs, num c < num b := by
  induction t using induct generalizing n with
  | h a ts ih =>
    refine all_node.2 ⟨?_, fun u hu => ?_⟩
    · intro c hc
      obtain ⟨u, hu, rfl⟩ := List.mem_map.1 hc
      obtain ⟨hnext, hnums⟩ :=
        isNumbered_mapNumberedAll_of (fun t _ => isNumbered_mapNumbered hnum t) n
      have hmem : num u.label ∈ List.range' n _ := hnums ▸ List.mem_map_of_mem
        (List.mem_flatMap.2 ⟨u, hu, self_mem_subtrees u⟩)
      rw [hnum, hnext]
      exact (List.mem_range'_1.1 hmem).2
    · obtain ⟨t, ht, m, rfl⟩ := exists_of_mem_mapNumberedAll hu
      exact ih t ht m

/-- The trees of a list keep their old labels under the new ones. -/
theorem map_label_mapNumberedAll {g : β → α} (hg : ∀ i a, g (f i a) = a) (ts : List (Rose α))
    (n : Nat) : ((mapNumberedAll f n ts).1.map label).map g = ts.map label := by
  induction ts generalizing n with
  | nil => rfl
  | cons t ts ih =>
    cases t with
    | node a us => simp only [mapNumberedAll, mapNumbered, List.map_cons, label_node, hg, ih]

/-- A property of old labels is one of the new labels. -/
theorem All.mapNumbered {g : β → α} (hg : ∀ i a, g (f i a) = a) {P : α → List α → Prop}
    {t : Rose α} (h : t.All P) (n : Nat) :
    (t.mapNumbered f n).1.All fun b bs => P (g b) (bs.map g) := by
  induction t using induct generalizing n with
  | h a ts ih =>
    obtain ⟨ha, hts⟩ := all_node.1 h
    refine all_node.2 ⟨?_, fun u hu => ?_⟩
    · rw [hg, map_label_mapNumberedAll hg]
      exact ha
    · obtain ⟨t, ht, m, rfl⟩ := exists_of_mem_mapNumberedAll hu
      exact ih t ht (hts t ht) m

end Rose

end Mend
