/-!
# Stable sorting

Lists are short here, so they are sorted by putting one item after the other in its place.  Items
that belong together keep their order.

## Main definitions

* `StableSort.place` — puts an item before the first one that it may stand before.
* `stableSort` — sorts a list; `stableSort_perm` and `pairwise_stableSort` say that it does, and
  `filter_stableSort` that items of one kind stay as they were.

## Main results

* `stableSort_filter` — items that are taken out of a list change the order of no others.
* `stableSort_map` — images are sorted as what they are images of.
-/

namespace Mend

variable {α : Type}

namespace StableSort

/-- Puts an item before the first one that it may stand before. -/
def place (mayPrecede : α → α → Bool) (x : α) : List α → List α
  | [] => [x]
  | y :: rest => if mayPrecede x y then x :: y :: rest else y :: place mayPrecede x rest

theorem place_perm (r : α → α → Bool) (x : α) (xs : List α) : (place r x xs).Perm (x :: xs) := by
  induction xs with
  | nil => exact .refl _
  | cons y ys ih =>
    rw [place]
    split
    · exact .refl _
    · exact (ih.cons y).trans (.swap x y ys)

end StableSort

/-- The items in order; those of which either may precede the other stay as they are. -/
def stableSort (mayPrecede : α → α → Bool) : List α → List α
  | [] => []
  | x :: rest => StableSort.place mayPrecede x (stableSort mayPrecede rest)

/-- Sorting loses and adds no item. -/
theorem stableSort_perm (r : α → α → Bool) (xs : List α) : (stableSort r xs).Perm xs := by
  induction xs with
  | nil => exact .refl _
  | cons x xs ih => exact (StableSort.place_perm r x _).trans (ih.cons x)

theorem StableSort.pairwise_place {r : α → α → Bool}
    (total : ∀ x y, r x y = false → r y x = true)
    (trans : ∀ x y z, r x y = true → r y z = true → r x z = true)
    (x : α) {xs : List α} (h : xs.Pairwise (r · · = true)) :
    (place r x xs).Pairwise (r · · = true) := by
  induction xs with
  | nil => simp [place]
  | cons y ys ih =>
    have ⟨hy, hys⟩ := List.pairwise_cons.1 h
    rw [place]
    split
    next hxy =>
      refine List.pairwise_cons.2 ⟨fun z hz => ?_, h⟩
      rcases List.mem_cons.1 hz with rfl | hz
      · exact hxy
      · exact trans x y z hxy (hy z hz)
    next hxy =>
      refine List.pairwise_cons.2 ⟨fun z hz => ?_, ih hys⟩
      rcases List.mem_cons.1 ((place_perm r x ys).mem_iff.1 hz) with rfl | hz
      · exact total _ _ (by simpa using hxy)
      · exact hy z hz

/-- Putting an item in its place moves it past no item of its kind. -/
theorem StableSort.filter_place {r : α → α → Bool} {p : α → Bool} {x : α} {xs : List α}
    (kind : p x = true → ∀ y ∈ xs, p y = true → r x y = true) :
    (place r x xs).filter p = (x :: xs).filter p := by
  induction xs with
  | nil => rfl
  | cons y ys ih =>
    rw [place]
    split
    next => rfl
    next hxy =>
      rw [List.filter_cons, ih fun hx z hz => kind hx z (List.mem_cons_of_mem y hz)]
      by_cases hx : p x = true
      · -- an item of the same kind would not have been passed
        have hy : ¬p y = true := fun hy => hxy (kind hx y List.mem_cons_self hy)
        simp [hx, hy]
      · simp [List.filter_cons, hx]

/-- Sorting leaves items of one kind, any of which may precede any other, as they were. -/
theorem filter_stableSort {r : α → α → Bool} {p : α → Bool} {xs : List α}
    (kind : ∀ x ∈ xs, ∀ y ∈ xs, p x = true → p y = true → r x y = true) :
    (stableSort r xs).filter p = xs.filter p := by
  induction xs with
  | nil => rfl
  | cons x xs ih =>
    have hfirst : p x = true → ∀ y ∈ stableSort r xs, p y = true → r x y = true := by
      intro hx y hy
      have hmem : y ∈ xs := (stableSort_perm r xs).mem_iff.1 hy
      exact kind x List.mem_cons_self y (List.mem_cons_of_mem x hmem) hx
    have hrest : ∀ y ∈ xs, ∀ z ∈ xs, p y = true → p z = true → r y z = true := by
      intro y hy z hz
      exact kind y (List.mem_cons_of_mem x hy) z (List.mem_cons_of_mem x hz)
    rw [stableSort, StableSort.filter_place hfirst, List.filter_cons, ih hrest, List.filter_cons]

/-- A sorted list is in order. -/
theorem pairwise_stableSort {r : α → α → Bool} (total : ∀ x y, r x y = false → r y x = true)
    (trans : ∀ x y z, r x y = true → r y z = true → r x z = true) (xs : List α) :
    (stableSort r xs).Pairwise (r · · = true) := by
  induction xs with
  | nil => exact .nil
  | cons x xs ih => exact StableSort.pairwise_place total trans x ih

/-! ### Sorting a part of a list -/

namespace StableSort

/-- An item that may stand before all others goes to the front. -/
theorem place_eq_cons {r : α → α → Bool} {x : α} {xs : List α} (h : ∀ y ∈ xs, r x y = true) :
    place r x xs = x :: xs := by
  cases xs with
  | nil => rfl
  | cons y ys => rw [place, if_pos (h y List.mem_cons_self)]

/-- An item that is taken out leaves what it was put among. -/
theorem filter_place_of_neg {r : α → α → Bool} {p : α → Bool} {x : α} (hx : ¬p x = true)
    (xs : List α) : (place r x xs).filter p = xs.filter p := by
  induction xs with
  | nil => exact List.filter_cons_of_neg hx
  | cons y ys ih =>
    rw [place]
    split
    · exact List.filter_cons_of_neg hx
    · rw [List.filter_cons, List.filter_cons, ih]

/-- An item finds the same place when others are taken out. -/
theorem place_filter {r : α → α → Bool} {p : α → Bool}
    (trans : ∀ x y z, r x y = true → r y z = true → r x z = true) {x : α} (hx : p x = true)
    {xs : List α} (h : xs.Pairwise (r · · = true)) :
    place r x (xs.filter p) = (place r x xs).filter p := by
  induction xs with
  | nil => rw [List.filter_nil, place, List.filter_cons_of_pos hx, List.filter_nil]
  | cons y ys ih =>
    obtain ⟨hy, hys⟩ := List.pairwise_cons.1 h
    rw [place]
    split
    next hxy =>
      -- nothing from here on may stand before the item
      have hall : ∀ z ∈ y :: ys, r x z = true := by
        intro z hz
        rcases List.mem_cons.1 hz with rfl | hz
        · exact hxy
        · exact trans x y z hxy (hy z hz)
      rw [List.filter_cons_of_pos hx]
      exact place_eq_cons fun z hz => hall z (List.mem_filter.1 hz).1
    next hxy =>
      by_cases hpy : p y = true
      · rw [List.filter_cons_of_pos hpy, List.filter_cons_of_pos hpy, place, if_neg hxy, ih hys]
      · rw [List.filter_cons_of_neg hpy, List.filter_cons_of_neg hpy, ih hys]

end StableSort

/-- Items that are taken out of a list change the order of no others. -/
theorem stableSort_filter {r : α → α → Bool} (total : ∀ x y, r x y = false → r y x = true)
    (trans : ∀ x y z, r x y = true → r y z = true → r x z = true) (p : α → Bool) (xs : List α) :
    stableSort r (xs.filter p) = (stableSort r xs).filter p := by
  induction xs with
  | nil => rfl
  | cons x xs ih =>
    rw [stableSort]
    by_cases hx : p x = true
    · rw [List.filter_cons_of_pos hx, stableSort, ih]
      exact StableSort.place_filter trans hx (pairwise_stableSort total trans xs)
    · rw [List.filter_cons_of_neg hx, ih, StableSort.filter_place_of_neg hx]

/-- Images are placed as what they are images of. -/
theorem StableSort.place_map {β : Type} (r : β → β → Bool) (f : α → β) (x : α) (xs : List α) :
    place r (f x) (xs.map f) = (place (fun x y => r (f x) (f y)) x xs).map f := by
  induction xs with
  | nil => rfl
  | cons y ys ih =>
    rw [List.map_cons, place, place]
    split
    · rfl
    · rw [ih, List.map_cons]

/-- Images are sorted as what they are images of. -/
theorem stableSort_map {β : Type} (r : β → β → Bool) (f : α → β) (xs : List α) :
    stableSort r (xs.map f) = (stableSort (fun x y => r (f x) (f y)) xs).map f := by
  induction xs with
  | nil => rfl
  | cons x xs ih => rw [List.map_cons, stableSort, ih, stableSort, StableSort.place_map]

end Mend
