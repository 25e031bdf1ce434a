import Mend.Proofs.Weave

/-!
# Weaving stretch by stretch

A woven text can be read off from its beginning to its end: a stretch where nothing is put and
nothing is gone stays as it is, and at every other offset stands what is put there.

## Main definitions

* `Text.weaveFrom` — weaving the rest of a text, from some offset on.

## Main results

* `Text.weave_eq_weaveFrom` — weaving a text is weaving it from its beginning on.
* `Text.weaveFrom_append` — **a stretch where nothing happens stays as it is.**
* `Text.weaveFrom_append_of_put`, `Text.weaveFrom_append_of_gone` — a stretch before which something
  is put, and one that is gone.
* `Change.weave_eq_applyFrom` — changes make of a text what edits make of it that do the same.
-/

namespace Mend

namespace Text

variable {put : Nat → Text} {gone : Nat → Prop} [DecidablePred gone] {o : Nat} {c : Char}
  {t u v : Text}

/-- Weaving a text that lies at an offset: at each offset stands what is put there, and then the
character, unless it is gone. -/
def weaveFrom (put : Nat → Text) (gone : Nat → Prop) [DecidablePred gone] : Nat → Text → Text
  | o, [] => put o
  | o, c :: t => put o ++ ((if gone o then [] else [c]) ++ weaveFrom put gone (o + 1) t)

theorem flatMap_range'_weaveAt (t : Text) (hu : t.drop o = u) :
    (List.range' o (u.length + 1)).flatMap (weaveAt t put gone) = weaveFrom put gone o u := by
  induction u generalizing o with
  | nil =>
    have hnone : t[o]? = none := List.getElem?_eq_none (List.drop_eq_nil_iff.1 hu)
    simp [weaveFrom, weaveAt, hnone]
  | cons c u ih =>
    have hsome : t[o]? = some c := by
      rw [← List.head?_drop, hu]
      rfl
    have hrest : t.drop (o + 1) = u := by rw [← List.tail_drop, hu, List.tail_cons]
    rw [List.length_cons, List.range'_succ, List.flatMap_cons, ih hrest, weaveAt, hsome, weaveFrom,
      List.append_assoc]
    rfl

/-- Weaving a text is weaving it from its beginning on. -/
theorem weave_eq_weaveFrom (t : Text) : weave t put gone = weaveFrom put gone 0 t := by
  rw [weave, List.range_eq_range']
  exact flatMap_range'_weaveAt t List.drop_zero

/-- **A stretch where nothing happens stays as it is.** -/
theorem weaveFrom_append (h : ∀ p, o ≤ p → p < o + u.length → put p = [] ∧ ¬gone p) :
    weaveFrom put gone o (u ++ v) = u ++ weaveFrom put gone (o + u.length) v := by
  induction u generalizing o with
  | nil => rfl
  | cons c u ih =>
    obtain ⟨hput, hgone⟩ := h o (Nat.le_refl o) (by simp)
    rw [List.cons_append, weaveFrom, hput, if_neg hgone,
      ih fun p hp hp' => h p (Nat.le_of_succ_le hp) (by rw [List.length_cons]; omega)]
    simp only [List.nil_append, List.cons_append, List.length_cons]
    rw [Nat.succ_add_eq_add_succ]

/-- A stretch may have something put before it. -/
theorem weaveFrom_append_of_put (hu : u ≠ []) (hput : ∀ p, o < p → p < o + u.length → put p = [])
    (hgone : ∀ p, o ≤ p → p < o + u.length → ¬gone p) :
    weaveFrom put gone o (u ++ v) = put o ++ (u ++ weaveFrom put gone (o + u.length) v) := by
  obtain ⟨c, u, rfl⟩ := List.exists_cons_of_ne_nil hu
  rw [List.length_cons] at hput hgone
  rw [List.cons_append, weaveFrom, if_neg (hgone o (Nat.le_refl o) (by omega)),
    weaveFrom_append fun p hp hp' => ⟨hput p hp (by omega), hgone p (by omega) (by omega)⟩]
  simp only [List.cons_append, List.nil_append, List.length_cons]
  rw [Nat.succ_add_eq_add_succ]

/-- A stretch that is gone. -/
theorem weaveFrom_append_of_gone (h : ∀ p, o ≤ p → p < o + u.length → put p = [] ∧ gone p) :
    weaveFrom put gone o (u ++ v) = weaveFrom put gone (o + u.length) v := by
  induction u generalizing o with
  | nil => rfl
  | cons c u ih =>
    obtain ⟨hput, hgone⟩ := h o (Nat.le_refl o) (by simp)
    rw [List.cons_append, weaveFrom, hput, if_pos hgone,
      ih fun p hp hp' => h p (Nat.le_of_succ_le hp) (by rw [List.length_cons]; omega)]
    simp only [List.nil_append, List.length_cons]
    rw [Nat.succ_add_eq_add_succ]

/-- A character that is gone. -/
theorem weaveFrom_cons_of_gone (h : gone o) :
    weaveFrom put gone o (c :: t) = put o ++ weaveFrom put gone (o + 1) t := by
  rw [weaveFrom, if_pos h, List.nil_append]

/-- Nothing happens in the rest of a text, except where it begins. -/
theorem weaveFrom_of_forall (hput : ∀ p, o < p → put p = []) (hgone : ∀ p, o ≤ p → ¬gone p) :
    weaveFrom put gone o t = put o ++ t := by
  induction t generalizing o with
  | nil => rw [weaveFrom, List.append_nil]
  | cons c t ih =>
    rw [weaveFrom, if_neg (hgone o (Nat.le_refl o)),
      ih (fun p hp => hput p (by omega)) (fun p hp => hgone p (by omega)),
      hput (o + 1) (Nat.lt_succ_self o)]
    rfl

end Text

/-- Changes make of a text what edits do that put the same texts at the same offsets and take the
same characters away. -/
theorem Change.weave_eq_applyFrom {cs : List Change} {t : Text} (es : List DeltaEdit)
    (hput : ∀ p, cs.flatMap (placedAt t p) = Delta.insertedAt es p)
    (hgone : ∀ p, (∃ c ∈ cs, c.Destroys p) ↔ Delta.Covers es p)
    (hasc : es.Pairwise fun e f => e.start ≤ f.start) (hin : ∀ e ∈ es, e.start ≤ t.length) :
    weave cs t = Delta.applyFrom t 0 es := by
  rw [Delta.applyFrom_eq_weave t 0 hasc hin]
  refine Text.weave_congr hput fun p _ => ?_
  simp [hgone]

end Mend
