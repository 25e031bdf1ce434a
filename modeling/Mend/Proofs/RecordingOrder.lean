import Mathlib.Data.Fintype.Card
import Mathlib.Data.List.NodupEquivFin
import Mathlib.Data.List.Sort
import Mend.Proofs.FittingChanges

/-!
# Changes in another order

Changes all speak of the same text, so their order only matters where two of them do something at
the same place.  When a list of changes is put in another order, and changes that meet at a place
keep theirs, then the other list can be recorded too, and its exchanges are the same ones in the
same order.  Only the positions of the changes in the set are others.  Those are read in one place:
to find where moved characters are put down, and there it only counts which of them are the same.

## Main definitions

* `Change.starts`, `Change.Meets` — the places at which a change does something.
* `Change.Rearranges` — changes in another order, in which changes that meet keep theirs.
* `Exchange.relabel` — an exchange of a change at another position.
* `ChangeSet.PlansAlike` — sets that are planned alike on every text.

## Main results

* `Change.Coherent.perm` — changes that can be made together can be recorded in any order.
* `Change.Rearranges.exchanges_eq` — the exchanges are the same, in the same order.
* `ChangeSet.order_matters_where_changes_meet` — **the order of changes only matters where they
  meet.**
-/

namespace Mend

/-! ### Places at which changes do something -/

namespace Change

/-- Where the characters start that a change takes away, and where it puts some.  A change of
nothing for nothing has no such place. -/
def starts : Change → List Nat
  | .insert o text => if text = [] then [] else [o]
  | .remove s => if s.IsEmpty then [] else [s.start]
  | .replace s text => if s.IsEmpty ∧ text = [] then [] else [s.start]
  | .move s o => if s.IsEmpty then [] else [s.start, o]
  | .copy s o => if s.IsEmpty then [] else [o]
  | .flip s u => if s.IsEmpty ∧ u.IsEmpty then [] else [s.start, u.start]

/-- Two changes that do something at a common place. -/
def Meets (c d : Change) : Prop := ∃ o ∈ c.starts, o ∈ d.starts

instance (c d : Change) : Decidable (c.Meets d) :=
  inferInstanceAs (Decidable (∃ o ∈ c.starts, o ∈ d.starts))

variable {c d : Change} {cs ds : List Change}

/-- An empty span holds no characters. -/
theorem not_isEmpty_of_slice_ne_nil {t : Text} {s : Span} (h : Text.slice t s ≠ []) :
    ¬s.IsEmpty := by
  intro hempty
  have hstop : s.stop ≤ s.start := hempty
  refine h (List.eq_nil_of_length_eq_zero ?_)
  rw [Text.length_slice]
  omega

/-- An exchange that is not idle starts where its change does something. -/
theorem start_mem_starts {t : Text} {i : Nat} {x : Exchange} (hx : x ∈ c.exchanges t i)
    (hidle : ¬x.IsIdle) : x.span.start ∈ c.starts := by
  have htext : x.span.IsEmpty → x.text ≠ [] := fun hempty hnil => hidle ⟨hempty, hnil⟩
  cases c <;> simp only [exchanges, List.mem_cons, List.not_mem_nil, or_false] at hx
  case move s o =>
    rcases hx with rfl | rfl
    · have hs : ¬s.IsEmpty := fun hempty => htext hempty rfl
      simp [starts, hs]
    · simp [starts, not_isEmpty_of_slice_ne_nil (htext (Span.isEmpty_point o))]
  case copy s o =>
    subst hx
    simp [starts, not_isEmpty_of_slice_ne_nil (htext (Span.isEmpty_point o))]
  case flip s u =>
    rcases hx with rfl | rfl
    · have hne : ¬(s.IsEmpty ∧ u.IsEmpty) := fun h =>
        not_isEmpty_of_slice_ne_nil (htext h.1) h.2
      simp [starts, hne]
    · have hne : ¬(s.IsEmpty ∧ u.IsEmpty) := fun h =>
        not_isEmpty_of_slice_ne_nil (htext h.2) h.1
      simp [starts, hne]
  all_goals
    subst hx
    simp_all [starts, Exchange.IsIdle]

/-! ### Changes that can be recorded -/

/-- Contradiction is mutual. -/
theorem conflict?_eq_none_symm (h : c.conflict? d = none) : d.conflict? c = none := by
  simp only [conflict?, Option.orElse_eq_orElse, Option.orElse_eq_or, Option.or_eq_none_iff,
    List.findSome?_eq_none_iff, Option.map_eq_none_iff, List.find?_eq_none,
    decide_eq_true_eq] at h ⊢
  obtain ⟨htaken, hlater, hearlier⟩ := h
  exact ⟨fun s hs u hu hover => htaken u hu s hs (Span.overlaps_comm.1 hover), hearlier, hlater⟩

/-- **Changes that can be made together can be recorded in any order.** -/
theorem Coherent.perm (h : Coherent cs) (hperm : cs.Perm ds) : Coherent ds where
  sound c hc := h.sound c (hperm.mem_iff.2 hc)
  compatible := (hperm.pairwise_iff fun h => conflict?_eq_none_symm h).1 h.compatible

end Change

namespace ChangeSet

/-- Changes that are accepted one after the other are recorded. -/
theorem recordAll_of_extend_eq_ok {s s' : ChangeSet} {cs : List Change}
    (h : s.extend cs = .ok s') : s.recordAll cs = s' := by
  induction cs generalizing s with
  | nil =>
    cases h
    rfl
  | cons c cs ih =>
    rw [extend] at h
    split at h
    next => exact ih h
    next => cases h

/-- **Just the changes that can be made together are all accepted.** -/
theorem refusal_recordAll_empty_iff {cs : List Change} :
    (empty.recordAll cs).refusal = none ↔ Change.Coherent cs := by
  constructor
  · intro h
    have hchanges : (empty.recordAll cs).changes = cs := changes_recordAll h
    exact hchanges ▸ (empty.recordAll cs).coherent
  · intro h
    obtain ⟨s, hs⟩ : ∃ s, empty.extend cs = .ok s := exists_extend_eq_ok h
    rw [recordAll_of_extend_eq_ok hs]
    exact (extend_eq_ok hs).2

end ChangeSet

/-! ### Another order -/

namespace Change

/-- Changes in another order: it is told where each of them goes.  Changes that meet keep their
order. -/
structure Rearranges (cs ds : List Change) (σ : Fin cs.length ≃ Fin ds.length) : Prop where
  /-- They are the same changes. -/
  same : ∀ i, ds[σ i] = cs[i]
  /-- Changes that meet keep their order. -/
  inOrder : ∀ i j, i < j → cs[i].Meets cs[j] → σ i < σ j

variable {cs ds : List Change} {σ : Fin cs.length ≃ Fin ds.length}

/-- Where the change at a position goes.  Positions at which there is none stay. -/
def placeOf (σ : Fin cs.length ≃ Fin ds.length) (i : Nat) : Nat :=
  if h : i < cs.length then σ ⟨i, h⟩ else i

theorem placeOf_of_lt {i : Nat} (h : i < cs.length) : placeOf σ i = σ ⟨i, h⟩ := dif_pos h

/-- No two changes go to the same position. -/
theorem placeOf_injective (σ : Fin cs.length ≃ Fin ds.length) :
    Function.Injective (placeOf σ) := by
  have hlength : cs.length = ds.length := by simpa using Fintype.card_congr σ
  intro i j hij
  by_cases hi : i < cs.length <;> by_cases hj : j < cs.length
  · rw [placeOf_of_lt hi, placeOf_of_lt hj, Fin.val_inj, σ.apply_eq_iff_eq] at hij
    exact Fin.mk.inj hij
  · have hlt := (σ ⟨i, hi⟩).isLt
    rw [placeOf_of_lt hi, placeOf, dif_neg hj] at hij
    omega
  · have hlt := (σ ⟨j, hj⟩).isLt
    rw [placeOf_of_lt hj, placeOf, dif_neg hi] at hij
    omega
  · rwa [placeOf, placeOf, dif_neg hi, dif_neg hj] at hij

namespace Rearranges

/-- The changes at positions of the one list are those at other positions of the other one. -/
theorem mem_zipIdx_iff (h : Rearranges cs ds σ) {p : Change × Nat} :
    p ∈ ds.zipIdx ↔ p ∈ cs.zipIdx.map fun q => (q.1, placeOf σ q.2) := by
  obtain ⟨c, k⟩ := p
  simp only [List.mem_map, Prod.exists, Prod.mk.injEq, List.mem_zipIdx_iff_getElem?]
  constructor
  · intro hk
    obtain ⟨hlt, rfl⟩ := List.getElem?_eq_some_iff.1 hk
    obtain ⟨i, hi⟩ := σ.surjective ⟨k, hlt⟩
    have hsame := h.same i
    simp only [hi] at hsame
    exact ⟨_, i, List.getElem?_eq_getElem i.isLt, hsame.symm, by
      rw [placeOf_of_lt i.isLt, Fin.eta, hi]⟩
  · rintro ⟨c, i, hi, rfl, rfl⟩
    obtain ⟨hlt, rfl⟩ := List.getElem?_eq_some_iff.1 hi
    rw [placeOf_of_lt hlt, List.getElem?_eq_getElem (σ ⟨i, hlt⟩).isLt]
    exact congrArg some (h.same ⟨i, hlt⟩)

/-- The positions of a list ascend. -/
theorem pairwise_zipIdx (cs : List Change) : cs.zipIdx.Pairwise fun p q => p.2 < q.2 := by
  have hpositions : (cs.zipIdx.map Prod.snd).Pairwise (· < ·) := by
    rw [List.zipIdx_map_snd]
    exact List.pairwise_lt_range' 1
  exact List.pairwise_map.1 hpositions

/-- The changes are the same ones. -/
theorem perm (h : Rearranges cs ds σ) : cs.Perm ds := by
  have hnodup (cs : List Change) : cs.zipIdx.Nodup :=
    (pairwise_zipIdx cs).imp fun hlt heq => Nat.ne_of_lt hlt (congrArg Prod.snd heq)
  have hzip : (cs.zipIdx.map fun q => (q.1, placeOf σ q.2)).Perm ds.zipIdx := by
    refine (List.perm_ext_iff_of_nodup ?_ (hnodup ds)).2 fun p => h.mem_zipIdx_iff.symm
    refine (hnodup cs).map fun p q hpq => ?_
    exact Prod.ext (Prod.mk.inj hpq).1 (placeOf_injective σ (Prod.mk.inj hpq).2)
  simpa [List.map_map, Function.comp_def] using hzip.map Prod.fst

/-- **The changes that do something at a place are the same ones, in the same order.** -/
theorem filter_zipIdx (h : Rearranges cs ds σ) (o : Nat) :
    ds.zipIdx.filter (fun p => o ∈ p.1.starts)
      = (cs.zipIdx.filter fun p => o ∈ p.1.starts).map fun p => (p.1, placeOf σ p.2) := by
  let before (p q : Change × Nat) : Prop := p.2 < q.2
  have : Std.Antisymm before := ⟨fun _ _ hlt hlt' => absurd hlt (Nat.lt_asymm hlt')⟩
  have : Std.Irrefl before := ⟨fun _ => Nat.lt_irrefl _⟩
  refine List.Pairwise.eq_of_mem_iff (r := before) ((pairwise_zipIdx ds).filter _) ?_ fun p => ?_
  · -- any two of them meet at this place, so they keep their order
    refine List.pairwise_map.2 (((pairwise_zipIdx cs).filter _).imp_of_mem ?_)
    rintro ⟨c, i⟩ ⟨d, j⟩ hc hd hij
    simp only [List.mem_filter, List.mem_zipIdx_iff_getElem?, decide_eq_true_eq] at hc hd
    obtain ⟨hi, rfl⟩ := List.getElem?_eq_some_iff.1 hc.1
    obtain ⟨hj, rfl⟩ := List.getElem?_eq_some_iff.1 hd.1
    show placeOf σ i < placeOf σ j
    rw [placeOf_of_lt hi, placeOf_of_lt hj]
    exact h.inOrder ⟨i, hi⟩ ⟨j, hj⟩ hij ⟨o, hc.2, hd.2⟩
  · rw [List.mem_filter, h.mem_zipIdx_iff]
    constructor
    · rintro ⟨hp, ho⟩
      obtain ⟨q, hq, rfl⟩ := List.mem_map.1 hp
      exact List.mem_map_of_mem (List.mem_filter.2 ⟨hq, ho⟩)
    · intro hp
      obtain ⟨q, hq, rfl⟩ := List.mem_map.1 hp
      obtain ⟨hq, ho⟩ := List.mem_filter.1 hq
      exact ⟨List.mem_map_of_mem hq, ho⟩

end Rearranges

/-- Changes of which no two meet can stand in any order. -/
theorem exists_rearranges (hnodup : cs.Nodup) (hapart : cs.Pairwise fun c d => ¬c.Meets d)
    (hperm : cs.Perm ds) : ∃ σ, Rearranges cs ds σ := by
  have hnodup' : ds.Nodup := hperm.nodup_iff.1 hnodup
  let σ : Fin cs.length ≃ Fin ds.length := (hnodup.getEquiv cs).trans
    ((Equiv.subtypeEquivRight fun _ => hperm.mem_iff).trans (hnodup'.getEquiv ds).symm)
  refine ⟨σ, fun i => ?_, fun i j hij hmeets => ?_⟩
  · exact List.getElem_idxOf _
  · exact absurd hmeets (List.pairwise_iff_getElem.1 hapart i j i.isLt j.isLt hij)

/-! ### Spans that are exchanged for texts -/

/-- The changes that exchange spans for texts. -/
def replacements (rs : List (Span × Text)) : List Change := rs.map fun r => .replace r.1 r.2

section Replacements

variable {rs : List (Span × Text)} (hfull : ∀ r ∈ rs, ¬r.1.IsEmpty)
  (hapart : rs.Pairwise fun r r' => ¬r.1.Overlaps r'.1)
include hfull hapart

/-- Spans that hold something and do not overlap can be exchanged together. -/
theorem coherent_replacements : Coherent (replacements rs) := by
  have hmarks : (replacements rs).flatMap marks = rs.map Prod.fst := by
    rw [replacements, List.flatMap_map]
    exact List.map_eq_flatMap.symm
  refine coherent_of_pairwise_apart ?_ ?_
  · intro c hc u hu
    obtain ⟨r, hr, rfl⟩ := List.mem_map.1 hc
    obtain rfl := List.mem_singleton.1 hu
    exact Nat.le_of_lt (Nat.lt_of_not_le (hfull r hr))
  · rw [hmarks]
    refine List.pairwise_map.2 (hapart.imp fun {r r'} h => ?_)
    simp only [Span.Overlaps, Span.Apart] at h ⊢
    omega

/-- Exchanges of spans that hold something and do not overlap do not meet. -/
theorem pairwise_not_meets_replacements :
    (replacements rs).Pairwise fun c d => ¬c.Meets d := by
  refine List.pairwise_map.2 (hapart.imp_of_mem fun {r r'} hr hr' h => ?_)
  rintro ⟨o, ho, ho'⟩
  have hs := hfull r hr
  have hu := hfull r' hr'
  simp only [starts, hs, hu, false_and, if_false, List.mem_singleton] at ho ho'
  simp only [Span.IsEmpty, Span.Overlaps] at hs hu h
  omega

/-- They are pairwise different, since each of them meets itself. -/
theorem nodup_replacements : (replacements rs).Nodup := by
  refine (pairwise_not_meets_replacements hfull hapart).imp_of_mem fun hc _ hmeets heq => ?_
  obtain ⟨r, hr, rfl⟩ := List.mem_map.1 hc
  subst heq
  exact hmeets ⟨r.1.start, by simp [starts, hfull r hr], by simp [starts, hfull r hr]⟩

end Replacements

end Change

/-! ### Exchanges of changes at other positions -/

namespace Exchange

/-- The exchange of a change that stands at another position of its set. -/
def relabel (f : Nat → Nat) (x : Exchange) : Exchange := { x with change := f x.change }

@[simp] theorem span_relabel (f : Nat → Nat) (x : Exchange) : (x.relabel f).span = x.span := rfl

@[simp] theorem isIdle_relabel (f : Nat → Nat) (x : Exchange) :
    (x.relabel f).IsIdle ↔ x.IsIdle := Iff.rfl

@[simp] theorem toEdit_relabel (t : Text) (f : Nat → Nat) (x : Exchange) :
    (x.relabel f).toEdit t = x.toEdit t := rfl

/-- A change at another position stands for the same exchanges. -/
theorem exchanges_relabel (t : Text) (f : Nat → Nat) (c : Change) (i : Nat) :
    c.exchanges t (f i) = (c.exchanges t i).map (relabel f) := by
  cases c <;> rfl

/-- The exchanges of changes, position by position. -/
theorem ofChanges_eq_flatMap (t : Text) (i : Nat) (cs : List Change) :
    ofChanges t i cs = (cs.zipIdx i).flatMap fun p => p.1.exchanges t p.2 := by
  induction cs generalizing i with
  | nil => rfl
  | cons c cs ih => rw [ofChanges, List.zipIdx_cons, List.flatMap_cons, ih]

/-- An exchange that starts at a place and does something there. -/
def ActsAt (o : Nat) (x : Exchange) : Prop := x.span.start = o ∧ ¬x.IsIdle

instance (o : Nat) (x : Exchange) : Decidable (x.ActsAt o) := inferInstanceAs (Decidable (_ ∧ _))

/-- Only changes that do something at a place have exchanges that act there. -/
theorem filter_ofChanges (t : Text) (cs : List Change) (o : Nat) :
    (ofChanges t 0 cs).filter (ActsAt o ·) = (cs.zipIdx.filter fun p => o ∈ p.1.starts).flatMap
      fun p => (p.1.exchanges t p.2).filter (ActsAt o ·) := by
  rw [ofChanges_eq_flatMap, List.filter_flatMap]
  induction cs.zipIdx with
  | nil => rfl
  | cons p ps ih =>
    rw [List.flatMap_cons, List.filter_cons, ih]
    split
    next => rw [List.flatMap_cons]
    next hnot =>
      have hnone : (p.1.exchanges t p.2).filter (ActsAt o ·) = [] := by
        refine List.filter_eq_nil_iff.2 fun x hx hacts => hnot ?_
        obtain ⟨rfl, hidle⟩ := of_decide_eq_true hacts
        exact decide_eq_true (Change.start_mem_starts hx hidle)
      rw [hnone, List.nil_append]

/-- Exchanges in ascending order are known from those that start at each place. -/
theorem eq_of_filter_start {xs ys : List Exchange}
    (hxs : xs.Pairwise fun x y => x.span.start ≤ y.span.start)
    (hys : ys.Pairwise fun x y => x.span.start ≤ y.span.start)
    (h : ∀ o, xs.filter (·.span.start = o) = ys.filter (·.span.start = o)) : xs = ys := by
  induction xs generalizing ys with
  | nil =>
    cases ys with
    | nil => rfl
    | cons y ys => simpa using h y.span.start
  | cons x xs ih =>
    cases ys with
    | nil => simpa using h x.span.start
    | cons y ys =>
      obtain ⟨hx, hxs'⟩ := List.pairwise_cons.1 hxs
      obtain ⟨hy, hys'⟩ := List.pairwise_cons.1 hys
      -- each of the two first ones is found in the other list
      have hle : y.span.start ≤ x.span.start := by
        have hmem : x ∈ (y :: ys).filter (·.span.start = x.span.start) := h _ ▸ by simp
        rcases List.mem_cons.1 (List.mem_of_mem_filter hmem) with rfl | hmem
        · exact Nat.le_refl _
        · exact hy x hmem
      have hge : x.span.start ≤ y.span.start := by
        have hmem : y ∈ (x :: xs).filter (·.span.start = y.span.start) := (h _).symm ▸ by simp
        rcases List.mem_cons.1 (List.mem_of_mem_filter hmem) with rfl | hmem
        · exact Nat.le_refl _
        · exact hx y hmem
      have hstart : x.span.start = y.span.start := Nat.le_antisymm hge hle
      have hhead := h x.span.start
      rw [List.filter_cons_of_pos (by simp), List.filter_cons_of_pos (by simp [hstart])] at hhead
      obtain ⟨rfl, -⟩ := List.cons.inj hhead
      refine congrArg _ (ih hxs' hys' fun o => ?_)
      have htail := h o
      rw [List.filter_cons, List.filter_cons] at htail
      split at htail
      · exact (List.cons.inj htail).2
      · exact htail

end Exchange

/-- The exchanges of a set that start at a place are those of its changes that act there. -/
theorem ChangeSet.filter_exchanges (s : ChangeSet) (t : Text) (o : Nat) :
    (s.exchanges t).filter (·.span.start = o)
      = (Exchange.ofChanges t 0 s.changes).filter (Exchange.ActsAt o ·) := by
  have hacts : ∀ x : Exchange, (decide (x.span.start = o) && !decide x.IsIdle)
      = decide (x.ActsAt o) := by
    intro x
    rw [Bool.eq_iff_iff, Bool.and_eq_true, Bool.not_eq_true', decide_eq_true_eq,
      decide_eq_false_iff_not, decide_eq_true_eq]
    exact Iff.rfl
  rw [exchanges, List.filter_filter, Exchange.sort, filter_stableSort]
  · exact List.filter_congr fun x _ => hacts x
  · -- exchanges that start at the same place may stand in any order
    intro x _ y _ hx hy
    simp only [Bool.and_eq_true, decide_eq_true_eq] at hx hy
    exact decide_eq_true (by omega)

/-- **Changes in another order stand for the same exchanges, in the same order.** -/
theorem Change.Rearranges.exchanges_eq {s s' : ChangeSet}
    {σ : Fin s.changes.length ≃ Fin s'.changes.length} (h : Rearranges s.changes s'.changes σ)
    (t : Text) : s'.exchanges t = (s.exchanges t).map (.relabel (placeOf σ)) := by
  refine Exchange.eq_of_filter_start (s'.pairwise_start_exchanges t)
    (List.pairwise_map.2 (s.pairwise_start_exchanges t)) fun o => ?_
  rw [List.filter_map]
  show _ = ((s.exchanges t).filter (·.span.start = o)).map _
  rw [s'.filter_exchanges, s.filter_exchanges, Exchange.filter_ofChanges,
    Exchange.filter_ofChanges, h.filter_zipIdx, List.flatMap_map, List.map_flatMap]
  refine List.flatMap_congr fun p _ => ?_
  rw [Exchange.exchanges_relabel, List.filter_map]
  rfl

/-! ### Planning -/

/-- Where moved characters are put down is found among exchanges of the same change. -/
theorem DeltaEdit.linkMove_relabel {f : Nat → Nat} (hf : Function.Injective f)
    (placed : List (Exchange × Span)) (x : Exchange) (e : DeltaEdit) :
    e.linkMove (placed.map fun p => (p.1.relabel f, p.2)) (x.relabel f) = e.linkMove placed x := by
  have hsame : ((fun p : Exchange × Span =>
        p.1.change == f x.change && p.1.part == some MovePart.target) ∘
        fun p : Exchange × Span => (p.1.relabel f, p.2))
      = fun p => p.1.change == x.change && p.1.part == some MovePart.target := by
    funext p
    have hchange : (f p.1.change == f x.change) = (p.1.change == x.change) := hf.beq_eq
    simp only [Function.comp_apply, Exchange.relabel, hchange]
  unfold linkMove
  simp only [Exchange.relabel, List.find?_map, Option.map_map] at hsame ⊢
  rw [hsame]
  rfl

/-- To which changes exchanges belong only counts for which of them belong to the same. -/
theorem Delta.ofExchanges_map_relabel (t : Text) (xs : List Exchange) {f : Nat → Nat}
    (hf : Function.Injective f) : ofExchanges t (xs.map (.relabel f)) = ofExchanges t xs := by
  have hedits : (xs.map (.relabel f)).map (Exchange.toEdit t) = xs.map (Exchange.toEdit t) := by
    rw [List.map_map]
    rfl
  simp only [ofExchanges, hedits, List.zip_map_left, List.map_map]
  congr 1
  refine List.map_congr_left fun p _ => ?_
  exact DeltaEdit.linkMove_relabel hf _ p.1 p.2

namespace ChangeSet

/-- On every text, both sets have the same delta and make the same text, or both speak of a place
outside of it. -/
def PlansAlike (s s' : ChangeSet) : Prop :=
  ∀ t, (∃ δ, s.plan t = .ok δ ∧ s'.plan t = .ok δ ∧ s.applyTo t = .ok (δ.applyTo t) ∧
      s'.applyTo t = .ok (δ.applyTo t)) ∨
    ∃ u u', s.plan t = .error (.outOfBounds u t.length) ∧
      s'.plan t = .error (.outOfBounds u' t.length)

/-- A set that remembers no refusal can be planned, or speaks of a place outside of the text. -/
theorem plan_of_refusal_eq_none {s : ChangeSet} (hs : s.refusal = none) (t : Text) :
    (s.plan t = .ok (.ofExchanges t (s.exchanges t)) ∧
        ∀ c ∈ s.changes, ∀ u ∈ c.extents, u.stop ≤ t.length) ∨
      (∃ u, s.plan t = .error (.outOfBounds u t.length)) ∧
        ∃ c ∈ s.changes, ∃ u ∈ c.extents, t.length < u.stop := by
  cases hfind : (s.changes.flatMap Change.extents).find? (t.length < ·.stop) with
  | none =>
    refine .inl ⟨by simp [plan, hs, outOfBounds?, hfind], fun c hc u hu => ?_⟩
    have hnot := List.find?_eq_none.1 hfind u (List.mem_flatMap.2 ⟨c, hc, hu⟩)
    simpa using hnot
  | some u =>
    obtain ⟨c, hc, hu⟩ := List.mem_flatMap.1 (List.mem_of_find?_eq_some hfind)
    exact .inr ⟨⟨u, by simp [plan, hs, outOfBounds?, hfind]⟩, c, hc, u, hu, by
      simpa using List.find?_some hfind⟩

/-- Sets whose changes stand in different orders are planned alike. -/
theorem plansAlike_of_rearranges {s s' : ChangeSet} {cs ds : List Change}
    {σ : Fin cs.length ≃ Fin ds.length} (h : Change.Rearranges cs ds σ) (hcs : s.changes = cs)
    (hds : s'.changes = ds) (hs : s.refusal = none) (hs' : s'.refusal = none) :
    s.PlansAlike s' := by
  intro t
  subst hcs hds
  have hmem {c : Change} : c ∈ s.changes ↔ c ∈ s'.changes := h.perm.mem_iff
  have hplans := plan_of_refusal_eq_none hs t
  have hplans' := plan_of_refusal_eq_none hs' t
  rcases hplans with ⟨hplan, hin⟩ | ⟨⟨u, hplan⟩, c, hc, v, hv, hout⟩ <;>
    rcases hplans' with ⟨hplan', hin'⟩ | ⟨⟨u', hplan'⟩, c', hc', v', hv', hout'⟩
  · have hsame : Delta.ofExchanges t (s'.exchanges t) = .ofExchanges t (s.exchanges t) := by
      rw [h.exchanges_eq, Delta.ofExchanges_map_relabel t _ (Change.placeOf_injective σ)]
    rw [hsame] at hplan'
    exact .inl ⟨_, hplan, hplan', by rw [applyTo, hplan], by rw [applyTo, hplan']⟩
  · exact absurd hout' (Nat.not_lt.2 (hin c' (hmem.2 hc') v' hv'))
  · exact absurd hout (Nat.not_lt.2 (hin' c (hmem.1 hc) v hv))
  · exact .inr ⟨u, u', hplan, hplan'⟩

/-- **The order of changes only matters where they meet.**  When changes are all accepted, so are
the same changes in another order in which those that meet keep theirs, and both sets are planned
alike.  In particular this holds of exchanges of spans that hold something and do not overlap, in
any order. -/
theorem order_matters_where_changes_meet :
    (∀ (cs ds : List Change) (σ : Fin cs.length ≃ Fin ds.length),
      (empty.recordAll cs).refusal = none → Change.Rearranges cs ds σ →
        (empty.recordAll ds).refusal = none ∧ (empty.recordAll ds).changes = ds ∧
          (empty.recordAll cs).PlansAlike (empty.recordAll ds)) ∧
    ∀ rs rs' : List (Span × Text), rs.Perm rs' → (∀ r ∈ rs, ¬r.1.IsEmpty) →
      rs.Pairwise (fun r r' => ¬r.1.Overlaps r'.1) →
        (empty.recordAll (Change.replacements rs)).refusal = none ∧
        (empty.recordAll (Change.replacements rs')).refusal = none ∧
        (empty.recordAll (Change.replacements rs)).PlansAlike
          (empty.recordAll (Change.replacements rs')) := by
  have hfirst (cs ds : List Change) (σ : Fin cs.length ≃ Fin ds.length)
      (hcs : (empty.recordAll cs).refusal = none) (h : Change.Rearranges cs ds σ) :
      (empty.recordAll ds).refusal = none ∧ (empty.recordAll ds).changes = ds ∧
        (empty.recordAll cs).PlansAlike (empty.recordAll ds) := by
    have hds : (empty.recordAll ds).refusal = none :=
      refusal_recordAll_empty_iff.2 ((refusal_recordAll_empty_iff.1 hcs).perm h.perm)
    exact ⟨hds, changes_recordAll hds, plansAlike_of_rearranges h (changes_recordAll hcs)
      (changes_recordAll hds) hcs hds⟩
  refine ⟨hfirst, fun rs rs' hperm hfull hapart => ?_⟩
  have hcs := refusal_recordAll_empty_iff.2 (Change.coherent_replacements hfull hapart)
  obtain ⟨σ, hσ⟩ := Change.exists_rearranges (Change.nodup_replacements hfull hapart)
    (Change.pairwise_not_meets_replacements hfull hapart) (hperm.map _)
  obtain ⟨hds, -, halike⟩ := hfirst _ _ σ hcs hσ
  exact ⟨hcs, hds, halike⟩

/-- A name is copied to where a condition stood before or after something is put at the front, to
which the condition is moved.  Two exchanges of spans that touch are made in either order. -/
theorem order_matters_where_changes_meet_hoist :
    let cs : List Change := [.copy ⟨4, 5⟩ 3, .insert 0 ['('], .move ⟨3, 6⟩ 0, .insert 0 [')', ' ']]
    let ds : List Change := [.insert 0 ['('], .copy ⟨4, 5⟩ 3, .move ⟨3, 6⟩ 0, .insert 0 [')', ' ']]
    let r : Span × Text := (⟨0, 2⟩, ['x'])
    let r' : Span × Text := (⟨2, 3⟩, ['y', 'z'])
    ((empty.recordAll cs).refusal = none ∧ (∃ σ, Change.Rearranges cs ds σ) ∧
      (empty.recordAll cs).PlansAlike (empty.recordAll ds)) ∧
    (empty.recordAll (Change.replacements [r, r'])).PlansAlike
      (empty.recordAll (Change.replacements [r', r])) := by
  intro cs ds r r'
  let σ : Fin cs.length ≃ Fin ds.length := Equiv.swap (0 : Fin 4) 1
  have hcs : (empty.recordAll cs).refusal = none := by decide
  have hσ : Change.Rearranges cs ds σ := ⟨by decide, by decide⟩
  refine ⟨⟨hcs, ⟨σ, hσ⟩, (order_matters_where_changes_meet.1 cs ds σ hcs hσ).2.2⟩, ?_⟩
  exact (order_matters_where_changes_meet.2 [r, r'] [r', r] (.swap r' r []) (by decide)
    (by decide)).2.2

end ChangeSet

end Mend
