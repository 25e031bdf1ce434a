import Mend.Proofs.FittingChanges
import Mend.Proofs.WovenStretches

/-!
# Swapping two spans

Swapping two spans of a text that do not overlap exchanges what they hold and leaves the rest where
it is, up to the difference of their lengths.  Which of the two is named first does not matter: an
empty span may start together with the other one, but then it holds nothing that could be put down
on the wrong side.

## Main definitions

* `Text.swap` — a text with the characters of two spans exchanged.

## Main results

* `Change.weave_flip` — swapping is what a change that swaps two spans does, in either order.
* `Text.swap_append` — the text before, between and after the spans stays.
* `ChangeSet.flip_twice_restores` — **swapping what was swapped restores the text.**
-/

namespace Mend

/-- A text with the characters of two spans exchanged, the first of which lies before the other. -/
def Text.swap (t : Text) (a b : Span) : Text :=
  t.take a.start ++ (slice t b ++ (slice t ⟨a.stop, b.start⟩ ++ (slice t a ++ t.drop b.stop)))

namespace Text

/-- The pieces of a text around a span. -/
theorem exists_pieces {t : Text} {a : Span} (ha : a.start ≤ a.stop) (ht : a.stop ≤ t.length) :
    ∃ p x q : Text, t = p ++ (x ++ q) ∧ a = ⟨p.length, p.length + x.length⟩ := by
  refine ⟨t.take a.start, slice t a, t.drop a.stop, ?_, ?_⟩
  · rw [← List.append_assoc, take_append_slice_append_drop t a ha]
  · have hstart : min a.start t.length = a.start := Nat.min_eq_left (Nat.le_trans ha ht)
    have hstop : a.start + (min a.stop t.length - a.start) = a.stop := by omega
    rw [List.length_take, hstart, length_slice, hstop]

/-- The pieces of a text around two spans. -/
theorem exists_pieces_of_two {t : Text} {a b : Span} (ha : a.start ≤ a.stop)
    (hab : a.stop ≤ b.start) (hb : b.start ≤ b.stop) (ht : b.stop ≤ t.length) :
    ∃ p x m y q : Text, t = p ++ (x ++ (m ++ (y ++ q))) ∧ a = ⟨p.length, p.length + x.length⟩ ∧
      b = ⟨p.length + x.length + m.length, p.length + x.length + m.length + y.length⟩ := by
  obtain ⟨p, x, r, rfl, rfl⟩ := exists_pieces ha (Nat.le_trans (Nat.le_trans hab hb) ht)
  simp only [List.length_append] at hab ht
  -- the second span lies in what comes behind the first one
  obtain ⟨m, y, q, rfl, hspan⟩ := exists_pieces (t := r)
    (a := ⟨b.start - (p.length + x.length), b.stop - (p.length + x.length)⟩) (by simp only; omega)
    (by simp only; omega)
  obtain ⟨hstart, hstop⟩ := Span.mk.inj hspan
  refine ⟨p, x, m, y, q, rfl, rfl, ?_⟩
  obtain ⟨lo, hi⟩ := b
  rw [Span.mk.injEq]
  simp only at hab hb hstart hstop
  omega

/-- What two spans of a text hold. -/
theorem slice_pieces (p x m y q : Text) :
    slice (p ++ (x ++ (m ++ (y ++ q)))) ⟨p.length, p.length + x.length⟩ = x ∧
      slice (p ++ (x ++ (m ++ (y ++ q)))) ⟨p.length + x.length + m.length,
        p.length + x.length + m.length + y.length⟩ = y := by
  have hy := slice_append (p ++ x ++ m) y q
  simp only [List.append_assoc, List.length_append, ← Nat.add_assoc] at hy
  exact ⟨slice_append p x _, hy⟩

/-- **What is before, between and after the spans stays.** -/
theorem swap_append (p x m y q : Text) :
    swap (p ++ (x ++ (m ++ (y ++ q)))) ⟨p.length, p.length + x.length⟩
      ⟨p.length + x.length + m.length, p.length + x.length + m.length + y.length⟩
        = p ++ (y ++ (m ++ (x ++ q))) := by
  obtain ⟨hx, hy⟩ := slice_pieces p x m y q
  have hm := slice_append (p ++ x) m (y ++ q)
  have hq := @List.drop_left _ (p ++ x ++ m ++ y) q
  simp only [List.append_assoc, List.length_append, ← Nat.add_assoc] at hm hq
  rw [swap, List.take_left, hx, hm, hy, hq]

end Text

/-! ### One change -/

namespace Change

variable {t : Text} {a b : Span}

/-- Two spans that do not overlap can be swapped. -/
theorem fit_flip (ha : a.start ≤ a.stop) (hab : a.stop ≤ b.start) (hb : b.start ≤ b.stop)
    (ht : b.stop ≤ t.length) : Fit [.flip a b] t.length ∧ Fit [.flip b a] t.length := by
  have hin : (a.start ≤ a.stop ∧ a.stop ≤ t.length) ∧ b.start ≤ b.stop ∧ b.stop ≤ t.length := by
    omega
  have hapart : a.Apart b ∧ b.Apart a := ⟨.inl hab, .inr hab⟩
  refine ⟨⟨?_, ?_⟩, ⟨?_, ?_⟩⟩
  · simpa [extents] using hin
  · simpa [marks] using hapart.1
  · simpa [extents] using hin.symm
  · simpa [marks] using hapart.2

/-- **Swapping two spans swaps what they hold.** -/
theorem weave_flip (ha : a.start ≤ a.stop) (hab : a.stop ≤ b.start) (hb : b.start ≤ b.stop)
    (ht : b.stop ≤ t.length) : weave [.flip a b] t = t.swap a b := by
  let e : DeltaEdit := ⟨a.start, Text.slice t a, Text.slice t b, none⟩
  let f : DeltaEdit := ⟨b.start, Text.slice t b, Text.slice t a, none⟩
  have he : e.reach = a.stop := by
    simp only [e, DeltaEdit.reach, Text.length_slice]
    omega
  have hf : f.reach = b.stop := by
    simp only [f, DeltaEdit.reach, Text.length_slice]
    omega
  rw [weave_eq_applyFrom [e, f]]
  · have hmax : max a.stop b.stop = b.stop := Nat.max_eq_right (by omega)
    simp only [Delta.applyFrom, he, hf, Nat.zero_max, hmax]
    rfl
  · intro p
    by_cases hap : a.start = p <;> by_cases hbp : b.start = p <;>
      simp [placedAt, Delta.insertedAt, e, f, hap, hbp]
  · intro p
    simp only [exists_eq_left, Destroys, Span.Holds, Delta.Covers, List.mem_cons,
      List.not_mem_nil, or_false, exists_eq_or_imp, he, hf]
    rfl
  · simpa [e, f] using Nat.le_trans ha hab
  · simp [e, f]
    omega

/-- It does not matter which span is named first: if both start together, the first one is empty. -/
theorem weave_flip_comm (hab : a.stop ≤ b.start) :
    weave [.flip b a] t = weave [.flip a b] t := by
  refine Text.weave_congr (fun p => ?_) fun p _ => by simp [Destroys, or_comm]
  simp only [List.flatMap_singleton, placedAt]
  by_cases hap : a.start = p <;> by_cases hbp : b.start = p
  · have hempty : Text.slice t a = [] := by
      rw [← List.length_eq_zero_iff, Text.length_slice]
      omega
    simp [hempty]
  all_goals simp [hap, hbp]

end Change

namespace ChangeSet

/-- Two spans that do not overlap are swapped, in whatever order they are named. -/
theorem exists_applyTo_flip {t : Text} {a b : Span} (ha : a.start ≤ a.stop)
    (hab : a.stop ≤ b.start) (hb : b.start ≤ b.stop) (ht : b.stop ≤ t.length) {c : Change}
    (hc : c ∈ [Change.flip a b, .flip b a]) :
    ∃ s, ofChanges [c] = .ok s ∧ s.applyTo t = .ok (t.swap a b) := by
  have hfit := Change.fit_flip ha hab hb ht
  rw [← Change.weave_flip ha hab hb ht]
  simp only [List.mem_cons, List.not_mem_nil, or_false] at hc
  rcases hc with rfl | rfl
  · exact exists_applyTo_eq_weave hfit.1
  · rw [← Change.weave_flip_comm hab]
    exact exists_applyTo_eq_weave hfit.2

/-- **Swapping what was swapped restores the text.**  Two spans that do not overlap can be swapped,
whichever is named first: what they hold is exchanged, and the text before, between and after them
stays.  Each piece then lies where the other one was, up to the difference of their lengths, and
swapping these two spans gives the text back. -/
theorem flip_twice_restores {t : Text} {a b : Span} (ha : a.start ≤ a.stop)
    (hab : a.stop ≤ b.start) (hb : b.start ≤ b.stop) (ht : b.stop ≤ t.length) :
    let u : Text := t.take a.start ++ (Text.slice t b ++ (Text.slice t ⟨a.stop, b.start⟩ ++
      (Text.slice t a ++ t.drop b.stop)))
    let a' : Span := ⟨a.start, a.start + b.length⟩
    let b' : Span := ⟨b.stop - a.length, b.stop⟩
    Text.slice u a' = Text.slice t b ∧ Text.slice u b' = Text.slice t a ∧
    ∀ c ∈ [Change.flip a b, .flip b a],
      ∃ s, ofChanges [c] = .ok s ∧ s.applyTo t = .ok u ∧
        ∀ c' ∈ [Change.flip a' b', .flip b' a'],
          ∃ s', ofChanges [c'] = .ok s' ∧ s'.applyTo u = .ok t := by
  intro u a' b'
  have hu : u = t.swap a b := rfl
  clear_value u
  obtain ⟨p, x, m, y, q, htext, hspan, hspan'⟩ := Text.exists_pieces_of_two ha hab hb ht
  obtain ⟨hx, hy⟩ := Text.slice_pieces p x m y q
  have ha' : a' = ⟨p.length, p.length + y.length⟩ := by
    simp only [a', Span.length, hspan, hspan', Span.mk.injEq, true_and]
    omega
  have hb' : b' = ⟨p.length + y.length + m.length, p.length + y.length + m.length + x.length⟩ := by
    simp only [b', Span.length, hspan, hspan', Span.mk.injEq]
    omega
  have hswap : u = p ++ (y ++ (m ++ (x ++ q))) := by
    rw [hu, htext, hspan, hspan', Text.swap_append]
  obtain ⟨hy', hx'⟩ := Text.slice_pieces p y m x q
  refine ⟨?_, ?_, fun c hc => ?_⟩
  · rw [hswap, ha', hy', htext, hspan', hy]
  · rw [hswap, hb', hx', htext, hspan, hx]
  · obtain ⟨s, hs, happly⟩ := exists_applyTo_flip ha hab hb ht hc
    refine ⟨s, hs, hu ▸ happly, fun c' hc' => ?_⟩
    -- and back: what is swapped now are the same pieces, each in place of the other one
    have hback : u.swap a' b' = t := by rw [hswap, ha', hb', Text.swap_append, htext]
    have hlies : a'.start ≤ a'.stop ∧ a'.stop ≤ b'.start ∧ b'.start ≤ b'.stop ∧
        b'.stop ≤ u.length := by
      simp only [ha', hb', hswap, List.length_append]
      omega
    rw [← hback]
    exact exists_applyTo_flip hlies.1 hlies.2.1 hlies.2.2.1 hlies.2.2.2 hc'

/-- An empty span is swapped with one that it touches, and a piece with a longer one further on. -/
theorem flip_twice_restores_touching :
    let t : Text := ['a', 'b', 'c', 'd', 'e']
    (∃ s, ofChanges [.flip ⟨1, 3⟩ ⟨1, 1⟩] = .ok s ∧ s.applyTo t = .ok t) ∧
    ∃ s, ofChanges [.flip ⟨2, 5⟩ ⟨0, 1⟩] = .ok s ∧ s.applyTo t = .ok ['c', 'd', 'e', 'b', 'a'] ∧
      ∃ s', ofChanges [.flip ⟨0, 3⟩ ⟨4, 5⟩] = .ok s' ∧
        s'.applyTo ['c', 'd', 'e', 'b', 'a'] = .ok t := by
  intro t
  refine ⟨?_, ?_⟩
  · obtain ⟨s, hs, happly, -⟩ := (flip_twice_restores (t := t) (a := ⟨1, 1⟩) (b := ⟨1, 3⟩)
      (by decide) (by decide) (by decide) (by decide)).2.2 (.flip ⟨1, 3⟩ ⟨1, 1⟩) (by decide)
    exact ⟨s, hs, happly⟩
  · obtain ⟨s, hs, happly, hback⟩ := (flip_twice_restores (t := t) (a := ⟨0, 1⟩) (b := ⟨2, 5⟩)
      (by decide) (by decide) (by decide) (by decide)).2.2 (.flip ⟨2, 5⟩ ⟨0, 1⟩) (by decide)
    exact ⟨s, hs, happly, hback (.flip ⟨0, 3⟩ ⟨4, 5⟩) (by decide)⟩

end ChangeSet

end Mend
