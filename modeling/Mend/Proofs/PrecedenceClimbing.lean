import Mend.Proofs.ExpressionSoundness

/-!
# Precedence climbing

The expressions of a level are told by the levels inside them: operands of the next tighter level,
joined by the operators of this one.  They may as well be read by a single loop, which knows the
loosest operator that it may take, takes the operators of every level from there on, and reads the
right operand of each one level tighter.  Both read the same trees from the same tokens, and fail
with the same errors.

A loop over the operators from one level on is a loop over the tighter ones and then one over those
of the level itself, because what the latter takes ends before an operator that is no tighter.

## Main definitions

* `Parse.climb` — a round of the single loop.

## Main results

* `Parse.repeatWhile_run_split` — a loop that falls into two.
* `Parse.binaryLevel_stops` — after the expressions of a level no operator of it comes next.
* `Parse.binaryLevel_run_eq_climb` — **the single loop reads the expressions of a level.**
-/

namespace Mend

namespace Parse

open TokenStream Phrase

variable {σ : Type} {s : TokenStream}

/-! ### Loops that end -/

/-- A step is taken only when there is a token, and takes at least one. -/
structure Advances (more : σ → TokenStream → Bool) (step : σ → Parse σ) : Prop where
  /-- There is a token. -/
  rest_ne_nil : ∀ {x s}, more x s = true → s.rest ≠ []
  /-- A token is taken. -/
  lt : ∀ {x s}, more x s = true →
    (step x).Ensures s fun _ s' => s'.rest.length < s.rest.length

variable {more : σ → TokenStream → Bool} {step : σ → Parse σ} {x : σ}

theorem rounds_run_succ (hmore : more x s = true) (n : Nat) :
    (rounds more step (n + 1) x).run s = (step x >>= rounds more step n).run s := by
  change StateT.run (if more x s = true then _ else _) s = _
  rw [if_pos hmore]

namespace Advances

/-- Any two numbers of rounds that are enough are equally good. -/
theorem rounds_run_eq (h : Advances more step) {n k : Nat} (hn : s.rest.length ≤ n)
    (hk : s.rest.length ≤ k) : (rounds more step n x).run s = (rounds more step k x).run s := by
  induction n generalizing k x s with
  | zero =>
    have hmore : more x s = false := by
      refine eq_false_of_ne_true fun hmore => h.rest_ne_nil hmore ?_
      exact List.length_eq_zero_iff.1 (Nat.le_zero.1 hn)
    exact (rounds_yields_of_not_more hmore 0).trans (rounds_yields_of_not_more hmore k).symm
  | succ n ih =>
    cases hmore : more x s with
    | false =>
      exact (rounds_yields_of_not_more hmore _).trans (rounds_yields_of_not_more hmore k).symm
    | true =>
      obtain ⟨k, rfl⟩ : ∃ j, k = j + 1 := by
        have hpos := List.length_pos_iff.2 (h.rest_ne_nil hmore)
        exact Nat.exists_eq_succ_of_ne_zero (by omega)
      rw [rounds_run_succ hmore, rounds_run_succ hmore]
      exact run_bind_congr rfl ((h.lt hmore).imp fun y s' hlt => ih (by omega) (by omega))

/-- When there is more, a loop takes a step and goes on. -/
theorem repeatWhile_run_of_more (h : Advances more step) (hmore : more x s = true) :
    (repeatWhile more step x).run s = (step x >>= repeatWhile more step).run s := by
  have henough : (repeatWhile more step x).run s =
      (rounds more step (s.rest.length + 1) x).run s :=
    h.rounds_run_eq (Nat.le_refl _) (Nat.le_succ _)
  rw [henough, rounds_run_succ hmore]
  refine run_bind_congr rfl ((h.lt hmore).imp fun y s' hlt => ?_)
  exact h.rounds_run_eq (Nat.le_of_lt hlt) (Nat.le_refl _)

/-- What a step preserves holds when a loop has ended, and then there is no more. -/
theorem repeatWhile_ensures (h : Advances more step) {I : σ → TokenStream → Prop}
    (hstep : ∀ x s, I x s → more x s = true → (step x).Ensures s I) (hx : I x s) :
    (repeatWhile more step x).Ensures s fun y s' => I y s' ∧ more y s' = false := by
  induction hn : s.rest.length using Nat.strongRecOn generalizing x s with
  | ind n ih =>
    cases hmore : more x s with
    | false => exact (repeatWhile_yields_of_not_more hmore).ensures ⟨hx, hmore⟩
    | true =>
      refine Ensures.congr_run ?_ (h.repeatWhile_run_of_more hmore)
      refine ((hstep x s hx hmore).and (h.lt hmore)).bind fun y s' hy => ?_
      exact ih _ (hn ▸ hy.2) hy.1 rfl

end Advances

/-- **A loop falls into two** when one part of its steps come first, and no step of the other part
makes room for them again. -/
theorem repeatWhile_run_split {first second : σ → TokenStream → Bool} {step₁ step₂ : σ → Parse σ}
    (h : Advances more step) (h₁ : Advances first step₁) (h₂ : Advances second step₂)
    (hmore : ∀ x s, more x s = (first x s || second x s))
    (hfirst : ∀ x s, first x s = true → (step x).run s = (step₁ x).run s)
    (hsecond : ∀ x s, first x s = false → second x s = true → (step x).run s = (step₂ x).run s)
    (hdone : ∀ x s, first x s = false → second x s = true →
      (step₂ x).Ensures s fun y s' => first y s' = false) (x : σ) (s : TokenStream) :
    (repeatWhile more step x).run s =
      (repeatWhile first step₁ x >>= repeatWhile second step₂).run s := by
  induction hn : s.rest.length using Nat.strongRecOn generalizing x s with
  | ind n ih =>
    subst hn
    have hor := hmore x s
    cases hf : first x s with
    | true =>
      have hmore' : more x s = true := by rw [hor, hf, Bool.true_or]
      calc (repeatWhile more step x).run s
          = (step x >>= repeatWhile more step).run s := h.repeatWhile_run_of_more hmore'
        _ = (step₁ x >>= fun y => repeatWhile first step₁ y >>= repeatWhile second step₂).run s :=
            run_bind_congr (hfirst x s hf) ((h₁.lt hf).imp fun y s' hlt => ih _ hlt y s' rfl)
        _ = ((step₁ x >>= repeatWhile first step₁) >>= repeatWhile second step₂).run s := by
            rw [bind_assoc]
        _ = (repeatWhile first step₁ x >>= repeatWhile second step₂).run s :=
            (run_bind_congr (h₁.repeatWhile_run_of_more hf) fun _ _ _ => rfl).symm
    | false =>
      rw [(repeatWhile_yields_of_not_more hf).run_bind]
      cases hs : second x s with
      | false =>
        have hmore' : more x s = false := by rw [hor, hf, hs]; rfl
        exact (repeatWhile_yields_of_not_more hmore').trans
          (repeatWhile_yields_of_not_more hs).symm
      | true =>
        have hmore' : more x s = true := by rw [hor, hs, Bool.or_true]
        rw [h.repeatWhile_run_of_more hmore', h₂.repeatWhile_run_of_more hs]
        refine run_bind_congr (hsecond x s hf hs) ?_
        refine ((h₂.lt hs).and (hdone x s hf hs)).imp fun y s' hy => ?_
        -- the first part has nothing to do after a step of the second one
        rw [ih _ hy.1 y s' rfl, (repeatWhile_yields_of_not_more hy.2).run_bind]

/-! ### Operators and their right operands -/

/-- An operator of any level and its right operand, which is joined at tighter levels only. -/
def climb (g : Grammar) (left : PieceTree) : Parse PieceTree := do
  let level := (← get).nextLevel?.getD 0
  joinRight (binaryLevel g (10 - level)) left

/-- Whether an operator comes next that is not looser than a level. -/
def isFromLevel (p : Nat) (s : TokenStream) : Bool := s.nextLevel?.any (p ≤ ·)

variable {g : Grammar} {operand : Parse PieceTree} {left : PieceTree} {n p : Nat}

theorem climb_run (h : s.nextLevel? = some p) :
    (climb g left).run s = (joinRight (binaryLevel g (10 - p)) left).run s := by
  change (joinRight (binaryLevel g (10 - s.nextLevel?.getD 0)) left).run s = _
  rw [h]
  rfl

theorem isFromLevel_eq_true (h : isFromLevel p s = true) : ∃ q, s.nextLevel? = some q ∧ p ≤ q := by
  simpa [isFromLevel, Option.any_eq_true] using h

/-- No operator is tighter than the ten levels. -/
theorem isFromLevel_eleven (s : TokenStream) : isFromLevel 11 s = false := by
  refine eq_false_of_ne_true fun h => ?_
  obtain ⟨q, hq, hle⟩ := isFromLevel_eq_true h
  obtain ⟨op, -, hop⟩ := nextLevel?_eq_some hq
  have hbounds := TokenKind.precedence?_bounds hop
  omega

/-- What holds after the right operand holds after an operator with it. -/
theorem joinRight_ensures {Q : TokenStream → Prop}
    (hoperand : operand.Ensures s.tail fun _ s' => Q s') :
    (joinRight operand left).Ensures s fun _ s' => Q s' := by
  refine (advance_yields s).bind_ensures <| hoperand.bind fun right s' hs' => ?_
  exact close_ensures_eq.imp fun _ _ h => h ▸ hs'

theorem binaryLevel_ensures_le (hg : g.FollowsRules) (hn : n ≤ 10) (s : TokenStream) :
    (binaryLevel g n).Ensures s fun _ s' => s'.rest.length ≤ s.rest.length := by
  refine (binaryLevel_forms hg hn s).imp fun e s' h => ?_
  obtain ⟨w, hw, -⟩ := h
  rw [hw.length_eq]
  exact Nat.le_add_left _ _

theorem joinRight_ensures_lt (hg : g.FollowsRules) (hn : n ≤ 10) (h : s.nextLevel? = some p) :
    (joinRight (binaryLevel g n) left).Ensures s fun _ s' => s'.rest.length < s.rest.length := by
  obtain ⟨op, hop, -⟩ := nextLevel?_eq_some h
  rw [tail_length hop]
  exact joinRight_ensures
    ((binaryLevel_ensures_le hg hn s.tail).imp fun _ _ hle => Nat.lt_succ_of_le hle)

theorem rest_ne_nil_of_nextLevel? (h : s.nextLevel? = some p) : s.rest ≠ [] := by
  obtain ⟨op, hop, -⟩ := nextLevel?_eq_some h
  exact rest_ne_nil_of_next?_eq_some hop

theorem advances_joinRight (hg : g.FollowsRules) (hn : n ≤ 10) (p : Nat) :
    Advances (fun _ => isAtLevel p) (joinRight (binaryLevel g n)) where
  rest_ne_nil h := rest_ne_nil_of_nextLevel? (eq_of_beq h)
  lt h := joinRight_ensures_lt hg hn (eq_of_beq h)

theorem advances_climb (hg : g.FollowsRules) (p : Nat) :
    Advances (fun _ => isFromLevel p) (climb g) where
  rest_ne_nil h := by
    obtain ⟨q, hq, -⟩ := isFromLevel_eq_true h
    exact rest_ne_nil_of_nextLevel? hq
  lt h := by
    obtain ⟨q, hq, -⟩ := isFromLevel_eq_true h
    exact (joinRight_ensures_lt hg (Nat.sub_le 10 q) hq).congr_run (climb_run hq)

/-! ### One loop for all levels -/

/-- After the expressions of a level comes no operator that could be joined to them. -/
theorem binaryLevel_stops (hg : g.FollowsRules) (hn : n ≤ 11) (s : TokenStream) :
    (binaryLevel g n).Ensures s fun _ s' => isFromLevel (11 - n) s' = false := by
  induction n generalizing s with
  | zero =>
    intro e s' _
    exact isFromLevel_eleven s'
  | succ n ih =>
    have hn' : n ≤ 10 := Nat.le_of_succ_le_succ hn
    rw [binaryLevel, joined_eq]
    refine (ih (Nat.le_of_succ_le hn) s).bind fun left s₁ h₁ => ?_
    refine ((advances_joinRight hg hn' _).repeatWhile_ensures
      (I := fun _ s' => isFromLevel (11 - n) s' = false) (fun x s₂ _ _ => ?_) h₁).imp ?_
    · exact joinRight_ensures (ih (Nat.le_of_succ_le hn) s₂.tail)
    · rintro e s' ⟨htighter, hlevel⟩
      refine eq_false_of_ne_true fun h => ?_
      obtain ⟨q, hq, hle⟩ := isFromLevel_eq_true h
      -- an operator from this level on is one of this level or a tighter one
      have hne : q ≠ 10 - n := by
        rintro rfl
        simp [isAtLevel, hq] at hlevel
      simp only [isFromLevel, hq, Option.any_some, decide_eq_false_iff_not] at htighter
      omega

/-- A loop from one level on takes the tighter operators first, and then those of the level. -/
theorem climb_run_split (hg : g.FollowsRules) (hn : n ≤ 10) (x : PieceTree) (s : TokenStream) :
    (repeatWhile (fun _ => isFromLevel (10 - n)) (climb g) x).run s =
      (repeatWhile (fun _ => isFromLevel (11 - n)) (climb g) x >>=
        repeatWhile (fun _ => isAtLevel (10 - n)) (joinRight (binaryLevel g n))).run s := by
  refine repeatWhile_run_split (advances_climb hg _) (advances_climb hg _)
    (advances_joinRight hg hn _) (fun _ s => ?_) (fun _ _ _ => rfl) (fun x s _ hs => ?_)
    (fun x s _ _ => ?_) x s
  · rw [isFromLevel, isFromLevel, isAtLevel]
    cases s.nextLevel? with
    | none => rfl
    | some q =>
      rw [Bool.eq_iff_iff]
      simp only [Option.any_some, decide_eq_true_eq, Bool.or_eq_true, beq_iff_eq,
        Option.some.injEq]
      omega
  · rw [climb_run (eq_of_beq hs), Nat.sub_sub_self hn]
  · exact joinRight_ensures (binaryLevel_stops hg (Nat.le_succ_of_le hn) s.tail)

/-- **The expressions of a level are read by a single loop**, which takes operators from that level
on and reads the right operand of each one level tighter. -/
theorem binaryLevel_run_eq_climb (hg : g.FollowsRules) (hn : n ≤ 11) (s : TokenStream) :
    (binaryLevel g n).run s =
      (unary g >>= repeatWhile (fun _ => isFromLevel (11 - n)) (climb g)).run s := by
  induction n generalizing s with
  | zero =>
    have hstop (e : PieceTree) (s' : TokenStream) :
        (repeatWhile (fun _ => isFromLevel 11) (climb g) e).Yields s' e s' :=
      repeatWhile_yields_of_not_more (isFromLevel_eleven s')
    calc (unary g).run s
        = (unary g >>= pure).run s := by rw [bind_pure]
      _ = (unary g >>= repeatWhile (fun _ => isFromLevel 11) (climb g)).run s :=
          run_bind_congr rfl fun e s' _ => (hstop e s').symm
  | succ n ih =>
    have hn' : n ≤ 10 := Nat.le_of_succ_le_succ hn
    let joinAll := repeatWhile (fun _ => isAtLevel (10 - n)) (joinRight (binaryLevel g n))
    rw [Nat.add_sub_add_right 10 1 n]
    calc (binaryLevel g (n + 1)).run s
        = (binaryLevel g n >>= joinAll).run s := rfl
      _ = ((unary g >>= repeatWhile (fun _ => isFromLevel (11 - n)) (climb g)) >>= joinAll).run s :=
          run_bind_congr (ih (Nat.le_of_succ_le hn) s) fun _ _ _ => rfl
      _ = (unary g >>= fun x =>
            repeatWhile (fun _ => isFromLevel (11 - n)) (climb g) x >>= joinAll).run s := by
          rw [bind_assoc]
      _ = (unary g >>= repeatWhile (fun _ => isFromLevel (10 - n)) (climb g)).run s :=
          run_bind_congr rfl fun x s' _ => (climb_run_split hg hn' x s').symm

end Parse

end Mend
