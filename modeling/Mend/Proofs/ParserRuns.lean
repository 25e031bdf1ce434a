import Mend.Proofs.ExpressionGrammar
import Mend.Proofs.ParserRules

/-!
# Runs of parsers

What a parser promises when it succeeds leaves open whether it does.  Here are the rules for
parsers that do succeed: each is told by the kinds of the tokens that are consumed and by the token
that comes next.

A loop is told by what is left to do: it reaches a state when it ends there like a loop that starts
there, with any number of rounds that is enough for the tokens that are left.

## Main definitions

* `TokenStream.Consumes` — the tokens of a word are taken.
* `Parse.Yields` — a parser succeeds, with a result and the tokens that are left.
* `Parse.Reaches` — a loop comes from one state to another.

## Main results

* `Parse.Reaches.repeatWhile_yields` — a loop yields what it reaches when there is no more.
* `Parse.close_yields` — the tree of a node covers the word that was consumed.
-/

namespace Mend

/-! ### Words that are consumed -/

namespace TokenStream

/-- From one state to another the tokens of a word are taken, and nothing else changes. -/
def Consumes (s : TokenStream) (w : List TokenKind) (s' : TokenStream) : Prop :=
  ∃ ts, s.rest = ts ++ s'.rest ∧ ts.map (·.kind) = w ∧ s'.position = s.position + w.length ∧
    s'.textLength = s.textLength

/-- The kind of the token at a position, among those that are left. -/
def kindAt (s : TokenStream) (i : Nat) : Option TokenKind :=
  (s.rest[i - s.position]?).map (·.kind)

/-- Tokens of the given kinds, the first of which is at a position. -/
def ofKinds (i : Nat) (w : List TokenKind) : TokenStream :=
  ⟨w.map fun k => ⟨k, ⟨0, 0⟩, k.spelling⟩, i, 0⟩

theorem ofKinds_consumes (i : Nat) (v w : List TokenKind) :
    (ofKinds i (v ++ w)).Consumes v (ofKinds (i + v.length) w) :=
  ⟨v.map fun k => ⟨k, ⟨0, 0⟩, k.spelling⟩, by simp [ofKinds], by simp [Function.comp_def], rfl, rfl⟩

variable {s m s' : TokenStream} {k : TokenKind} {v w : List TokenKind}

@[simp] theorem consumes_nil : s.Consumes [] s' ↔ s' = s := by
  constructor
  · rintro ⟨ts, hrest, hkinds, hposition, hlength⟩
    obtain rfl := List.map_eq_nil_iff.1 hkinds
    cases s
    cases s'
    simp_all
  · rintro rfl
    exact ⟨[], by simp⟩

@[simp] theorem consumes_cons :
    s.Consumes (k :: w) s' ↔ s.next? = some k ∧ s.tail.Consumes w s' := by
  obtain ⟨rest, position, length⟩ := s
  cases rest with
  | nil => simp [Consumes, next?]
  | cons t rest =>
    constructor
    · rintro ⟨ts, hrest, hkinds, hposition, hlength⟩
      obtain ⟨u, us, rfl, rfl, rfl⟩ := List.map_eq_cons_iff.1 hkinds
      obtain ⟨rfl, rfl⟩ := List.cons.inj hrest
      refine ⟨rfl, us, rfl, rfl, ?_, hlength⟩
      simp only [tail, List.length_cons] at hposition ⊢
      omega
    · rintro ⟨hk, us, hrest, hkinds, hposition, hlength⟩
      simp only [tail] at hrest hposition hlength
      obtain rfl : t.kind = k := Option.some.inj hk
      refine ⟨t :: us, by simp [hrest], by simp [hkinds], ?_, hlength⟩
      simp only [List.length_cons] at hposition ⊢
      omega

theorem consumes_singleton : s.Consumes [k] s' ↔ s.next? = some k ∧ s' = s.tail := by
  rw [consumes_cons, consumes_nil]

@[simp] theorem consumes_append :
    s.Consumes (v ++ w) s' ↔ ∃ m, s.Consumes v m ∧ m.Consumes w s' := by
  induction v generalizing s with
  | nil => simp
  | cons k v ih => simp [ih, and_assoc]

namespace Consumes

protected theorem refl (s : TokenStream) : s.Consumes [] s := consumes_nil.2 rfl

protected theorem append (h : s.Consumes v m) (h' : m.Consumes w s') : s.Consumes (v ++ w) s' :=
  consumes_append.2 ⟨m, h, h'⟩

theorem position_eq (h : s.Consumes w s') : s'.position = s.position + w.length := by
  obtain ⟨ts, -, -, hposition, -⟩ := h
  exact hposition

theorem length_eq (h : s.Consumes w s') : s.rest.length = w.length + s'.rest.length := by
  obtain ⟨ts, hrest, rfl, -, -⟩ := h
  simp [hrest]

/-- The first token that is consumed is the next one. -/
theorem next?_eq (h : s.Consumes w s') (hk : w.head? = some k) : s.next? = some k := by
  obtain ⟨w, rfl⟩ := List.head?_eq_some_iff.1 hk
  exact (consumes_cons.1 h).1

/-- The tokens that are consumed are found at their positions. -/
theorem foundAt (h : s.Consumes w s') : TokenKind.FoundAt s.kindAt s.position w := by
  obtain ⟨ts, hrest, rfl, -, -⟩ := h
  intro j hj
  rw [List.length_map] at hj
  rw [kindAt, Nat.add_sub_cancel_left, hrest, List.getElem?_append_left hj, List.getElem?_map]

end Consumes

theorem tail_length (h : s.next? = some k) : s.rest.length = s.tail.rest.length + 1 := by
  have hone := consumes_singleton.2 ⟨h, rfl⟩
  rw [hone.length_eq, List.length_singleton, Nat.add_comm]

theorem tail_position (h : s.next? = some k) : s.tail.position = s.position + 1 := by
  have hone := consumes_singleton.2 ⟨h, rfl⟩
  exact hone.position_eq

/-- A word between two tokens is consumed. -/
theorem Consumes.between {l r : TokenKind} (hl : s.next? = some l) (h : s.tail.Consumes w m)
    (hr : m.next? = some r) : s.Consumes (l :: (w ++ [r])) m.tail :=
  consumes_cons.2 ⟨hl, h.append (consumes_singleton.2 ⟨hr, rfl⟩)⟩

theorem isAt_eq_true_iff : s.isAt k = true ↔ s.next? = some k := by
  simp [isAt]

end TokenStream

/-! ### Parsers that succeed -/

namespace Parse

open TokenStream

variable {α β σ : Type} {s m s' : TokenStream} {p q : Parse α} {a : α} {b : β} {k : TokenKind}

/-- A parser succeeds on some tokens, with a result and the tokens that are left. -/
def Yields (p : Parse α) (s : TokenStream) (a : α) (s' : TokenStream) : Prop :=
  p.run s = .ok (a, s')

namespace Yields

protected theorem pure (a : α) (s : TokenStream) : (pure a : Parse α).Yields s a s := rfl

/-- One parser, and then another. -/
protected theorem bind {f : α → Parse β} (h : p.Yields s a m) (hf : (f a).Yields m b s') :
    (p >>= f).Yields s b s' := by
  rw [Yields, StateT.run_bind, h]
  exact hf

/-- Looking at the state. -/
protected theorem get_bind {f : TokenStream → Parse α} (h : (f s).Yields s a s') :
    (get >>= f).Yields s a s' := h

/-- A choice between two parsers, and then another one. -/
protected theorem ite_bind {c : Prop} [Decidable c] {f : α → Parse β}
    (h : (if c then p else q).Yields s a m) (hf : (f a).Yields m b s') :
    (if c then p >>= f else q >>= f).Yields s b s' := by
  by_cases hc : c
  · rw [if_pos hc] at h ⊢
    exact h.bind hf
  · rw [if_neg hc] at h ⊢
    exact h.bind hf

/-- Parsers that run alike yield the same. -/
theorem congr_run (hq : q.Yields s a s') (h : p.run s = q.run s) : p.Yields s a s' :=
  h.trans hq

/-- What comes after a parser that succeeds runs from there. -/
theorem run_bind {f : α → Parse β} (h : p.Yields s a m) : (p >>= f).run s = (f a).run m := by
  rw [StateT.run_bind, h]
  rfl

/-- Two results of a parser are the same. -/
theorem unique {a' : α} {s'' : TokenStream} (h : p.Yields s a s') (h' : p.Yields s a' s'') :
    a = a' ∧ s' = s'' :=
  Prod.mk.inj (Except.ok.inj (h.symm.trans h'))

end Yields

theorem peek_yields (s : TokenStream) : peek.Yields s s.next? s := rfl

theorem advance_yields (s : TokenStream) : advance.Yields s s.position s.tail := rfl

theorem expect_yields (h : s.next? = some k) : (expect k).Yields s s.position s.tail := by
  refine .get_bind ?_
  rw [if_pos (isAt_eq_true_iff.2 h)]
  exact advance_yields s

theorem expectName_yields {what : Expectation} (h : s.next? = some .identifier) :
    (expectName what).Yields s s.position s.tail := by
  refine .get_bind ?_
  rw [if_pos (isAt_eq_true_iff.2 h)]
  exact advance_yields s

theorem eat?_yields_some (h : s.next? = some k) : (eat? k).Yields s (some s.position) s.tail := by
  refine .get_bind ?_
  rw [if_pos (isAt_eq_true_iff.2 h)]
  exact (advance_yields s).bind (.pure _ _)

theorem eat?_yields_none (h : s.next? ≠ some k) : (eat? k).Yields s none s := by
  refine .get_bind ?_
  rw [if_neg (mt isAt_eq_true_iff.1 h)]
  exact .pure _ _

/-- The tree of a node covers the word that was consumed. -/
theorem close_yields {kind : NodeKind} {first : Nat} {w : List TokenKind} {cs : List PieceTree}
    (h : s.Consumes w s') (hw : w ≠ []) (hfirst : first = s.position) :
    (close kind first cs).Yields s' (.spanning kind s.position w cs) s' := by
  have hlast : max s.position (s'.position - 1) = s.position + w.length - 1 := by
    have hpos := List.length_pos_iff.2 hw
    rw [h.position_eq]
    omega
  refine .get_bind ?_
  rw [hfirst, hlast]
  exact .pure _ _

/-! ### Loops -/

/-- From a value and a state a loop comes to another value and state: it ends like the loop that
starts there, with any number of rounds that is enough. -/
def Reaches (more : σ → TokenStream → Bool) (step : σ → Parse σ) (x : σ) (s : TokenStream) (y : σ)
    (s' : TokenStream) : Prop :=
  ∀ z s'', (∀ n, s'.rest.length ≤ n → (rounds more step n y).Yields s' z s'') →
    ∀ n, s.rest.length ≤ n → (rounds more step n x).Yields s z s''

variable {more : σ → TokenStream → Bool} {step : σ → Parse σ} {x y z : σ}

/-- A loop stops when there is no more, however many rounds are left. -/
theorem rounds_yields_of_not_more (hmore : more x s = false) (n : Nat) :
    (rounds more step n x).Yields s x s := by
  cases n with
  | zero => exact .pure _ _
  | succ n =>
    refine .get_bind ?_
    rw [if_neg (by simp [hmore])]
    exact .pure _ _

theorem repeatWhile_yields_of_not_more (hmore : more x s = false) :
    (repeatWhile more step x).Yields s x s :=
  .get_bind (rounds_yields_of_not_more hmore _)

namespace Reaches

protected theorem refl (x : σ) (s : TokenStream) : Reaches more step x s x s :=
  fun _ _ h => h

/-- A loop goes one round further. -/
protected theorem step (h : Reaches more step x s y m) (hmore : more y m = true)
    (hstep : (step y).Yields m z s') (hlt : s'.rest.length < m.rest.length) :
    Reaches more step x s z s' := by
  intro r s'' hend
  refine h r s'' fun n hn => ?_
  cases n with
  | zero => omega
  | succ n =>
    refine .get_bind ?_
    rw [if_pos hmore]
    exact hstep.bind (hend n (by omega))

/-- A loop yields what it reaches when there is no more. -/
theorem repeatWhile_yields (h : Reaches more step x s y s') (hmore : more y s' = false) :
    (repeatWhile more step x).Yields s y s' :=
  .get_bind (h y s' (fun n _ => rounds_yields_of_not_more hmore n) _ (Nat.le_refl _))

end Reaches

variable {more : TokenStream → Bool} {item : Parse α} {as : List α}

/-- No items, however many rounds there are. -/
theorem items_yields_nil (hmore : more s = false) (n : Nat) :
    (items more item n).Yields s [] s := by
  cases n with
  | zero => exact .pure _ _
  | succ n =>
    refine .get_bind ?_
    rw [if_neg (by simp [hmore])]
    exact .pure _ _

/-- An item and then others, with enough rounds for all. -/
theorem items_yields_cons (hmore : more s = true) (hitem : item.Yields s a m)
    (hlt : m.rest.length < s.rest.length)
    (has : ∀ n, m.rest.length ≤ n → (items more item n).Yields m as s') {n : Nat}
    (hn : s.rest.length ≤ n) : (items more item n).Yields s (a :: as) s' := by
  cases n with
  | zero => omega
  | succ n =>
    refine .get_bind ?_
    rw [if_pos hmore]
    exact hitem.bind ((has n (by omega)).bind (.pure _ _))

/-! ### Promises about the next token -/

variable {f : α → Parse β} {Q : β → TokenStream → Prop}

/-- A parser that succeeds promises what holds of its result. -/
theorem Yields.ensures {Q : α → TokenStream → Prop} (h : p.Yields s a s') (hQ : Q a s') :
    p.Ensures s Q := by
  intro b s'' hb
  obtain ⟨rfl, rfl⟩ := h.unique hb
  exact hQ

/-- Parsers that run alike promise the same. -/
theorem Ensures.congr_run {Q : α → TokenStream → Prop} (hq : q.Ensures s Q)
    (h : p.run s = q.run s) : p.Ensures s Q :=
  fun a s' hp => hq a s' (h ▸ hp)

/-- Parsers that run alike may be followed by others that do so on what the first ones leave. -/
theorem run_bind_congr {f' : α → Parse β} (h : p.run s = q.run s)
    (hf : q.Ensures s fun a s' => (f a).run s' = (f' a).run s') :
    (p >>= f).run s = (q >>= f').run s := by
  rw [StateT.run_bind, StateT.run_bind, h]
  cases hq : q.run s with
  | error e => rfl
  | ok r => exact hf r.1 r.2 hq

/-- A parser that succeeds, and then another one. -/
theorem Yields.bind_ensures (h : p.Yields s a m) (hf : (f a).Ensures m Q) :
    (p >>= f).Ensures s Q := by
  refine (h.ensures (Q := fun b m' => b = a ∧ m' = m) ⟨rfl, rfl⟩).bind ?_
  rintro _ _ ⟨rfl, rfl⟩
  exact hf

/-- A token that must come next, and then another parser. -/
theorem expect_bind_ensures {f : Nat → Parse β}
    (hf : s.next? = some k → (f s.position).Ensures s.tail Q) : (expect k >>= f).Ensures s Q := by
  by_cases hk : s.next? = some k
  · exact (expect_yields hk).bind_ensures (hf hk)
  · have hat : s.isAt k = false := by simpa [isAt] using hk
    exact (expect_ensures_of_isAt_eq_false (Q := fun _ _ => False) hat).bind
      fun _ _ hfalse => hfalse.elim

/-- A name that must come next, and then another parser. -/
theorem expectName_bind_ensures {what : Expectation} {f : Nat → Parse β}
    (hf : s.next? = some .identifier → (f s.position).Ensures s.tail Q) :
    (expectName what >>= f).Ensures s Q := by
  by_cases hk : s.next? = some .identifier
  · exact (expectName_yields hk).bind_ensures (hf hk)
  · refine (Ensures.get_bind ?_ : (expectName what).Ensures s fun _ _ => False).bind
      fun _ _ hfalse => hfalse.elim
    exact .ite (fun hat => absurd (isAt_eq_true_iff.1 hat) hk) fun _ => fail_ensures what

/-- Two ways to go on, by the kind of the next token. -/
theorem eat?_bind_ensures {f : Option Nat → Parse β}
    (hsome : s.next? = some k → (f (some s.position)).Ensures s.tail Q)
    (hnone : s.next? ≠ some k → (f none).Ensures s Q) : (eat? k >>= f).Ensures s Q := by
  by_cases hk : s.next? = some k
  · exact (eat?_yields_some hk).bind_ensures (hsome hk)
  · exact (eat?_yields_none hk).bind_ensures (hnone hk)

/-- The tree of a node covers the word that was consumed. -/
theorem close_ensures_spanning {kind : NodeKind} {first : Nat} {w : List TokenKind}
    {cs : List PieceTree} {Q : PieceTree → TokenStream → Prop} (h : s.Consumes w s') (hw : w ≠ [])
    (hfirst : first = s.position) (hQ : Q (.spanning kind s.position w cs) s') :
    (close kind first cs).Ensures s' Q :=
  (close_yields h hw hfirst).ensures hQ

end Parse

end Mend
