import Mend.Code.Parser.File
import Mend.Proofs.Layout
import Mend.Proofs.Subtrees

/-!
# Rules for parsers

What a parser promises when it does not fail is told by a property of its result and of the tokens
that are left.  There is one rule for each way in which parsers are put together, and one for each
of the parsers that others are made of.  All of them speak of the tokens that were taken between
two states: how they are used, by runs that follow each other.

## Main definitions

* `TokenStream.Takes` — tokens were taken, among them the given runs.
* `TokenStream.Reads`, `TokenStream.ReadsAll` — the tokens taken are those of one tree, or hold
  the trees of a list.
* `Parse.Ensures` — what holds when a parser succeeds.

## Main results

* `Parse.close_ensures` — the tree of a node is laid out when the tokens and trees of the node are
  taken in the order of its kind.
* `Parse.items_ensures`, `Parse.rounds_ensures` — loops.
-/

namespace Mend

/-- Every node of a tree is laid out. -/
def PieceTree.IsLaid (t : PieceTree) : Prop := t.All Piece.IsLaid

/-- The tokens that a tree covers. -/
def PieceTree.run (t : PieceTree) : TokenRun := t.label.run

/-! ### Tokens that are taken -/

namespace TokenStream

/-- The number of all tokens. -/
def total (s : TokenStream) : Nat := s.position + s.rest.length

/-- From one state to another tokens are taken, and among them the given runs, in order. -/
structure Takes (s : TokenStream) (rs : List TokenRun) (s' : TokenStream) : Prop where
  /-- No token is lost. -/
  total_eq : s'.total = s.total
  /-- When no token is taken, nothing changes. -/
  eq_of_position_eq : s'.position = s.position → s' = s
  /-- The runs follow each other among the tokens that are taken. -/
  inOrder : TokenRun.InOrder s.position rs s'.position

/-- From one state to another the tokens of a tree are taken. -/
structure Reads (s : TokenStream) (t : PieceTree) (s' : TokenStream) : Prop where
  /-- The tokens of the tree are taken. -/
  takes : s.Takes [t.run] s'
  /-- The tree is laid out. -/
  isLaid : t.IsLaid
  /-- The first token that is taken is the first one of the tree. -/
  first_eq : t.label.first = s.position
  /-- The last token that is taken is the last one of the tree. -/
  last_eq : t.label.last + 1 = s'.position

/-- From one state to another tokens are taken that hold the trees of a list. -/
structure ReadsAll (s : TokenStream) (ts : List PieceTree) (s' : TokenStream) : Prop where
  /-- The tokens of the trees are taken. -/
  takes : s.Takes (ts.map PieceTree.run) s'
  /-- The trees are laid out. -/
  isLaid : ∀ t ∈ ts, t.IsLaid

variable {s m s' : TokenStream} {rs rs' : List TokenRun} {t : PieceTree} {ts ts' : List PieceTree}

namespace Takes

theorem refl (s : TokenStream) : s.Takes [] s := ⟨rfl, fun _ => rfl, Nat.le_refl _⟩

protected theorem le (h : s.Takes rs s') : s.position ≤ s'.position := h.inOrder.le

/-- Where a run is taken, there is a token. -/
protected theorem lt (h : s.Takes rs s') (hne : rs ≠ []) : s.position < s'.position :=
  h.inOrder.lt hne

/-- Tokens are taken, and then more. -/
protected theorem append (h : s.Takes rs m) (h' : m.Takes rs' s') : s.Takes (rs ++ rs') s' where
  total_eq := h'.total_eq.trans h.total_eq
  eq_of_position_eq heq := by
    have hle := h.le
    have hle' := h'.le
    rw [h'.eq_of_position_eq (by omega), h.eq_of_position_eq (by omega)]
  inOrder := h.inOrder.append h'.inOrder

/-- Some runs may be left unused. -/
protected theorem sublist (h : s.Takes rs s') (hsub : rs'.Sublist rs) : s.Takes rs' s' :=
  ⟨h.total_eq, h.eq_of_position_eq, h.inOrder.sublist hsub⟩

/-- All tokens may be left unused. -/
protected theorem nil (h : s.Takes rs s') : s.Takes [] s' := h.sublist (List.nil_sublist _)

end Takes

theorem Reads.readsAll (h : s.Reads t s') : s.ReadsAll [t] s' :=
  ⟨h.takes, by simpa using h.isLaid⟩

namespace ReadsAll

theorem nil (h : s.Takes rs s') : s.ReadsAll [] s' := ⟨h.nil, by simp⟩

protected theorem append (h : s.ReadsAll ts m) (h' : m.ReadsAll ts' s') :
    s.ReadsAll (ts ++ ts') s' where
  takes := by
    rw [List.map_append]
    exact h.takes.append h'.takes
  isLaid := List.forall_mem_append.2 ⟨h.isLaid, h'.isLaid⟩

/-- A tree is read, and then others. -/
protected theorem cons (h : s.Reads t m) (h' : m.ReadsAll ts s') : s.ReadsAll (t :: ts) s' :=
  h.readsAll.append h'

end ReadsAll

/-- Taking the next token, if there is one. -/
theorem takes_tail (h : s.rest ≠ []) : s.Takes [.single s.position] s.tail := by
  obtain ⟨rest, position, length⟩ := s
  cases rest with
  | nil => exact absurd rfl h
  | cons t rest =>
    refine ⟨?_, fun heq => ?_, ?_⟩
    · simp only [total, tail, List.length_cons]
      omega
    · simp only [tail] at heq
      omega
    · simp [tail]

/-- A kind of the next token is that of a token. -/
theorem rest_ne_nil_of_next?_eq_some {k : TokenKind} (h : s.next? = some k) : s.rest ≠ [] := by
  intro hnil
  simp [next?, hnil] at h

theorem rest_ne_nil_of_isAt {k : TokenKind} (h : s.isAt k = true) : s.rest ≠ [] :=
  rest_ne_nil_of_next?_eq_some (eq_of_beq h)

theorem rest_ne_nil_of_isBefore {k : TokenKind} (h : s.isBefore k = true) : s.rest ≠ [] := by
  intro hnil
  simp [isBefore, next?, hnil] at h

end TokenStream

/-! ### Promises of parsers -/

namespace Parse

open TokenStream TokenRun

variable {α β σ : Type} {s s₀ : TokenStream} {p q : Parse α} {Q R : α → TokenStream → Prop}

/-- When a parser succeeds on some tokens, its result and the tokens that are left have a
property. -/
def Ensures (p : Parse α) (s : TokenStream) (Q : α → TokenStream → Prop) : Prop :=
  ∀ a s', p.run s = .ok (a, s') → Q a s'

namespace Ensures

protected theorem imp (h : p.Ensures s Q) (hQ : ∀ a s', Q a s' → R a s') : p.Ensures s R :=
  fun a s' hp => hQ a s' (h a s' hp)

protected theorem and (h : p.Ensures s Q) (h' : p.Ensures s R) :
    p.Ensures s fun a s' => Q a s' ∧ R a s' :=
  fun a s' hp => ⟨h a s' hp, h' a s' hp⟩

/-- One parser, and then another that depends on what the first one has read. -/
protected theorem bind {f : α → Parse β} {Q' : β → TokenStream → Prop} (h : p.Ensures s Q)
    (hf : ∀ a s', Q a s' → (f a).Ensures s' Q') : (p >>= f).Ensures s Q' := by
  intro b s' hb
  rw [StateT.run_bind] at hb
  cases hp : p.run s with
  | error e =>
    rw [hp] at hb
    cases hb
  | ok r =>
    rw [hp] at hb
    exact hf r.1 r.2 (h r.1 r.2 hp) b s' hb

protected theorem pure {a : α} (h : Q a s) : (pure a : Parse α).Ensures s Q := by
  rintro b s' hb
  cases hb
  exact h

/-- Looking at the state. -/
protected theorem get_bind {f : TokenStream → Parse α} (h : (f s).Ensures s Q) :
    (get >>= f).Ensures s Q := h

protected theorem ite {c : Prop} [Decidable c] (hc : c → p.Ensures s Q)
    (hnc : ¬c → q.Ensures s Q) : (if c then p else q).Ensures s Q := by
  split
  · exact hc ‹_›
  · exact hnc ‹_›

/-- A choice between two parsers, and then another one. -/
protected theorem ite_bind {c : Prop} [Decidable c] {f : α → Parse β}
    {Q' : β → TokenStream → Prop} (h : (if c then p else q).Ensures s Q)
    (hf : ∀ a s', Q a s' → (f a).Ensures s' Q') :
    (if c then p >>= f else q >>= f).Ensures s Q' := by
  by_cases hc : c
  · rw [if_pos hc] at h ⊢
    exact h.bind hf
  · rw [if_neg hc] at h ⊢
    exact h.bind hf

/-- A parser that is left out unless a condition holds, and then another one. -/
protected theorem when_bind {c : Prop} [Decidable c] {p : Parse Unit} {f : Unit → Parse β}
    {P : TokenStream → Prop} {Q : β → TokenStream → Prop} (hc : c → p.Ensures s fun _ s' => P s')
    (hnc : ¬c → P s) (hf : ∀ s', P s' → (f ()).Ensures s' Q) :
    (if c then p >>= f else f ()).Ensures s Q :=
  .ite (fun h => (hc h).bind fun _ s' hs' => hf s' hs') fun h => hf s (hnc h)

end Ensures

/-- A parser that gives up promises everything. -/
theorem fail_ensures (what : Expectation) : (fail what : Parse α).Ensures s Q := by
  rintro b s' hb
  cases hb

/-! ### Single tokens -/

theorem peek_ensures : peek.Ensures s fun k s' => k = s.next? ∧ s' = s := by
  rintro k s' hk
  cases hk
  exact ⟨rfl, rfl⟩

theorem advance_ensures_tail : advance.Ensures s fun i s' => i = s.position ∧ s' = s.tail := by
  rintro i s' hi
  cases hi
  exact ⟨rfl, rfl⟩

theorem advance_ensures (h : s.rest ≠ []) :
    advance.Ensures s fun i s' => i = s.position ∧ s.Takes [.single i] s' := by
  refine advance_ensures_tail.imp fun i s' hi => ?_
  obtain ⟨rfl, rfl⟩ := hi
  exact ⟨rfl, takes_tail h⟩

/-- Taking the next token if it is of a kind, and otherwise giving up. -/
theorem advanceAt_ensures {k : TokenKind} {what : Expectation} :
    (if s.isAt k then advance else fail what).Ensures s fun i s' => s.Takes [.single i] s' :=
  .ite (fun h => (advance_ensures (rest_ne_nil_of_isAt h)).imp fun _ _ hi => hi.2)
    fun _ => fail_ensures what

theorem expect_ensures (k : TokenKind) :
    (expect k).Ensures s fun i s' => s.Takes [.single i] s' :=
  .get_bind advanceAt_ensures

theorem expectName_ensures (what : Expectation) :
    (expectName what).Ensures s fun i s' => s.Takes [.single i] s' :=
  .get_bind advanceAt_ensures

theorem eat?_ensures (k : TokenKind) :
    (eat? k).Ensures s fun o s' => s.Takes (o.toList.map .single) s' := by
  refine .get_bind <| .ite (fun h => ?_) fun _ => .pure (Takes.refl s)
  exact (advance_ensures (rest_ne_nil_of_isAt h)).bind fun i s' hi => .pure hi.2

/-- A token that does not come next cannot be taken. -/
theorem expect_ensures_of_isAt_eq_false {k : TokenKind} {Q : Nat → TokenStream → Prop}
    (h : s.isAt k = false) : (expect k).Ensures s Q :=
  .get_bind <| .ite (fun hk => absurd hk (by simp [h])) fun _ => fail_ensures _

/-- Two ways to go on, with a token that was taken and without one. -/
theorem eat?_bind {k : TokenKind} {f : Option Nat → Parse α}
    (hsome : ∀ i s', s.Takes [.single i] s' → (f (some i)).Ensures s' Q)
    (hnone : (f none).Ensures s Q) : (eat? k >>= f).Ensures s Q := by
  have heat : (eat? k).Ensures s fun o s' =>
      (∃ i, o = some i ∧ s.Takes [.single i] s') ∨ o = none ∧ s' = s := by
    refine .get_bind <| .ite (fun h => ?_) fun _ => .pure (.inr ⟨rfl, rfl⟩)
    exact (advance_ensures (rest_ne_nil_of_isAt h)).bind fun i s' hi => .pure (.inl ⟨i, rfl, hi.2⟩)
  refine heat.bind fun o s' ho => ?_
  rcases ho with ⟨i, rfl, hi⟩ | ⟨rfl, rfl⟩
  · exact hsome i s' hi
  · exact hnone

/-- The tree of a node is laid out, and is of its kind. -/
theorem close_ensures_of_branches {kind : NodeKind} {first : Nat} {cs : List PieceTree}
    (hbranches : kind.isIf = true → ∀ c ∈ cs.tail, c.label.kind.isBinary = false)
    (h : s₀.Takes (interleave (kind.slots (cs.map (·.label.kind))) (cs.map PieceTree.run)) s)
    (hlt : s₀.position < s.position) (hfirst : first = s₀.position) (hcs : ∀ c ∈ cs, c.IsLaid) :
    (close kind first cs).Ensures s fun t s' => s₀.Reads t s' ∧ t.label.kind = kind := by
  rintro t s' ht
  cases ht
  have hlast : max first (s.position - 1) + 1 = s.position := by omega
  refine ⟨⟨⟨h.total_eq, h.eq_of_position_eq, ?_⟩, ?_, hfirst, hlast⟩, rfl⟩
  · show _ ≤ first ∧ first ≤ max first (s.position - 1) ∧ max first (s.position - 1) + 1 ≤ _
    omega
  · -- the last token of the node is the one before the tokens that are left
    refine Rose.all_node.2 ⟨⟨Nat.le_max_left _ _, ?_, fun hif c hc => ?_⟩, hcs⟩
    · rw [hlast, hfirst, Piece.layout, List.map_map, List.map_map]
      exact h.inOrder
    · rw [← List.map_tail] at hc
      obtain ⟨t, ht, rfl⟩ := List.mem_map.1 hc
      exact hbranches hif t ht

/-- The tree of a node that has no branches is laid out, and is of its kind. -/
theorem close_ensures_kind {kind : NodeKind} {first : Nat} {cs : List PieceTree}
    (hif : kind.isIf = false)
    (h : s₀.Takes (interleave (kind.slots (cs.map (·.label.kind))) (cs.map PieceTree.run)) s)
    (hlt : s₀.position < s.position) (hfirst : first = s₀.position) (hcs : ∀ c ∈ cs, c.IsLaid) :
    (close kind first cs).Ensures s fun t s' => s₀.Reads t s' ∧ t.label.kind = kind :=
  close_ensures_of_branches (fun h => by simp [hif] at h) h hlt hfirst hcs

/-- **The tree of a node is laid out** when the tokens and trees of the node are taken in the order
of its kind, the first token of all being that of the node. -/
theorem close_ensures {kind : NodeKind} {first : Nat} {cs : List PieceTree}
    (hif : kind.isIf = false)
    (h : s₀.Takes (interleave (kind.slots (cs.map (·.label.kind))) (cs.map PieceTree.run)) s)
    (hlt : s₀.position < s.position) (hfirst : first = s₀.position) (hcs : ∀ c ∈ cs, c.IsLaid) :
    (close kind first cs).Ensures s s₀.Reads :=
  (close_ensures_kind hif h hlt hfirst hcs).imp fun _ _ ht => ht.1

/-- Closing a node takes no token. -/
theorem close_ensures_eq {kind : NodeKind} {first : Nat} {cs : List PieceTree} :
    (close kind first cs).Ensures s fun _ s' => s' = s := by
  rintro t s' ht
  cases ht
  rfl

/-! ### Loops -/

/-- A loop that collects items.  A step lemma for an item makes one for all items. -/
theorem items_ensures {more : TokenStream → Bool} {item : Parse α}
    {one : TokenStream → α → TokenStream → Prop} {many : TokenStream → List α → TokenStream → Prop}
    (hnil : ∀ s, many s [] s)
    (hcons : ∀ s a m as s', more s = true → one s a m → many m as s' → many s (a :: as) s')
    (hitem : ∀ s, more s = true → item.Ensures s (one s)) (n : Nat) (s : TokenStream) :
    (items more item n).Ensures s (many s) := by
  induction n generalizing s with
  | zero => exact .pure (hnil s)
  | succ n ih =>
    refine .get_bind <| .ite (fun hmore => ?_) fun _ => .pure (hnil s)
    refine (hitem s hmore).bind fun a m ha => ?_
    exact (ih m).bind fun as s' has => .pure (hcons s a m as s' hmore ha has)

/-- A loop that collects trees with a property. -/
theorem collectWhile_ensures {more : TokenStream → Bool} {item : Parse PieceTree}
    {P : PieceTree → Prop}
    (hitem : ∀ s, more s = true → item.Ensures s fun t s' => s.ReadsAll [t] s' ∧ P t)
    (s : TokenStream) :
    (collectWhile more item).Ensures s fun ts s' => s.ReadsAll ts s' ∧ ∀ t ∈ ts, P t := by
  let many (s : TokenStream) (ts : List PieceTree) (s' : TokenStream) : Prop :=
    s.ReadsAll ts s' ∧ ∀ t ∈ ts, P t
  refine .get_bind <| @items_ensures _ _ _ _ many ?_ ?_ hitem _ s
  · exact fun s => ⟨.nil (.refl s), by simp⟩
  · rintro s t m ts s' - ⟨hone, ht⟩ ⟨hmany, hts⟩
    exact ⟨hone.append hmany, List.forall_mem_cons.2 ⟨ht, hts⟩⟩

/-- A loop that collects trees. -/
theorem collectTrees_ensures {more : TokenStream → Bool} {item : Parse PieceTree}
    (hitem : ∀ s, more s = true → item.Ensures s fun t s' => s.ReadsAll [t] s') (s : TokenStream) :
    (collectWhile more item).Ensures s s.ReadsAll :=
  (collectWhile_ensures (P := fun _ => True)
    (fun s hs => (hitem s hs).imp fun _ _ h => ⟨h, trivial⟩) s).imp fun _ _ h => h.1

/-- A loop that collects tokens. -/
theorem collectTokens_ensures {more : TokenStream → Bool} {item : Parse Nat}
    (hitem : ∀ s, more s = true → item.Ensures s fun i s' => s.Takes [.single i] s')
    (s : TokenStream) : (collectWhile more item).Ensures s fun is s' =>
      s.Takes (is.map .single) s' := by
  let many (s : TokenStream) (is : List Nat) (s' : TokenStream) : Prop :=
    s.Takes (is.map .single) s'
  refine .get_bind <| @items_ensures _ _ _ _ many ?_ ?_ hitem _ s
  · exact fun s => .refl s
  · exact fun _ _ _ _ _ _ h h' => h.append h'

/-- A loop that goes on from the last result.  What a step preserves holds in the end. -/
theorem rounds_ensures {more : σ → TokenStream → Bool} {step : σ → Parse σ}
    {I : σ → TokenStream → Prop}
    (hstep : ∀ x s, I x s → more x s = true → (step x).Ensures s I) (n : Nat) {x : σ}
    (hx : I x s) : (rounds more step n x).Ensures s I := by
  induction n generalizing x s with
  | zero => exact .pure hx
  | succ n ih =>
    refine .get_bind <| .ite (fun hmore => ?_) fun _ => .pure hx
    exact (hstep x s hx hmore).bind fun y s' hy => ih hy

theorem repeatWhile_ensures {more : σ → TokenStream → Bool} {step : σ → Parse σ}
    {I : σ → TokenStream → Prop}
    (hstep : ∀ x s, I x s → more x s = true → (step x).Ensures s I) {x : σ} (hx : I x s) :
    (repeatWhile more step x).Ensures s I :=
  .get_bind <| rounds_ensures hstep _ hx

/-- Passing tokens over. -/
theorem skipTo_ensures (k : TokenKind) : (skipTo k).Ensures s fun _ s' => s.Takes [] s' := by
  refine (collectTokens_ensures (fun s h => ?_) s).bind fun _ _ h => .pure h.nil
  exact (advance_ensures (rest_ne_nil_of_isBefore h)).imp fun _ _ h => h.2

end Parse

end Mend
