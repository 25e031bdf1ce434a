import Mend.Proofs.EnoughRounds
import Mend.Proofs.TwinStatements

/-!
# What may follow a statement

A statement is read in the same way whatever comes after it: it ends with a semicolon, a brace or a
colon, at which every look ahead ends.  There is one exception.  A statement that ends with an `if`
statement without a second branch takes an `else` that comes after it.

The tokens of the statement may also lie at other positions, and there may be more rounds for the
grammar to go through.

## Main definitions

* `PieceTree.endsOpen` — a statement that would take an `else` that comes after it.
* `Parse.EndsAlike` — parsers that end at a place at which no one looks ahead, and that do the same
  whatever comes after it.

## Main results

* `Twin.couples_forTokens` — the parsers for some number of tokens match those for more.
* `Parse.statement_endsAlike` — **a statement is read whatever follows it, save for an `else`.**
-/

namespace Mend

/-! ### Statements that end open -/

/-- Whether a node would take an `else` that comes after it, when its last child would or would
not. -/
def NodeKind.endsOpen (last : Bool) : NodeKind → Bool
  | .ifStatement _ _ _ none => true
  | .ifStatement _ _ _ (some _) | .whileStatement _ _ _ | .forStatement _ _ _ _ _
  | .switchStatement _ _ _ => last
  | _ => false

/-- Whether a statement would take an `else` that comes after it. -/
def PieceTree.endsOpen : PieceTree → Bool :=
  Rose.fold fun p cs => p.kind.endsOpen (cs.getLast?.any (·.2))

theorem PieceTree.endsOpen_node (p : Piece) (cs : List PieceTree) :
    endsOpen (.node p cs) = p.kind.endsOpen (cs.getLast?.any endsOpen) := by
  rw [endsOpen, Rose.fold_node, List.getLast?_map, Option.any_map]

/-! ### Grammars that match -/

namespace Twin

open Grammar

variable {σ : Twin} {d : Nat}

/-- The parsers for some number of tokens match those for more, when statements do and what is
exchanged does. -/
theorem couples_forTokens
    (hstatement : ∀ n, σ.Couples (forTokens n) (forTokens (n + d)) → ∀ ts,
      σ.Matches ts (forTokens (n + 1)).statement (forTokens (n + 1 + d)).statement)
    (hjoins : ∀ n, σ.Pairs (forTokens n) (forTokens (n + d)) → ∀ level,
      σ.JoinsAt (forTokens n) (forTokens (n + d)) level)
    (n : Nat) : σ.Couples (forTokens n) (forTokens (n + d)) := by
  induction n with
  | zero =>
    have hpairs : σ.Pairs (forTokens 0) (forTokens (0 + d)) :=
      { sound := isSound_forTokens _
        sound' := isSound_forTokens _
        assignment := fun _ => .fail _
        statement := fun _ => .fail _
        simpleDeclaration := fun _ _ => .fail _
        declaration := fun _ => .fail _ }
    exact ⟨hpairs, hjoins 0 hpairs⟩
  | succ n ih =>
    have hpairs : σ.Pairs (forTokens (n + 1)) (forTokens (n + 1 + d)) := by
      have hstep := hstatement n ih
      rw [Nat.add_right_comm] at hstep ⊢
      exact
        { sound := isSound_forTokens _
          sound' := isSound_forTokens _
          assignment := fun _ => .assignment ih
          statement := hstep
          simpleDeclaration := fun _ => .simpleDeclaration ih
          declaration := fun _ => .declaration ih }
    exact ⟨hpairs, hjoins (n + 1) hpairs⟩

/-- When nothing is exchanged, all parsers match those for more tokens. -/
theorem couples_of_swap_eq_none (h : σ.swap = none) (n d : Nat) :
    σ.Couples (forTokens n) (forTokens (n + d)) := by
  refine couples_forTokens (fun _ hσ _ ph s s' => ?_) (fun _ _ _ r hr => by simp [h] at hr) n
  rw [Nat.add_right_comm]
  exact .statement hσ fun _ p _ hp => by
    obtain ⟨r, hr, -⟩ := hp
    simp [h] at hr

/-! ### A run on what is left of some tokens -/

/-- A run beside itself: the tokens that are left are the last ones of those there were. -/
def within (r : List Token) (n : Nat) : Twin where
  mark := id
  swap := none
  At ph s s' := ph = .after ∧ s' = s ∧ s.rest <:+ r ∧ s.total = n
  lookAlike h _ := by
    rw [h.2.1]
    exact .of_forall₂ (List.forall₂_same.2 fun _ _ => ⟨rfl, rfl⟩)
  position_eq h _ := by
    rw [h.2.1]
    rfl
  mark_max h _ _ := by
    rw [h.2.1]
    rfl
  first_new h := by cases h
  operator h := by cases h
  tail {ph s s'} h := by
    obtain ⟨rfl, rfl, hrest, htotal⟩ := h
    have htail := TokenStream.isTail_tail s'
    exact ⟨.after, ⟨rfl, rfl, htail.suffix.trans hrest, htail.total_eq.trans htotal⟩,
      fun _ => rfl, nofun⟩

/-- What is left are the last ones of the tokens there were. -/
theorem suffix_of_matches {α : Type} [Movable α] {p p' : Parse α}
    (h : ∀ r n, (within r n).Matches [] p p') (s : TokenStream) :
    p.Ensures s fun _ s₁ => s₁.rest <:+ s.rest ∧ s₁.total = s.total := by
  have hat : (within s.rest s.total).At .after s s := ⟨rfl, rfl, List.suffix_refl _, rfl⟩
  refine (h s.rest s.total .after s s hat .nil).imp fun x s₁ hx => ?_
  obtain ⟨ph₁, s₁', ⟨-, -, hrest, htotal⟩, -⟩ := hx
  exact ⟨hrest, htotal⟩

/-! ### A run on tokens that something else follows -/

/-- A position among tokens that have been moved. -/
def shift (a b i : Nat) : Nat := i - a + b

theorem shift_max {a b p : Nat} (h : a ≤ p) (first : Nat) :
    shift a b (max first (p - 1)) = max (shift a b first) (shift a b p - 1) := by
  simp only [shift]
  omega

theorem shift_succ {a b p : Nat} (h : a ≤ p) : shift a b (p + 1) = shift a b p + 1 := by
  simp only [shift]
  omega

/-- Two states with the same tokens left up to one at which every look ahead ends, and with other
tokens after that. -/
structure IsFollowed (a b : Nat) (r r' : List Token) (s s' : TokenStream) : Prop where
  /-- The tokens that are left are the same up to the last one, at which every look ahead ends. -/
  rest : ∃ v v' t t', s.rest = v ++ t :: r ∧ s'.rest = v' ++ t' :: r' ∧
    List.Forall₂ Token.Same v v' ∧ t.Same t' ∧ t.kind.endsLook = true
  /-- The tokens have been moved from here on. -/
  le_position : a ≤ s.position
  /-- They were moved by as much everywhere. -/
  position_eq : s'.position = shift a b s.position

/-- A run on tokens that something else follows in the second run. -/
def followed (a b : Nat) (r r' : List Token) : Twin where
  mark := shift a b
  swap := none
  At
    | .before, s, s' => IsFollowed a b r r' s s'
    | .after, _, _ => False
    | .lost, s, _ => s.rest.length ≤ r.length
  lookAlike {ph s s'} h hph := by
    cases ph with
    | before =>
      obtain ⟨v, v', t, t', hv, hv', hsame, ht, hends⟩ := h.rest
      rw [hv, hv']
      exact .append hsame (.stop _ _ ht hends)
    | after => exact h.elim
    | lost => exact absurd rfl hph
  position_eq {ph s s'} h hph := by
    cases ph with
    | before => exact h.position_eq
    | after => exact h.elim
    | lost => exact absurd rfl hph
  mark_max {ph s s'} h hph first := by
    cases ph with
    | before =>
      rw [h.position_eq]
      exact shift_max h.le_position first
    | after => exact h.elim
    | lost => exact absurd rfl hph
  first_new h := by cases h
  operator h := by cases h
  tail {ph s s'} h := by
    obtain ⟨rest, i, k⟩ := s
    obtain ⟨rest', i', k'⟩ := s'
    cases ph with
    | before =>
      obtain ⟨⟨v, v', t, t', hv, hv', hsame, ht, hends⟩, hle, hposition⟩ := h
      obtain rfl : rest = _ := hv
      obtain rfl : rest' = _ := hv'
      cases hsame with
      | nil => exact ⟨.lost, Nat.le_refl _, nofun, nofun⟩
      | cons hsame hrest =>
        refine ⟨.before, ⟨⟨_, _, t, t', rfl, rfl, hrest, ht, hends⟩, Nat.le_succ_of_le hle, ?_⟩,
          nofun, nofun⟩
        show i' + 1 = shift a b (i + 1)
        rw [shift_succ hle, ← hposition]
    | after => exact h.elim
    | lost =>
      refine ⟨.lost, Nat.le_trans ?_ h, nofun, fun _ => rfl⟩
      cases rest with
      | nil => exact Nat.le_refl _
      | cons t rest => exact Nat.le_succ _

end Twin

open Twin Movable in
/-- What has been read, with its tokens moved. -/
def Parse.shifted {α : Type} [Movable α] (a b : Nat) (x : α) : α :=
  move (shift a b) (PieceTree.moved (shift a b)) x

theorem Twin.carry_followed {α : Type} [Movable α] {a b : Nat} {r r' : List Token} (x : α) :
    (followed a b r r').carry x = Parse.shifted a b x := by
  rw [carry, rewrite_eq_moved rfl]
  rfl

/-! ### Parsers that end where no one looks ahead -/

namespace Parse

open Twin Movable

/-- A parser whose last token ends every look ahead, and another one that does the same on the same
tokens whatever comes after them, unless an `else` does that would be taken. -/
structure EndsAlike (a b : Nat) (p p' : Parse PieceTree) : Prop where
  /-- Tokens are taken, and a look ahead ends at the last one. -/
  sealed : ∀ {s x s₁}, p.Yields s x s₁ →
    ∃ v t, s.rest = v ++ t :: s₁.rest ∧ t.kind.endsLook = true ∧ s₁.total = s.total
  /-- The same tokens are taken with others after them. -/
  follows : ∀ {s x s₁}, p.Yields s x s₁ → ∀ {u u' r' s'}, s.rest = u ++ s₁.rest →
    List.Forall₂ Token.Same u u' → s'.rest = u' ++ r' → a ≤ s.position →
    s'.position = shift a b s.position →
    (x.endsOpen = true → r'.head?.any (·.kind == .kwElse) = false) →
    ∃ s₁', p'.Yields s' (shifted a b x) s₁' ∧ s₁'.rest = r' ∧
      s₁'.position = shift a b s₁.position

/-- Parsers that match in any two runs in which nothing is exchanged. -/
def AlwaysMatch {α : Type} [Movable α] (p p' : Parse α) : Prop :=
  ∀ σ : Twin, σ.swap = none → σ.Matches [] p p'

variable {α : Type} [Movable α] {a b : Nat} {p p' : Parse PieceTree}

theorem forall₂_append_left {ts us vs : List Token} (h : List.Forall₂ Token.Same (ts ++ us) vs) :
    ∃ ts' us', List.Forall₂ Token.Same ts ts' ∧ List.Forall₂ Token.Same us us' ∧
      vs = ts' ++ us' := by
  have htake := List.forall₂_take ts.length h
  have hdrop := List.forall₂_drop ts.length h
  rw [List.take_left] at htake
  rw [List.drop_left] at hdrop
  exact ⟨_, _, htake, hdrop, (List.take_append_drop _ _).symm⟩

namespace EndsAlike

/-- One parser, and then another one that ends where no one looks ahead. -/
protected theorem bind {q q' : Parse α} {f f' : α → Parse PieceTree} (hq : AlwaysMatch q q')
    (hf : ∀ x, EndsAlike a b (f x) (f' (shifted a b x))) :
    EndsAlike a b (q >>= f) (q' >>= f') := by
  have hsuffix := suffix_of_matches fun r n => hq (within r n) rfl
  refine ⟨fun {s y s₁} h => ?_, fun {s y s₁} h {u u' r' s'} hu hsame hs' hle hposition hopen => ?_⟩
  · obtain ⟨x, m, hx, hy⟩ := h.of_bind
    obtain ⟨v, t, hv, ht, htotal⟩ := (hf x).sealed hy
    obtain ⟨⟨w, hw⟩, htotal'⟩ := hsuffix s x m hx
    exact ⟨w ++ v, t, by rw [← hw, hv, List.append_assoc], ht, htotal.trans htotal'⟩
  · obtain ⟨x, m, hx, hy⟩ := h.of_bind
    obtain ⟨v, t, hv, ht, htotal⟩ := (hf x).sealed hy
    obtain ⟨⟨w, hw⟩, htotal'⟩ := hsuffix s x m hx
    -- the first parser stops before the last token, so the runs stay together
    have hsplit : u = w ++ (v ++ [t]) := by
      have : u ++ s₁.rest = w ++ (v ++ [t]) ++ s₁.rest := by
        rw [← hu, ← hw, hv]
        simp
      exact List.append_cancel_right this
    subst hsplit
    obtain ⟨w', vt', hw', hvt', rfl⟩ := forall₂_append_left hsame
    obtain ⟨v', t', hv', ht', rfl⟩ := forall₂_append_left hvt'
    obtain ⟨t', rfl⟩ : ∃ x, t' = [x] := by
      cases ht' with
      | cons _ hnil => cases hnil; exact ⟨_, rfl⟩
    have hat : (followed a b s₁.rest r').At .before s s' := by
      refine ⟨⟨w ++ v, w' ++ v', t, t', ?_, ?_, ?_, ?_, ht⟩, hle, hposition⟩
      · simp [hu]
      · simp [hs']
      · exact List.rel_append hw' hv'
      · cases ht' with
        | cons hsame _ => exact hsame
    obtain ⟨ph₁, m', hat₁, -, -, -, hyields⟩ := hq (followed a b s₁.rest r') rfl .before s s' hat
      .nil x m hx
    cases ph₁ with
    | after => exact hat₁.elim
    | lost =>
      have hlost : m.rest.length ≤ s₁.rest.length := hat₁
      simp only [hv, List.length_append, List.length_cons] at hlost
      omega
    | before =>
      have hm := hyields nofun
      rw [carry_followed] at hm
      obtain ⟨⟨w₁, w₁', t₁, t₁', hw₁, hw₁', hsame₁, ht₁, -⟩, hle₁, hposition₁⟩ := hat₁
      obtain ⟨s₁', hy', hrest, hposition₂⟩ := (hf x).follows hy (u := w₁ ++ [t₁])
        (by simp [hw₁]) (List.rel_append hsame₁ (.cons ht₁ .nil) :
          List.Forall₂ Token.Same (w₁ ++ [t₁]) (w₁' ++ [t₁']))
        (by simp [hw₁']) hle₁ hposition₁ hopen
      exact ⟨s₁', hm.bind hy', hrest, hposition₂⟩

/-- A parser that gives up. -/
protected theorem fail (what : Expectation) {p' : Parse PieceTree} :
    EndsAlike a b (fail what) p' :=
  ⟨fun h => (nomatch h), fun h => (nomatch h)⟩

/-- Looking at the state: both runs see the same tokens ahead. -/
protected theorem look {f f' : TokenStream → Parse PieceTree}
    (h : ∀ s s' : TokenStream, LookAlike s.rest s'.rest → s'.position = shift a b s.position →
      EndsAlike a b (f s) (f' s')) : EndsAlike a b (get >>= f) (get >>= f') := by
  have hself (s : TokenStream) : EndsAlike a b (f s) (f' ⟨s.rest, shift a b s.position, 0⟩) :=
    h s _ (.of_forall₂ (List.forall₂_same.2 fun _ _ => ⟨rfl, rfl⟩)) rfl
  refine ⟨fun {s y s₁} hy => (hself s).sealed hy,
    fun {s y s₁} hy {u u' r' s'} hu hsame hs' hle hposition hopen => ?_⟩
  obtain ⟨v, t, hv, ht, -⟩ := (hself s).sealed hy
  have hmem : t ∈ u := by
    have hsplit : u = v ++ [t] := by
      have : u ++ s₁.rest = v ++ [t] ++ s₁.rest := by simp [← hu, hv]
      exact List.append_cancel_right this
    simp [hsplit]
  have hlook : LookAlike s.rest s'.rest := by
    rw [hu, hs']
    exact .append_of_mem hsame hmem ht _ _
  exact (h s s' hlook hposition).follows hy hu hsame hs' hle hposition hopen

/-- Looking at the kind of the next token. -/
protected theorem peek_bind {f f' : Option TokenKind → Parse PieceTree}
    (h : ∀ k, EndsAlike a b (f k) (f' k)) : EndsAlike a b (peek >>= f) (peek >>= f') := by
  refine .look fun s s' hlook _ => ?_
  rw [TokenStream.next?_eq_of_lookAlike hlook]
  exact h s.next?

/-- A choice by a look at the tokens that are left. -/
protected theorem ite {c : TokenStream → Bool} {q q' : Parse PieceTree}
    (hc : ∀ {s s' : TokenStream}, LookAlike s.rest s'.rest → c s' = c s)
    (h : EndsAlike a b p p') (hq : EndsAlike a b q q') :
    EndsAlike a b (get >>= fun s => if c s then p else q)
      (get >>= fun s => if c s then p' else q') := by
  refine .look fun s s' hlook _ => ?_
  rw [hc hlook]
  split
  · exact h
  · exact hq

/-- A token at which every look ahead ends, and the end of a node. -/
theorem expect_close {k : TokenKind} (hk : k.endsLook = true) {kind kind' : Nat → NodeKind}
    {first : Nat} {cs cs' : List PieceTree}
    (hkind : ∀ i, kind' (shift a b i) = (kind i).moved (shift a b))
    (hcs : cs' = cs.map (PieceTree.moved (shift a b))) :
    EndsAlike a b (expect k >>= fun i => close (kind i) first cs)
      (expect k >>= fun i => close (kind' i) (shift a b first) cs') := by
  have hrun (s : TokenStream) : (expect k >>= fun i => close (kind i) first cs).Ensures s
      fun y s₁ => s.next? = some k ∧ s₁ = s.tail ∧
        y = .node ⟨kind s.position, first, max first (s.tail.position - 1)⟩ cs := by
    refine expect_bind_ensures fun hnext y s₁ hy => ?_
    cases hy
    exact ⟨hnext, rfl, rfl⟩
  have hrest {s : TokenStream} (h : s.next? = some k) :
      ∃ t, s.rest = t :: s.tail.rest ∧ t.kind = k ∧ s.tail.position = s.position + 1 := by
    obtain ⟨rest, i, n⟩ := s
    cases rest with
    | nil => cases h
    | cons t rest => exact ⟨t, rfl, Option.some.inj h, rfl⟩
  refine ⟨fun {s y s₁} hy => ?_, fun {s y s₁} hy {u u' r' s'} hu hsame hs' hle hposition _ => ?_⟩
  · obtain ⟨hnext, rfl, -⟩ := hrun s y s₁ hy
    obtain ⟨t, hs, rfl, hposition⟩ := hrest hnext
    refine ⟨[], t, hs, hk, ?_⟩
    rw [TokenStream.total, TokenStream.total, hs, hposition, List.length_cons]
    omega
  · obtain ⟨hnext, rfl, rfl⟩ := hrun s y s₁ hy
    obtain ⟨t, hs, rfl, hposition₁⟩ := hrest hnext
    obtain rfl : u = [t] := by
      have : u ++ s.tail.rest = [t] ++ s.tail.rest := by rw [← hu, hs]; rfl
      exact List.append_cancel_right this
    cases hsame with
    | cons ht hnil =>
      cases hnil
      have hnext' : s'.next? = some t.kind := by
        rw [TokenStream.next?, hs']
        exact congrArg some ht.1
      obtain ⟨t₁, hs₁, -, hposition'⟩ := hrest hnext'
      have hmax := shift_max (b := b) (p := s.position + 1) (Nat.le_succ_of_le hle) first
      have hsucc := shift_succ (b := b) hle
      have hnode : shifted a b (.node ⟨kind s.position, first, max first (s.tail.position - 1)⟩ cs :
          PieceTree) = .node ⟨kind' s'.position, shift a b first,
            max (shift a b first) (s'.tail.position - 1)⟩ cs' := by
        show PieceTree.moved _ _ = _
        rw [PieceTree.moved_node, hposition₁, hmax, hsucc, hcs, hposition', hposition, hkind]
      refine ⟨s'.tail, (expect_yields hnext').bind ?_, ?_, ?_⟩
      · rw [hnode]
        exact rfl
      · rw [hs'] at hs₁
        exact (List.cons.inj hs₁).2.symm
      · rw [hposition', hposition, hposition₁, hsucc]

/-- The tokens that are left lie behind those that were taken. -/
theorem le_position (h : EndsAlike a b p p') {s s₁ : TokenStream} {x : PieceTree}
    (hx : p.Yields s x s₁) (hle : a ≤ s.position) : a ≤ s₁.position := by
  obtain ⟨v, t, hv, -, htotal⟩ := h.sealed hx
  simp only [TokenStream.total, hv, List.length_append, List.length_cons] at htotal
  omega

/-- The end of a node that takes no token. -/
theorem bind_close {q q' : Parse PieceTree} (hq : EndsAlike a b q q') {k : NodeKind}
    {first : Nat} {f f' : PieceTree → List PieceTree}
    (hopen : ∀ s t s₁, q.Yields s t s₁ → t.endsOpen = true →
      k.endsOpen ((f t).getLast?.any PieceTree.endsOpen) = true)
    (hf : ∀ t, f' (shifted a b t) = (f t).map (PieceTree.moved (shift a b))) :
    EndsAlike a b (q >>= fun t => close k first (f t))
      (q' >>= fun t => close (k.moved (shift a b)) (shift a b first) (f' t)) := by
  have hrun {s y s₁} (h : (q >>= fun t => close k first (f t)).Yields s y s₁) :
      ∃ t, q.Yields s t s₁ ∧ y = .node ⟨k, first, max first (s₁.position - 1)⟩ (f t) := by
    obtain ⟨t, m, ht, hy⟩ := h.of_bind
    cases hy
    exact ⟨t, ht, rfl⟩
  refine ⟨fun {s y s₁} hy => ?_,
    fun {s y s₁} hy {u u' r' s'} hu hsame hs' hle hposition hfollow => ?_⟩
  · obtain ⟨t, ht, -⟩ := hrun hy
    exact hq.sealed ht
  · obtain ⟨t, ht, rfl⟩ := hrun hy
    obtain ⟨s₁', ht', hrest, hposition'⟩ := hq.follows ht hu hsame hs' hle hposition fun h => by
      refine hfollow ?_
      rw [PieceTree.endsOpen_node]
      exact hopen _ _ _ ht h
    have hmax := shift_max (b := b) (hq.le_position ht hle) first
    have hnode : shifted a b (.node ⟨k, first, max first (s₁.position - 1)⟩ (f t) :
        PieceTree) = .node ⟨k.moved (shift a b), shift a b first,
          max (shift a b first) (s₁'.position - 1)⟩ (f' (shifted a b t)) := by
      show PieceTree.moved _ _ = _
      rw [PieceTree.moved_node, hmax, hposition', hf]
    refine ⟨s₁', ht'.bind ?_, hrest, hposition'⟩
    rw [hnode]
    exact rfl

end EndsAlike

/-! ### Statements -/

variable {g g' : Grammar}

/-- Two grammars whose parsers match in any two runs in which nothing is exchanged, and whose
statements are read whatever follows them. -/
structure Alike (a b : Nat) (g g' : Grammar) : Prop where
  /-- The parsers match. -/
  couples : ∀ σ : Twin, σ.swap = none → σ.Couples g g'
  /-- Statements are read whatever follows them. -/
  statement : EndsAlike a b g.statement g'.statement

theorem block_endsAlike (h : Alike a b g g') : EndsAlike a b (block g) (block g') := by
  refine .look fun s s' _ hposition => .bind (fun _ _ => .expect _) fun lbrace => ?_
  refine .bind (fun σ hσ => .collectWhile (Matches.statements (h.couples σ hσ)))
    fun statements => ?_
  rw [hposition]
  exact .expect_close rfl (fun _ => rfl) rfl

theorem expressionStatement_endsAlike (h : Alike a b g g') :
    EndsAlike a b (expressionStatement g) (expressionStatement g') := by
  refine .look fun s s' _ hposition => .bind (fun σ hσ => ?_) fun expression => ?_
  · exact .expressionBefore? (h.couples σ hσ) _
  · rw [hposition]
    exact .expect_close rfl (fun _ => rfl) (by cases expression <;> rfl)

theorem closeDeclaration_endsAlike {first : Nat} {parts parts' : List PieceTree}
    (hparts : parts' = parts.map (PieceTree.moved (shift a b))) :
    EndsAlike a b (closeDeclaration first parts) (closeDeclaration (shift a b first) parts') :=
  .expect_close rfl (fun _ => rfl) hparts

theorem simpleDeclaration_endsAlike (h : Alike a b g g') :
    EndsAlike a b (simpleDeclaration g .blockScope) (simpleDeclaration g' .blockScope) := by
  refine .look fun s s' _ hposition => .bind (fun σ hσ => .specifiers (h.couples σ hσ))
    fun found => ?_
  rw [hposition]
  refine .ite (fun h => TokenStream.isAt_eq_of_lookAlike h _) (closeDeclaration_endsAlike rfl) ?_
  refine .bind (fun σ hσ => .declarator (h.couples σ hσ)) fun p => ?_
  refine .look fun s₁ s₁' _ _ => ?_
  refine .bind (fun σ hσ => .collectWhile (Matches.furtherDeclarators (h.couples σ hσ)))
    fun others => ?_
  refine closeDeclaration_endsAlike ?_
  rw [List.map_append]
  rfl

/-- A declaration takes no `else`. -/
theorem simpleDeclaration_ensures_closed (s : TokenStream) :
    (simpleDeclaration g .blockScope).Ensures s fun t _ => t.endsOpen = false := by
  have hclose {first : Nat} {parts : List PieceTree} (s : TokenStream) :
      (closeDeclaration first parts).Ensures s fun t _ => t.endsOpen = false := by
    refine (expect_ensures _).bind fun semicolon s₁ _ => ?_
    rintro t s₂ ht
    cases ht
    rw [PieceTree.endsOpen_node]
    rfl
  have htrue {β : Type} (q : Parse β) (s : TokenStream) : q.Ensures s fun _ _ => True :=
    fun _ _ _ => trivial
  refine .get_bind <| (htrue _ s).bind fun found s₁ _ => .get_bind <| .ite (fun _ => hclose _)
    fun _ => (htrue _ s₁).bind fun p s₂ _ => .get_bind ?_
  exact (htrue _ s₂).bind fun others s₃ _ => hclose _

theorem declarationStatement_endsAlike (h : Alike a b g g') :
    EndsAlike a b (declarationStatement g) (declarationStatement g') := by
  refine .look fun s s' _ hposition => ?_
  rw [hposition]
  refine .bind_close (simpleDeclaration_endsAlike h) (f := fun t => [t]) (fun s t s₁ ht hopen => ?_)
    fun t => rfl
  simp [simpleDeclaration_ensures_closed s t s₁ ht] at hopen

/-- A node whose last part is a statement. -/
theorem bind_close_of_last (h : Alike a b g g') (kind : NodeKind) (first : Nat)
    (cs : List PieceTree) (hlast : kind.endsOpen true = true) :
    EndsAlike a b (g.statement >>= fun t => close kind first (cs ++ [t]))
      (g'.statement >>= fun t => close (kind.moved (shift a b)) (shift a b first)
        (cs.map (PieceTree.moved (shift a b)) ++ [t])) :=
  .bind_close h.statement (fun _ t _ _ ht => by simpa [ht] using hlast) fun t => by
    rw [List.map_append]
    rfl

theorem whileStatement_endsAlike (h : Alike a b g g') :
    EndsAlike a b (whileStatement g) (whileStatement g') := by
  refine .bind (fun _ _ => .advance) fun keyword => ?_
  refine .bind (fun σ hσ => .controlCondition (h.couples σ hσ)) fun c => ?_
  exact bind_close_of_last h _ _ [c.2.1] rfl

theorem switchStatement_endsAlike (h : Alike a b g g') :
    EndsAlike a b (switchStatement g) (switchStatement g') := by
  refine .bind (fun _ _ => .advance) fun keyword => ?_
  refine .bind (fun σ hσ => .controlCondition (h.couples σ hσ)) fun c => ?_
  exact bind_close_of_last h _ _ [c.2.1] rfl

theorem doStatement_endsAlike (h : Alike a b g g') :
    EndsAlike a b (doStatement g) (doStatement g') := by
  refine .bind (fun _ _ => .advance) fun keyword => ?_
  refine .bind (fun σ hσ => (h.couples σ hσ).statement _) fun body => ?_
  refine .bind (fun _ _ => .expect _) fun whileToken => .bind (fun _ _ => .expect _)
    fun lparen => ?_
  refine .bind (fun σ hσ => .assignment (h.couples σ hσ)) fun expression => ?_
  refine .bind (fun _ _ => .expect _) fun rparen => ?_
  exact .expect_close rfl (fun _ => rfl) rfl

theorem forStatement_endsAlike (h : Alike a b g g') :
    EndsAlike a b (forStatement g) (forStatement g') := by
  refine .bind (fun _ _ => .advance) fun keyword => .bind (fun _ _ => .expect _) fun lparen => ?_
  have hend (initial : PieceTree) (condition : Option PieceTree) : EndsAlike a b
      (do
        let semicolon ← expect .semicolon
        let expression ← expressionBefore? g .rParen
        let rparen ← expect .rParen
        let body ← g.statement
        close (.forStatement keyword lparen semicolon rparen condition.isSome) keyword
          (initial :: (condition.toList ++ expression.toList ++ [body])))
      (do
        let semicolon ← expect .semicolon
        let expression ← expressionBefore? g' .rParen
        let rparen ← expect .rParen
        let body ← g'.statement
        close (.forStatement (shifted a b keyword) (shifted a b lparen) semicolon rparen
            (shifted a b condition).isSome) (shifted a b keyword)
          (shifted a b initial ::
            ((shifted a b condition).toList ++ expression.toList ++ [body]))) := by
    refine .bind (fun _ _ => .expect _) fun semicolon => ?_
    refine .bind (fun σ hσ => .expressionBefore? (h.couples σ hσ) _) fun expression => ?_
    refine .bind (fun _ _ => .expect _) fun rparen => ?_
    have hlast := bind_close_of_last h
      (.forStatement keyword lparen semicolon rparen condition.isSome) keyword
      (initial :: (condition.toList ++ expression.toList)) rfl
    cases condition <;> cases expression <;> exact hlast
  have hcondition (initial : PieceTree) : EndsAlike a b
      (do
        let condition ←
          if (← get).isAt .semicolon then pure none else do pure (some (← condition g))
        let semicolon ← expect .semicolon
        let expression ← expressionBefore? g .rParen
        let rparen ← expect .rParen
        let body ← g.statement
        close (.forStatement keyword lparen semicolon rparen condition.isSome) keyword
          (initial :: (condition.toList ++ expression.toList ++ [body])))
      (do
        let condition ←
          if (← get).isAt .semicolon then pure none else do pure (some (← condition g'))
        let semicolon ← expect .semicolon
        let expression ← expressionBefore? g' .rParen
        let rparen ← expect .rParen
        let body ← g'.statement
        close (.forStatement (shifted a b keyword) (shifted a b lparen) semicolon rparen
            condition.isSome) (shifted a b keyword)
          (shifted a b initial :: (condition.toList ++ expression.toList ++ [body]))) :=
    .ite (fun h => TokenStream.isAt_eq_of_lookAlike h _) (hend initial none)
      (.bind (fun σ hσ => .condition (h.couples σ hσ)) fun c => hend initial (some c))
  exact .ite (fun h => isDeclarationNext_eq_of_lookAlike h)
    (.bind (fun σ hσ => .declarationStatement (h.couples σ hσ)) hcondition)
    (.bind (fun σ hσ => .expressionStatement (h.couples σ hσ)) hcondition)

theorem caseLabel_endsAlike (h : Alike a b g g') :
    EndsAlike a b (caseLabel g) (caseLabel g') := by
  refine .bind (fun _ _ => .advance) fun keyword => ?_
  refine .bind (fun σ hσ => .conditional (h.couples σ hσ)) fun expression => ?_
  exact .expect_close rfl (fun _ => rfl) rfl

/-- A keyword with the token after it, at which every look ahead ends. -/
theorem marked_endsAlike {k : TokenKind} (hk : k.endsLook = true) {kind : Nat → Nat → NodeKind}
    (hkind : ∀ i j, kind (shift a b i) (shift a b j) = (kind i j).moved (shift a b)) :
    EndsAlike a b (advance >>= fun i => expect k >>= fun j => close (kind i j) i [])
      (advance >>= fun i => expect k >>= fun j => close (kind i j) i []) :=
  .bind (fun _ _ => .advance) fun i => .expect_close hk (fun j => hkind i j) rfl

theorem returnStatement_endsAlike (h : Alike a b g g') :
    EndsAlike a b (returnStatement g) (returnStatement g') := by
  refine .bind (fun _ _ => .advance) fun keyword => ?_
  refine .bind (fun σ hσ => .expressionBefore? (h.couples σ hσ) _) fun expression => ?_
  exact .expect_close rfl (fun _ => rfl) (by cases expression <;> rfl)

/-- The branches of an `if` statement.  When there is only one, the statement takes an `else` that
comes after it. -/
theorem branches_endsAlike (h : Alike a b g g') {keyword lparen rparen : Nat} {c : PieceTree} :
    EndsAlike a b (branches g keyword lparen rparen c)
      (branches g' (shift a b keyword) (shift a b lparen) (shift a b rparen) (shifted a b c)) := by
  have htwo : EndsAlike a b (twoBranches g keyword lparen rparen c)
      (twoBranches g' (shift a b keyword) (shift a b lparen) (shift a b rparen)
        (shifted a b c)) :=
    .bind (fun σ hσ => (h.couples σ hσ).statement _) fun t => .bind (fun _ _ => .expect _) fun e =>
      bind_close_of_last h (.ifStatement keyword lparen rparen (some e)) keyword [c, t] rfl
  have hone : EndsAlike a b (oneBranch g keyword lparen rparen c)
      (oneBranch g' (shift a b keyword) (shift a b lparen) (shift a b rparen) (shifted a b c)) :=
    .bind_close h.statement (k := .ifStatement keyword lparen rparen none)
      (f := fun t => [c, t]) (fun _ _ _ _ _ => rfl) fun _ => rfl
  refine ⟨fun {s y s₁} hy => ?_,
    fun {s y s₁} hy {u u' r' s'} hu hsame hs' hle hposition hfollow => ?_⟩
  · rcases branches_yields_iff.1 hy with hy | ⟨hy, -⟩
    · exact htwo.sealed hy
    · exact hone.sealed hy
  · rcases branches_yields_iff.1 hy with hy | ⟨hy, -⟩
    · obtain ⟨s₁', hy', hrest⟩ := htwo.follows hy hu hsame hs' hle hposition hfollow
      exact ⟨s₁', branches_yields_iff.2 (.inl hy'), hrest⟩
    · obtain ⟨s₁', hy', hrest, hposition'⟩ := hone.follows hy hu hsame hs' hle hposition hfollow
      refine ⟨s₁', branches_yields_iff.2 (.inr ⟨hy', fun hnext => ?_⟩), hrest, hposition'⟩
      -- the statement ends open, so no `else` follows it in the second run either
      obtain ⟨t, m, -, hclose⟩ := hy.of_bind
      cases hclose
      have helse := hfollow (by rw [PieceTree.endsOpen_node]; rfl)
      rw [TokenStream.next?, hrest] at hnext
      obtain ⟨t, ht, hk⟩ := Option.map_eq_some_iff.1 hnext
      simp [ht, hk] at helse

theorem ifStatement_endsAlike (h : Alike a b g g') :
    EndsAlike a b (ifStatement g) (ifStatement g') := by
  rw [ifStatement_eq, ifStatement_eq]
  refine .bind (fun _ _ => .advance) fun keyword => ?_
  exact .bind (fun σ hσ => .controlCondition (h.couples σ hσ)) fun c => branches_endsAlike h

theorem statement_endsAlike (h : Alike a b g g') :
    EndsAlike a b (statement g) (statement g') := by
  refine .peek_bind fun k => ?_
  split
  case h_1 => exact .fail _
  case h_2 => exact block_endsAlike h
  case h_3 => exact ifStatement_endsAlike h
  case h_4 => exact whileStatement_endsAlike h
  case h_5 => exact doStatement_endsAlike h
  case h_6 => exact forStatement_endsAlike h
  case h_7 => exact switchStatement_endsAlike h
  case h_8 => exact caseLabel_endsAlike h
  case h_9 => exact marked_endsAlike rfl fun _ _ => rfl
  case h_10 => exact marked_endsAlike rfl fun _ _ => rfl
  case h_11 => exact marked_endsAlike rfl fun _ _ => rfl
  case h_12 => exact returnStatement_endsAlike h
  case h_13 =>
    exact .ite (fun h => isDeclarationNext_eq_of_lookAlike h) (declarationStatement_endsAlike h)
      (expressionStatement_endsAlike h)

/-- **The parsers for some number of tokens read statements like those for more**, whatever follows
the statements and wherever their tokens lie. -/
theorem alike_forTokens (a b n d : Nat) :
    Alike a b (Grammar.forTokens n) (Grammar.forTokens (n + d)) := by
  induction n with
  | zero => exact ⟨fun σ hσ => couples_of_swap_eq_none hσ 0 d, .fail _⟩
  | succ n ih =>
    refine ⟨fun σ hσ => couples_of_swap_eq_none hσ (n + 1) d, ?_⟩
    rw [Nat.add_right_comm]
    exact statement_endsAlike ih

end Parse

end Mend
