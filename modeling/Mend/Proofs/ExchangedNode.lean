import Mend.Proofs.EnoughRounds
import Mend.Proofs.FollowedStatements

/-!
# One node for another

When the tokens of a node are exchanged for those of another one, the file is read as before: its
tree has the other node in place of the first one, and everything after it moves along.  It is
enough that the parsers match each other at the place where both nodes begin.

The first run decides what is read there, so nothing can be said about the second run before it is
known what the first one reads.  That it is the node of the tree follows from a run beside itself,
in which a node stands for itself.

## Main definitions

* `PieceTree.exchange` — a tree with another node in place of one.
* `Twin.Site` — a place in two texts at which the nodes begin.
* `Twin.Replacement`, `Twin.exchanged` — a run on tokens of which those of one node have been
  exchanged for those of another one.

## Main results

* `PieceTree.ofTokens_exchange` — **a file with one node for another is read with one tree for the
  other.**
* `Twin.mem_subtrees_of_self` — a node of a file is a part of what is read where it begins.
-/

namespace Mend

/-! ### Items of lists with other parts -/

section

variable {α : Type} {ts as : List α} {x : α} {i j k : Nat}

/-- What comes after a part of a list. -/
theorem getElem?_behind (us vs : List α) (h : ts = us ++ x :: vs) (hi : i = us.length) :
    ts[i]? = some x := by
  rw [h, hi, List.getElem?_append_right (Nat.le_refl _), Nat.sub_self, List.getElem?_cons_zero]

/-- The items of a part are found in every list that has the part. -/
theorem getElem?_of_part (us vs r r' : List α) (hk : k < as.length) (hi : i = us.length + k)
    (hj : j = vs.length + k) : (us ++ (as ++ r))[i]? = (vs ++ (as ++ r'))[j]? := by
  rw [hi, hj, List.getElem?_append_right (Nat.le_add_right _ _),
    List.getElem?_append_right (Nat.le_add_right _ _), Nat.add_sub_cancel_left,
    Nat.add_sub_cancel_left, List.getElem?_append_left hk, List.getElem?_append_left hk]

end

/-! ### Trees -/

/-- A position among the tokens when there are `d` more of them after the one at `i`. -/
def Twin.pushed (i d x : Nat) : Nat := if x ≤ i then x else x + d

/-- A tree with another node in place of one, and with its tokens at other positions. -/
def PieceTree.exchange (t : PieceTree) (isOld : Piece → Bool) (f : Nat → Nat) (new : PieceTree) :
    PieceTree :=
  t.fold fun p cs =>
    if isOld p then new else .node ⟨p.kind.moved f, f p.first, f p.last⟩ (cs.map (·.2))

theorem PieceTree.exchange_node (p : Piece) (cs : List PieceTree) (isOld : Piece → Bool)
    (f : Nat → Nat) (new : PieceTree) : exchange (.node p cs) isOld f new =
      if isOld p then new
      else .node ⟨p.kind.moved f, f p.first, f p.last⟩ (cs.map (·.exchange isOld f new)) := by
  rw [exchange, Rose.fold_node, List.map_map]
  rfl

theorem NodeKind.moved_id (k : NodeKind) : k.moved id = k := by
  cases k <;> simp [moved]

theorem PieceTree.moved_id (t : PieceTree) : t.moved id = t := by
  induction t using Rose.induct with
  | h p ts ih =>
    have hts : ts.map (moved id) = ts := (List.map_congr_left ih).trans (List.map_id ts)
    rw [moved_node, NodeKind.moved_id, hts]
    rfl

/-- The next token is the one at its position among those there were. -/
theorem TokenStream.IsTail.next?_eq {s₁ s : TokenStream} (h : s₁.IsTail s) :
    s₁.next? = s.kindAt s₁.position := by
  obtain ⟨⟨v, hv⟩, htotal, -⟩ := h
  have hlength : s₁.position = s.position + v.length := by
    simp only [total, ← hv, List.length_append] at htotal
    omega
  rw [kindAt, ← hv, hlength, Nat.add_sub_cancel_left, List.getElem?_append_right (Nat.le_refl _),
    Nat.sub_self, next?, List.head?_eq_getElem?]

namespace Twin

open Parse Movable

variable {σ : Twin} {r : Swap}

/-- What is read in a run is read in a run beside itself. -/
theorem yields_of_matches {p p' : Parse PieceTree} {s e : TokenStream} {t : PieceTree}
    (h : ∀ r n, (within r n).Matches [] p p') (ht : p.Yields s t e) : p'.Yields s t e := by
  obtain ⟨ph, e', ⟨-, rfl, -, -⟩, -, hafter, -, hyields⟩ := h s.rest s.total .after s s
    ⟨rfl, rfl, List.suffix_refl _, rfl⟩ .nil t e ht
  have hmoved : (within s.rest s.total).carry t = t := by
    rw [carry_tree, rewrite_eq_moved rfl]
    exact t.moved_id
  have hyields := hyields (by simp [hafter rfl])
  rwa [hmoved] at hyields

/-- What is read in the second run, when one node is exchanged for another one. -/
theorem rewrite_eq_exchange (hr : σ.swap = some r) (t : PieceTree) :
    σ.rewrite t = t.exchange r.isOld σ.mark r.new := by
  have hnode (p : Piece) (cs : List PieceTree) : σ.rewriteNode p cs =
      if r.isOld p then r.new
      else .node ⟨p.kind.moved σ.mark, σ.mark p.first, σ.mark p.last⟩ cs := by
    rw [rewriteNode, hr, Option.filter_some]
    cases r.isOld p <;> rfl
  simp only [rewrite, PieceTree.exchange, hnode]

/-- When a node stands for itself and nothing moves, the same is read in the second run. -/
theorem rewrite_of_self {ph : Phase} {t : PieceTree} (hr : σ.swap = some r) (hnew : r.new = r.old)
    (hmark : σ.mark = id) (hfits : σ.Fits ph [t]) : σ.rewrite t = t := by
  induction t using Rose.induct with
  | h p ts ih =>
    by_cases hswap : σ.IsSwapped p
    · obtain ⟨r', hr', hold⟩ := hswap
      obtain rfl := Option.some.inj (hr.symm.trans hr')
      rw [rewrite_of_isSwapped (t := .node p ts) hr hold, hnew]
      exact (hfits _ (List.mem_singleton_self _) _ (Rose.self_mem_subtrees _) r hr hold).2.symm
    · have hts : ts.map σ.rewrite = ts := by
        refine (List.map_congr_left fun c hc => ih c hc ?_).trans (List.map_id ts)
        intro u hu v hv
        obtain rfl := List.mem_singleton.1 hu
        exact hfits _ (List.mem_singleton_self _) v (Rose.mem_subtrees_node.2 (.inl ⟨_, hc, hv⟩))
      rw [rewrite_node hswap, hts, hmark, NodeKind.moved_id]
      rfl

/-! ### A run on tokens of which some are exchanged -/

/-- A place among the tokens of two texts, from which on they differ. -/
structure Site where
  /-- The position of the place. -/
  position : Nat
  /-- The tokens from there on in the first text. -/
  tokens : List Token
  /-- The tokens from there on in the second text. -/
  tokens' : List Token
  /-- The length of the first text. -/
  textLength : Nat
  /-- The length of the second text. -/
  textLength' : Nat
  /-- There are such tokens. -/
  nonempty : tokens ≠ []
  /-- Who looks ahead from the place sees the same in both texts. -/
  alike : LookAlike tokens tokens'

namespace Site

variable (S : Site)

/-- The state of the first run at the place. -/
def start : TokenStream := ⟨S.tokens, S.position, S.textLength⟩

/-- The state of the second run at the place. -/
def start' : TokenStream := ⟨S.tokens', S.position, S.textLength'⟩

/-- The same kind of token comes next in both texts. -/
theorem next?_start' : S.start'.next? = S.start.next? :=
  TokenStream.next?_eq_of_lookAlike S.alike

/-- The tokens look alike up to the place and beyond it. -/
theorem lookAlike {v v' : List Token} (hv : List.Forall₂ Token.Same v v') :
    LookAlike (v ++ S.tokens) (v' ++ S.tokens') := .append hv S.alike

/-- The place in a text beside itself. -/
def self : Site := { S with
  tokens' := S.tokens
  textLength' := S.textLength
  alike := .of_forall₂ (List.forall₂_same.2 fun _ _ => ⟨rfl, rfl⟩) }

/-- Two states from which both runs come to the place over the same tokens. -/
structure IsAhead (s s' : TokenStream) : Prop where
  /-- The tokens up to there are the same. -/
  rest : ∃ v v', s.rest = v ++ S.tokens ∧ s'.rest = v' ++ S.tokens' ∧
    List.Forall₂ Token.Same v v' ∧ s.position + v.length = S.position
  /-- They lie at the same positions. -/
  position_eq : s'.position = s.position
  /-- The length of the first text. -/
  textLength_eq : s.textLength = S.textLength
  /-- The length of the second text. -/
  textLength_eq' : s'.textLength = S.textLength'

variable {S}

theorem IsAhead.position_le {s s' : TokenStream} (h : S.IsAhead s s') :
    s.position ≤ S.position := by
  obtain ⟨v, -, -, -, -, hi⟩ := h.rest
  omega

theorem IsAhead.self {s s' : TokenStream} (h : S.IsAhead s s') : S.self.IsAhead s s := by
  obtain ⟨v, -, hv, -, -, hi⟩ := h.rest
  exact ⟨⟨v, v, hv, hv, List.forall₂_same.2 fun _ _ => ⟨rfl, rfl⟩, hi⟩, rfl, h.textLength_eq,
    h.textLength_eq⟩

/-- Where the place is reached, both runs are at it. -/
theorem IsAhead.eq_start {s s' : TokenStream} (h : S.IsAhead s s')
    (hposition : s.position = S.position) : s = S.start ∧ s' = S.start' := by
  obtain ⟨⟨v, v', hv, hv', hsame, hi⟩, hposition', hlength, hlength'⟩ := h
  obtain rfl : v = [] := List.eq_nil_of_length_eq_zero (by omega)
  cases hsame
  obtain ⟨rest, i, k⟩ := s
  obtain ⟨rest', i', k'⟩ := s'
  obtain rfl : rest = _ := hv
  obtain rfl : rest' = _ := hv'
  obtain rfl : i = _ := hposition
  obtain rfl : i' = _ := hposition'
  obtain rfl : k = _ := hlength
  obtain rfl : k' = _ := hlength'
  exact ⟨rfl, rfl⟩

end Site

/-- A node that begins at a place, and another one that stands for it. -/
structure Replacement (S : Site) extends Swap where
  /-- How many more tokens the other node has. -/
  longer : Nat
  /-- The first node begins at the place. -/
  first_old : old.label.first = S.position
  /-- So does the other one. -/
  first_new : new.label.first = S.position
  /-- The first node has more tokens than one. -/
  lt_last : S.position < old.label.last
  /-- An operator that makes the first node lies in it, and it is of its level. -/
  operator : ∀ {i first last}, isOld ⟨.binary i, first, last⟩ = true →
    first = S.position ∧ S.position < i ∧ i ≤ old.label.last ∧
      (S.start.kindAt i).bind TokenKind.precedence? = level? ∧ level?.isSome = true

theorem pushed_zero (i : Nat) : pushed i 0 = id := by
  funext x
  simp [pushed]

theorem pushed_max {i d first p p' : Nat} (h : p ≤ i ∧ p' = p ∨ i + 2 ≤ p ∧ p' = p + d) :
    pushed i d (max first (p - 1)) = max (pushed i d first) (p' - 1) := by
  simp only [pushed]
  split <;> split <;> omega

/-- Two states belong together: both runs are ahead of the nodes, or both are past them, or the
first run is in the middle of its node. -/
def Meet (S : Site) (R : Replacement S) : Phase → TokenStream → TokenStream → Prop
  | .before, s, s' => S.IsAhead s s'
  | .after, s, s' => List.Forall₂ Token.Same s.rest s'.rest ∧ R.old.label.last < s.position ∧
    s'.position = s.position + R.longer
  | .lost, s, _ => S.position < s.position ∧ s.IsTail S.start

namespace Meet

variable {S : Site} {R : Replacement S} {ph : Phase} {s s' : TokenStream}

theorem position_eq (h : Meet S R ph s s') (hph : ph ≠ .lost) :
    s'.position = pushed S.position R.longer s.position := by
  have hlast := R.lt_last
  cases ph with
  | before =>
    rw [pushed, if_pos h.position_le]
    exact Site.IsAhead.position_eq h
  | after =>
    rw [pushed, if_neg (by have := h.2.1; omega)]
    exact h.2.2
  | lost => exact absurd rfl hph

theorem mark_max (h : Meet S R ph s s') (hph : ph ≠ .lost) (first : Nat) :
    pushed S.position R.longer (max first (s.position - 1)) =
      max (pushed S.position R.longer first) (s'.position - 1) := by
  have hlast := R.lt_last
  cases ph with
  | before => exact pushed_max (.inl ⟨h.position_le, Site.IsAhead.position_eq h⟩)
  | after => exact pushed_max (.inr ⟨by have := h.2.1; omega, h.2.2⟩)
  | lost => exact absurd rfl hph

theorem tail (h : Meet S R ph s s') : ∃ ph', Meet S R ph' s.tail s'.tail ∧
    (ph = .after → ph' = .after) ∧ (ph = .lost → ph' = .lost) := by
  obtain ⟨rest, p, n⟩ := s
  obtain ⟨rest', p', n'⟩ := s'
  cases ph with
  | before =>
    by_cases hposition : p = S.position
    · -- the first token of the node is taken here
      obtain ⟨hs, -⟩ := Site.IsAhead.eq_start h hposition
      refine ⟨.lost, ⟨?_, ?_⟩, by simp, by simp⟩
      · rw [hs]
        show S.position < (TokenStream.tail ⟨S.tokens, S.position, _⟩).position
        cases hr : S.tokens with
        | nil => exact absurd hr S.nonempty
        | cons t r => exact Nat.lt_succ_self _
      · rw [hs]
        exact TokenStream.isTail_tail _
    · obtain ⟨⟨v, v', hv, hv', hsame, hi⟩, hp, hlength, hlength'⟩ := h
      obtain rfl : rest = _ := hv
      obtain rfl : rest' = _ := hv'
      cases hsame with
      | nil => exact absurd hi hposition
      | cons _ hrest =>
        refine ⟨.before, ⟨⟨_, _, rfl, rfl, hrest, ?_⟩, congrArg (· + 1) hp, hlength, hlength'⟩,
          by simp, by simp⟩
        simp only [TokenStream.tail, List.cons_append, List.length_cons] at hi ⊢
        omega
  | after =>
    obtain ⟨hsame, hlt, hposition⟩ := h
    cases hsame with
    | nil => exact ⟨.after, ⟨.nil, hlt, hposition⟩, fun _ => rfl, by simp⟩
    | cons _ hrest =>
      refine ⟨.after, ⟨hrest, Nat.lt_succ_of_lt hlt, ?_⟩, fun _ => rfl, by simp⟩
      show p' + 1 = p + 1 + R.longer
      rw [show p' = p + R.longer from hposition, Nat.add_right_comm]
  | lost =>
    refine ⟨.lost, ⟨Nat.lt_of_lt_of_le h.1 ?_, (TokenStream.isTail_tail _).trans h.2⟩, by simp,
      fun _ => rfl⟩
    cases rest with
    | nil => exact Nat.le_refl _
    | cons t rest => exact Nat.le_succ _

end Meet

/-- A run on tokens of which those of one node have been exchanged for those of another one. -/
def exchanged (S : Site) (R : Replacement S) : Twin where
  mark := pushed S.position R.longer
  swap := some R.toSwap
  At := Meet S R
  lookAlike {ph s s'} h hph := by
    cases ph with
    | before =>
      obtain ⟨v, v', hv, hv', hsame, -⟩ := Site.IsAhead.rest h
      rw [hv, hv']
      exact S.lookAlike hsame
    | after => exact .of_forall₂ h.1
    | lost => exact absurd rfl hph
  position_eq := Meet.position_eq
  mark_max := Meet.mark_max
  first_new h := by
    cases h
    rw [R.first_old, R.first_new]
    exact (if_pos (Nat.le_refl _)).symm
  operator {r} h {ph s s'} hat {first last} hold := by
    cases h
    obtain ⟨hfirst, hlt, hle, hlevel, hsome⟩ := R.operator hold
    refine ⟨hfirst.trans R.first_old.symm, ?_, hsome⟩
    cases ph with
    | before => exact absurd hlt (Nat.not_lt.2 (Site.IsAhead.position_le hat))
    | after => exact absurd hle (Nat.not_le.2 hat.2.1)
    | lost => rw [hat.2.next?_eq, hlevel]
  tail := Meet.tail

variable {S : Site} {R : Replacement S} {D : Nat} {s s' : TokenStream} {ts : List PieceTree}
  {ph : Phase}

/-- Only where the place is reached can something be exchanged. -/
theorem eq_before_of_at (h : (exchanged S R).At ph s s') (hposition : s.position = S.position) :
    ph = .before ∧ s = S.start ∧ s' = S.start' := by
  have hlast := R.lt_last
  cases ph with
  | before => exact ⟨rfl, Site.IsAhead.eq_start h hposition⟩
  | after => exact absurd hposition (by have := h.2.1; omega)
  | lost => exact absurd hposition (Nat.ne_of_gt h.1)

/-- When the parsers match each other, files are read alike. -/
theorem file_exchanged
    (hcouples : ∀ n, (exchanged S R).Couples (Grammar.forTokens n) (Grammar.forTokens (n + D)))
    (hs : S.IsAhead s s') (n : Nat) : (Parse.file (Grammar.forTokens n)).Ensures s fun t _ => ∃ ph,
      (exchanged S R).Fits ph [t] ∧ (ph ≠ .lost → ∃ e',
        (Parse.file (Grammar.forTokens (n + D))).Yields s'
          (t.exchange R.isOld (pushed S.position R.longer) R.new) e') := by
  have hzero : pushed S.position R.longer 0 = 0 := if_pos (Nat.zero_le _)
  intro t e ht
  obtain ⟨ph, e', -, hfits, -, -, hyields⟩ := Matches.file (hcouples n) hzero .before s s' hs .nil
    t e ht
  refine ⟨ph, hfits, fun hph => ⟨e', ?_⟩⟩
  have hexchange : (exchanged S R).carry t =
      t.exchange R.isOld (pushed S.position R.longer) R.new :=
    rewrite_eq_exchange (σ := exchanged S R) rfl t
  exact hexchange ▸ hyields hph

end Twin

/-- A tree belongs to tokens when the parser of files yields it. -/
theorem PieceTree.ofTokens_eq_ok_iff {tokens : List Token} {length : Nat} {t : PieceTree} :
    ofTokens tokens length = .ok t ↔
      ∃ e, (Parse.file (Grammar.forTokens (tokens.length + 1))).Yields ⟨tokens, 0, length⟩ t e := by
  rw [ofTokens]
  constructor
  · intro h
    split at h
    next t' e hrun =>
      cases h
      exact ⟨e, hrun⟩
    next => cases h
  · rintro ⟨e, h⟩
    rw [Parse.Yields] at h
    rw [h]

open Twin Parse in
/-- **A file with one node for another is read with one tree for the other**, when the parsers match
each other at the place where the nodes begin. -/
theorem PieceTree.ofTokens_exchange {S : Site} {R : Twin.Replacement S} {D : Nat}
    {pre pre' : List Token} {t u : PieceTree} (hpre : List.Forall₂ Token.Same pre pre')
    (hposition : pre.length = S.position) (hlength : S.tokens'.length = S.tokens.length + R.longer)
    (ht : ofTokens (pre ++ S.tokens) S.textLength = .ok t) (hu : u ∈ t.subtrees)
    (hold : R.isOld u.label = true)
    (hcouples : ∀ n, (exchanged S R).Couples (Grammar.forTokens n)
      (Grammar.forTokens (n + (R.longer + D)))) :
    u = R.old ∧ ofTokens (pre' ++ S.tokens') S.textLength' =
      .ok (t.exchange R.isOld (pushed S.position R.longer) R.new) := by
  obtain ⟨e, he⟩ := ofTokens_eq_ok_iff.1 ht
  have hahead : S.IsAhead ⟨pre ++ S.tokens, 0, S.textLength⟩
      ⟨pre' ++ S.tokens', 0, S.textLength'⟩ :=
    ⟨⟨pre, pre', rfl, rfl, hpre, (Nat.zero_add _).trans hposition⟩, rfl, rfl, rfl⟩
  obtain ⟨ph, hfits, hyields⟩ := file_exchanged hcouples hahead _ t e he
  obtain ⟨rfl, rfl⟩ := hfits t (List.mem_singleton_self t) u hu _ rfl hold
  refine ⟨rfl, ?_⟩
  obtain ⟨e', he'⟩ := hyields (by simp)
  have hrounds : (pre ++ S.tokens).length + 1 + (R.longer + D) =
      (pre' ++ S.tokens').length + 1 + D := by
    rw [List.length_append, List.length_append, hlength, hpre.length_eq]
    omega
  rw [hrounds] at he'
  exact ofTokens_of_yields he'

namespace Twin

open Parse

/-- **A node of a file is a part of what is read where it begins.**  Here a node stands for itself,
so it is enough to know where it is read. -/
theorem mem_subtrees_of_self {S : Site} {R : Replacement S.self} {n : Nat} {s s' e : TokenStream}
    {t u : PieceTree} (hs : S.IsAhead s s')
    (hcouples : ∀ n, (exchanged S.self R).Couples (Grammar.forTokens n)
      (Grammar.forTokens (n + 0)))
    (ht : (Parse.file (Grammar.forTokens n)).Yields s t e) (hu : u ∈ t.subtrees)
    (hold : R.isOld u.label = true) : u = R.old := by
  obtain ⟨ph, hfits, -⟩ := file_exchanged hcouples hs.self n t e ht
  exact (hfits t (List.mem_singleton_self t) u hu _ rfl hold).2

end Twin

end Mend
