import Mathlib.Data.List.TakeWhile
import Mend.Proofs.ExpressionCompleteness
import Mend.Proofs.TwinRuns

/-!
# Chains of operands

Operators of one kind group from the left, so a chain of operands can be cut at any of them: what
stands before the operator is an operand, and what stands after it is a chain again, though no part
of the tree.  Either part can be the condition of a statement of its own.  It is not taken for a
declaration there, since no sign of assignment comes in it before a parenthesis or a bracket.

## Main definitions

* `PieceTree.placed` — a tree that begins at another position.
* `PieceTree.OperandChain`, `PieceTree.LeftChain` — from an expression to one of its operands, or of
  its left operands, over operators of a kind.
* `PieceTree.IsRest` — what a chain is without its first operands.
* `TokenKind.IsGuarded` — every sign of assignment comes after an opening parenthesis or bracket.

## Main results

* `Phrase.Derives.moved` — a phrase is one wherever it begins.
* `PieceTree.OperandChain.leftChain` — operators of one kind group from the left.
* `Phrase.Derives.cut` — **a chain can be cut at any of its operators.**
* `Parse.condition_yields` — operands that are joined are read as a condition.
-/

namespace Mend

open Phrase

/-- A tree that begins at another position. -/
def PieceTree.placed (t : PieceTree) (j : Nat) : PieceTree :=
  t.moved fun i => i - t.label.first + j

namespace Phrase

variable {c : Category} {i p q o : Nat} {w qs : List TokenKind} {t : PieceTree}
  {es : List PieceTree}

/-! ### Words at other positions -/

/-- Positions from one on move together, over a number of tokens. -/
def Shifts (f : Nat → Nat) (i n : Nat) : Prop := ∀ k ≤ n, f (i + k) = f i + k

variable {f : Nat → Nat} {n m k : Nat}

/-- Of positions that move together, some further ones do. -/
theorem Shifts.part (h : Shifts f i n) (hkm : k + m ≤ n) : Shifts f (i + k) m := by
  intro j hj
  rw [Nat.add_assoc, h (k + j) (by omega), h k (by omega), Nat.add_assoc]

/-- Of positions that move together, the first ones do. -/
theorem Shifts.front (h : Shifts f i n) (hmn : m ≤ n) : Shifts f i m :=
  fun k hk => h k (Nat.le_trans hk hmn)

theorem shifts_sub_add (i j n : Nat) : Shifts (fun x => x - i + j) i n := by
  intro k _
  dsimp only
  omega

theorem moved_spanning {kind : NodeKind} {cs : List PieceTree} (h : Shifts f i w.length)
    (hw : w ≠ []) : (PieceTree.spanning kind i w cs).moved f =
      .spanning (kind.moved f) (f i) w (cs.map (PieceTree.moved f)) := by
  have hlast : f (i + w.length - 1) = f i + w.length - 1 := by
    have hpos := List.length_pos_iff.2 hw
    have hfi := h (w.length - 1) (by omega)
    rwa [← Nat.add_sub_assoc hpos, ← Nat.add_sub_assoc hpos] at hfi
  rw [PieceTree.spanning, PieceTree.moved_node, hlast]
  rfl

theorem Qualifiers.moved {qs : List Nat} (h : Qualifiers i w qs) (hf : Shifts f i w.length) :
    Qualifiers (f i) w (qs.map f) := by
  induction h with
  | nil i => exact .nil (f i)
  | @cons i w qs _ ih =>
    simp only [List.length_cons] at hf
    have hrest := ih (hf.part (by omega))
    rw [hf 2 (by omega)] at hrest
    exact .cons hrest

theorem UnqualifiedName.moved (h : UnqualifiedName i w t) (hf : Shifts f i w.length) :
    UnqualifiedName (f i) w (t.moved f) := by
  cases h with
  | simple =>
    rw [moved_spanning hf (by simp)]
    exact .simple (f i)
  | destructor =>
    rw [moved_spanning hf (by simp), NodeKind.moved, hf 1 (by simp)]
    exact .destructor (f i)

theorem Name.moved (h : Name i w t) (hf : Shifts f i w.length) : Name (f i) w (t.moved f) := by
  cases h with
  | bare name => exact .bare (name.moved hf)
  | qualified hne qualifiers name =>
    rw [moved_spanning hf (by cases name <;> simp)]
    simp only [List.length_append] at hf
    have hname := name.moved (hf.part (Nat.le_refl _))
    rw [hf _ (by omega)] at hname
    exact .qualified (by simpa using hne) (qualifiers.moved (hf.front (by omega))) hname
  | global qualifiers name =>
    rw [moved_spanning hf (by simp)]
    simp only [List.length_append, List.length_cons] at hf
    have hqualifiers := qualifiers.moved (hf.part (by omega))
    have hname := name.moved (by
      rw [Nat.add_assoc]
      exact hf.part (by omega))
    rw [hf _ (by omega)] at hqualifiers
    rw [Nat.add_assoc, hf _ (by omega), ← Nat.add_assoc] at hname
    exact .global hqualifiers hname

/-- **A phrase is one wherever it begins**, and its trees move with it. -/
theorem Derives.moved (h : Derives c i w es) (hf : Shifts f i w.length) :
    Derives c (f i) w (es.map (PieceTree.moved f)) := by
  -- the positions in a word, counted from its begin
  have at_ {i n k : Nat} (hf : Shifts f i n) (hk : k ≤ n) : f (i + k) = f i + k := hf k hk
  induction h with
  | value _ ih => exact .value (ih hf)
  | @conditional i w v u _ _ _ _ _ _ ihc ihl ihr =>
    rw [List.map_singleton, moved_spanning hf (by simp)]
    simp only [List.length_append, List.length_cons] at hf
    simp only [NodeKind.moved, Nat.add_assoc] at *
    have hl := ihl (hf.part (by omega))
    have hr := ihr (hf.part (by omega))
    rw [at_ hf (by omega)] at hl hr
    rw [at_ hf (by omega), at_ hf (by omega)]
    simp only [← Nat.add_assoc] at hl hr ⊢
    exact .conditional (ihc (hf.front (by omega))) hl hr
  | assign hop _ _ ihl ihr =>
    rw [List.map_singleton, moved_spanning hf (by simp)]
    simp only [List.length_append, List.length_cons] at hf
    simp only [NodeKind.moved, Nat.add_assoc] at *
    have hr := ihr (hf.part (by omega))
    rw [at_ hf (by omega)] at hr
    rw [at_ hf (by omega)]
    simp only [← Nat.add_assoc] at hr ⊢
    exact .assign hop (ihl (hf.front (by omega))) hr
  | operand _ ih => exact .operand (ih hf)
  | tighter hp _ ih => exact .tighter hp (ih hf)
  | join hop _ _ ihl ihr =>
    rw [List.map_singleton, moved_spanning hf (by simp)]
    simp only [List.length_append, List.length_cons] at hf
    simp only [NodeKind.moved, Nat.add_assoc] at *
    have hr := ihr (hf.part (by omega))
    rw [at_ hf (by omega)] at hr
    rw [at_ hf (by omega)]
    simp only [← Nat.add_assoc] at hr ⊢
    exact .join hop (ihl (hf.front (by omega))) hr
  | bare _ ih => exact .bare (ih hf)
  | unary hop _ ih =>
    rw [List.map_singleton, moved_spanning hf (by simp)]
    simp only [List.length_cons] at hf
    have h := ih (hf.part (by omega))
    rw [at_ hf (by omega)] at h
    exact .unary hop h
  | alone _ ih => exact .alone (ih hf)
  | call _ _ ihe ihes =>
    rw [List.map_singleton, moved_spanning hf (by simp)]
    simp only [List.length_append, List.length_cons, List.length_nil] at hf
    simp only [NodeKind.moved, Nat.add_assoc] at *
    have hes := ihes (hf.part (by omega))
    rw [at_ hf (by omega)] at hes
    rw [at_ hf (by omega), at_ hf (by omega)]
    simp only [← Nat.add_assoc] at hes ⊢
    exact .call (ihe (hf.front (by omega))) hes
  | item _ _ ihe ihx =>
    rw [List.map_singleton, moved_spanning hf (by simp)]
    simp only [List.length_append, List.length_cons, List.length_nil] at hf
    simp only [NodeKind.moved, Nat.add_assoc] at *
    have hx := ihx (hf.part (by omega))
    rw [at_ hf (by omega)] at hx
    rw [at_ hf (by omega), at_ hf (by omega)]
    simp only [← Nat.add_assoc] at hx ⊢
    exact .item (ihe (hf.front (by omega))) hx
  | member hop _ hname ih =>
    rw [List.map_singleton, moved_spanning hf (by simp)]
    simp only [List.length_append, List.length_cons] at hf
    simp only [NodeKind.moved, Nat.add_assoc] at *
    have hm := hname.moved (hf.part (by omega))
    rw [at_ hf (by omega)] at hm
    rw [at_ hf (by omega)]
    simp only [← Nat.add_assoc] at hm ⊢
    exact .member hop (ih (hf.front (by omega))) hm
  | step hop _ ih =>
    rw [List.map_singleton, moved_spanning hf (by simp)]
    simp only [List.length_append, List.length_cons, List.length_nil] at hf
    rw [NodeKind.moved, at_ hf (by omega)]
    exact .step hop (ih (hf.front (by omega)))
  | number i hkind =>
    rw [List.map_singleton, moved_spanning hf (by simp)]
    exact .number (f i) hkind
  | string i =>
    rw [List.map_singleton, moved_spanning hf (by simp)]
    exact .string (f i)
  | signedString i =>
    rw [List.map_singleton, moved_spanning hf (by simp), NodeKind.moved, at_ hf (by simp)]
    exact .signedString (f i)
  | bool i hkind =>
    rw [List.map_singleton, moved_spanning hf (by simp)]
    exact .bool (f i) hkind
  | this i =>
    rw [List.map_singleton, moved_spanning hf (by simp)]
    exact .this (f i)
  | nested _ ih =>
    rw [List.map_singleton, moved_spanning hf (by simp)]
    simp only [List.length_append, List.length_cons, List.length_nil] at hf
    simp only [NodeKind.moved, Nat.add_assoc] at *
    have h := ih (hf.part (by omega))
    rw [at_ hf (by omega)] at h
    rw [at_ hf (by omega)]
    simp only [← Nat.add_assoc] at h ⊢
    exact .nested h
  | name hhead hname => exact .name hhead (hname.moved hf)
  | noArguments i => exact .noArguments (f i)
  | someArguments _ _ ihe ihes =>
    simp only [List.length_append] at hf
    have hes := ihes (hf.part (Nat.le_refl _))
    rw [at_ hf (by omega)] at hes
    exact .someArguments (ihe (hf.front (by omega))) hes
  | noMore i => exact .noMore (f i)
  | more _ _ ihe ihes =>
    simp only [List.length_append, List.length_cons] at hf
    simp only [Nat.add_assoc] at *
    have he := ihe (hf.part (by omega))
    have hes := ihes (hf.part (by omega))
    rw [at_ hf (by omega)] at he hes
    simp only [← Nat.add_assoc] at hes
    exact .more he hes

/-- **The tree of a word at another position** is its tree, placed there. -/
theorem Derives.placed (h : Derives (.binary p) i w [t]) (j : Nat) :
    Derives (.binary p) j w [t.placed j] := by
  have hmoved := h.moved (shifts_sub_add i j w.length)
  rw [Nat.sub_self, Nat.zero_add] at hmoved
  rwa [PieceTree.placed, h.first_eq (by simp)]

end Phrase

/-! ### Cutting a chain -/

namespace PieceTree

/-- From an expression one comes to another by going to operands, over operators of one kind. -/
inductive OperandChain (f : Nat → Option TokenKind) (k : TokenKind) : PieceTree → PieceTree → Prop
  /-- No step. -/
  | refl (t : PieceTree) : OperandChain f k t t
  /-- A step to an operand, and then others. -/
  | step {t v u : PieceTree} {o : Nat} (kind : t.label.kind = .binary o) (child : v ∈ t.children)
    (operator : f o = some k) (rest : OperandChain f k v u) : OperandChain f k t u

/-- From an expression one comes to another by going to left operands only, over operators of one
kind. -/
inductive LeftChain (f : Nat → Option TokenKind) (k : TokenKind) : PieceTree → PieceTree → Prop
  /-- No step. -/
  | refl (t : PieceTree) : LeftChain f k t t
  /-- A step to the left operand, and then others. -/
  | step {t l r u : PieceTree} {o : Nat} (kind : t.label.kind = .binary o)
    (children : t.children = [l, r]) (operator : f o = some k) (rest : LeftChain f k l u) :
    LeftChain f k t u

/-- What a chain is when the left operand of its last expression is taken away, and the operator
with it: its other operands stay, joined as before. -/
inductive IsRest (u r : PieceTree) : PieceTree → PieceTree → Prop
  /-- Of the expression itself its right operand stays. -/
  | refl : IsRest u r u r
  /-- Of a chain the right operand stays, and what stays of the left one. -/
  | step {t l s e e' : PieceTree} {o : Nat} (kind : t.label.kind = .binary o)
    (children : t.children = [l, s]) (kind' : e'.label.kind = .binary o)
    (children' : e'.children = [e, s]) (first : e'.label.first = e.label.first)
    (rest : IsRest u r l e) : IsRest u r t e'

variable {f : Nat → Option TokenKind} {k : TokenKind} {t u r e : PieceTree} {o q : Nat}

/-- A chain consists of binary expressions with operators of its kind, when the last one is one. -/
theorem OperandChain.exists_operator (h : OperandChain f k t u) (hu : u.label.kind = .binary o)
    (ho : f o = some k) : ∃ o', t.label.kind = .binary o' ∧ f o' = some k := by
  cases h with
  | refl => exact ⟨o, hu, ho⟩
  | step kind _ operator => exact ⟨_, kind, operator⟩

/-- **Operators of one kind group from the left**, so a chain goes to left operands only. -/
theorem OperandChain.leftChain (h : OperandChain f k t u) (ht : t.All (Piece.GroupsByLevel f))
    (hu : u.label.kind = .binary o) (ho : f o = some k) (hq : k.precedence? = some q) :
    LeftChain f k t u := by
  have hlevel {o' : Nat} (ho' : f o' = some k) : (f o').bind TokenKind.precedence? = some q := by
    rw [ho', Option.bind_some, hq]
  induction h with
  | refl t => exact .refl t
  | @step t v u o₁ kind child operator rest ih =>
    obtain ⟨⟨x, cs⟩, rfl⟩ : ∃ t', t' = t := ⟨t, rfl⟩
    obtain ⟨hgroups, hcs⟩ := Rose.all_node.1 ht
    obtain ⟨left, right, hsides, -, hright⟩ := hgroups o₁ q kind (hlevel operator)
    obtain ⟨l, ls, rfl, rfl, hrest⟩ := List.map_eq_cons_iff.1 hsides
    obtain ⟨s, rfl, rfl⟩ := List.map_eq_singleton_iff.1 hrest
    -- the right operand binds more tightly than operators of this kind
    obtain ⟨o₂, hkind, ho₂⟩ := rest.exists_operator hu ho
    have hne : v ≠ s := by
      rintro rfl
      simp [Piece.level, hkind, hlevel ho₂] at hright
    obtain rfl : v = l := (List.mem_pair.1 child).resolve_right hne
    exact .step kind rfl operator (ih (hcs v List.mem_cons_self) hu)

/-- The last expression of a chain is a part of it. -/
theorem IsRest.mem_subtrees (h : IsRest u r t e) : u ∈ t.subtrees := by
  induction h with
  | refl => exact Rose.self_mem_subtrees u
  | @step t l s e e' o _ children _ _ _ _ ih =>
    have hl : l ∈ t.children := children ▸ List.mem_cons_self
    exact Rose.subtrees_subset (Rose.mem_subtrees_of_mem_children (Rose.self_mem_subtrees t) hl) ih

/-- What is left of a chain begins with the operand behind the operator. -/
theorem IsRest.first_eq (h : IsRest u r t e) : e.label.first = r.label.first := by
  induction h with
  | refl => rfl
  | step _ _ _ _ first _ ih => exact first.trans ih

end PieceTree

namespace Phrase.Derives

variable {c : Category} {f : Nat → Option TokenKind} {i p q o : Nat} {w : List TokenKind}
  {k : TokenKind} {t u l r : PieceTree} {es : List PieceTree}

/-- A tree with two operands belongs to their words with an operator between them. -/
theorem exists_operator (h : Derives c i w es) (hc : c ≠ .arguments) (hc' : c ≠ .furtherArguments)
    (hes : es = [t]) (hkind : t.label.kind = .binary o) :
    ∃ v v' op l r, w = v ++ op :: v' ∧ o = i + v.length ∧ t.children = [l, r] ∧
      (op.isAssignment = true ∨ ∃ q, op.precedence? = some q ∧ Derives (.binary q) i v [l] ∧
        Derives (.binary (q + 1)) (o + 1) v' [r]) := by
  induction h with
  | value _ ih | operand _ ih | tighter _ _ ih | bare _ ih | alone _ ih =>
    exact ih (by simp) (by simp) hes
  | assign hop =>
    obtain rfl := (List.cons.inj hes).1
    obtain rfl := NodeKind.binary.inj hkind
    exact ⟨_, _, _, _, _, rfl, rfl, rfl, .inl hop⟩
  | join hop hl hr =>
    obtain rfl := (List.cons.inj hes).1
    obtain rfl := NodeKind.binary.inj hkind
    exact ⟨_, _, _, _, _, rfl, rfl, rfl, .inr ⟨_, hop, hl, hr⟩⟩
  | name _ hname =>
    obtain rfl := (List.cons.inj hes).1
    cases hname with
    | bare name => cases name <;> cases hkind
    | qualified | global => cases hkind
  | noArguments | someArguments => exact absurd rfl hc
  | noMore | more => exact absurd rfl hc'
  | _ =>
    obtain rfl := (List.cons.inj hes).1
    cases hkind

/-- Two operands around an operator of a level. -/
theorem binary_inv (h : Derives c i w [t]) (hc : c ≠ .arguments) (hc' : c ≠ .furtherArguments)
    (hf : TokenKind.FoundAt f i w) (hkind : t.label.kind = .binary o)
    (hchildren : t.children = [l, r]) (ho : f o = some k) (hk : k.precedence? = some q) :
    ∃ v v', w = v ++ k :: v' ∧ o = i + v.length ∧ Derives (.binary q) i v [l] ∧
      Derives (.binary (q + 1)) (o + 1) v' [r] := by
  obtain ⟨v, v', op, l', r', rfl, rfl, hparts, hop⟩ := h.exists_operator hc hc' rfl hkind
  obtain ⟨rfl, rfl⟩ : l = l' ∧ r = r' := by simpa [hchildren] using hparts
  obtain rfl : op = k := Option.some.inj (hf.right.head.symm.trans ho)
  rcases hop with hop | ⟨q', hq', hl, hr⟩
  · rw [precedence?_of_isAssignment hop] at hk
    cases hk
  · obtain rfl := Option.some.inj (hq'.symm.trans hk)
    exact ⟨v, v', rfl, rfl, hl, hr⟩

/-- **A chain can be cut at any of its operators.**  Before the operator there is its left operand,
and after it the operands that are left, joined as before. -/
theorem cut (h : Derives c i w [t]) (hc : c ≠ .arguments) (hc' : c ≠ .furtherArguments)
    (hf : TokenKind.FoundAt f i w) (hchain : t.LeftChain f k u) (hk : k.precedence? = some q)
    (hkind : u.label.kind = .binary o) (hchildren : u.children = [l, r]) (ho : f o = some k) :
    ∃ v v' e, w = v ++ k :: v' ∧ o = i + v.length ∧ Derives (.binary q) i v [l] ∧
      Derives (.binary q) (o + 1) v' [e] ∧ PieceTree.IsRest u r t e := by
  have hq := TokenKind.precedence?_bounds hk
  -- on the way to the operator; every step adds an operand behind what is cut off
  induction hchain generalizing c w with
  | refl u =>
    obtain ⟨v, v', rfl, rfl, hl, hr⟩ := h.binary_inv hc hc' hf hkind hchildren ho hk
    exact ⟨v, v', r, rfl, rfl, hl, hr.looser (by omega), .refl⟩
  | step hkind' hchildren' ho' _ ih =>
    obtain ⟨v₁, v₁', rfl, rfl, hl, hr⟩ := h.binary_inv hc hc' hf hkind' hchildren' ho' hk
    obtain ⟨v, v', e, rfl, rfl, hl, he, hrest⟩ := ih hl (by simp) (by simp) hf.left hkind hchildren
    have hposition : i + v.length + 1 + v'.length = i + (v ++ k :: v').length := by
      rw [List.length_append, List.length_cons]
      omega
    rw [← hposition] at hr hkind'
    exact ⟨v, v' ++ k :: v₁', _, by simp, rfl, hl, .join hk he hr,
      .step hkind' hchildren' rfl rfl (he.first_eq (by simp)).symm hrest⟩

end Phrase.Derives

/-! ### Conditions -/

namespace TokenKind

/-- A specifier that is no name, with which a declaration opens. -/
def opensDeclaration (k : TokenKind) : Bool := k.isSpecifier || k.isClassKey || k == kwEnum

/-- No sign of a declaration comes before the first parenthesis or bracket. -/
def IsGuarded : List TokenKind → Bool
  | [] => true
  | k :: w => k == lParen || k == lBracket || !(k.isAssignment || k.opensDeclaration) && IsGuarded w

variable {v w : List TokenKind} {k : TokenKind}

theorem isGuarded_append (hv : IsGuarded v = true) (hw : IsGuarded w = true) :
    IsGuarded (v ++ w) = true := by
  induction v with
  | nil => exact hw
  | cons k v ih =>
    simp only [IsGuarded, List.cons_append, Bool.or_eq_true, Bool.and_eq_true] at hv ⊢
    exact hv.imp_right fun h => ⟨h.1, ih h.2⟩

/-- Operators other than assignments are no signs of a declaration. -/
theorem isGuarded_cons (hk : (k.isAssignment || k.opensDeclaration) = false)
    (hw : IsGuarded w = true) : IsGuarded (k :: w) = true := by
  simp [IsGuarded, hk, hw]

theorem isGuarded_of_precedence? {p : Nat} (hk : k.precedence? = some p)
    (hw : IsGuarded w = true) : IsGuarded (k :: w) = true := by
  have hall : k.precedence?.isSome → (k.isAssignment || k.opensDeclaration) = false := by
    cases k <;> decide
  exact isGuarded_cons (hall (by simp [hk])) hw

theorem isGuarded_of_isUnaryOperator (hk : k.isUnaryOperator = true)
    (hw : IsGuarded w = true) : IsGuarded (k :: w) = true := by
  have hall : k.isUnaryOperator → (k.isAssignment || k.opensDeclaration) = false := by
    cases k <;> decide
  exact isGuarded_cons (hall hk) hw

end TokenKind

namespace Phrase

open TokenKind

theorem Qualifiers.isGuarded {i : Nat} {w : List TokenKind} {qs : List Nat}
    (h : Qualifiers i w qs) : IsGuarded w = true := by
  induction h with
  | nil => rfl
  | cons _ ih => exact isGuarded_cons rfl (isGuarded_cons rfl ih)

theorem Name.isGuarded {i : Nat} {w : List TokenKind} {t : PieceTree} (h : Name i w t) :
    IsGuarded w = true := by
  cases h with
  | bare name => cases name <;> rfl
  | qualified _ qualifiers name =>
    exact isGuarded_append qualifiers.isGuarded (by cases name <;> rfl)
  | global qualifiers name =>
    exact isGuarded_cons rfl (isGuarded_append qualifiers.isGuarded (by cases name <;> rfl))

/-- **No sign of a declaration comes in operands** before the first parenthesis or bracket. -/
theorem Derives.isGuarded {c : Category} {i : Nat} {w : List TokenKind} {es : List PieceTree}
    (h : Derives c i w es) (hc : c ≠ .assignment) (hc' : c ≠ .arguments)
    (hc'' : c ≠ .furtherArguments) : IsGuarded w = true := by
  induction h with
  | value | conditional | assign => exact absurd rfl hc
  | noArguments | someArguments => exact absurd rfl hc'
  | noMore | more => exact absurd rfl hc''
  | operand _ ih | tighter _ _ ih | bare _ ih | alone _ ih => exact ih (by simp) (by simp) (by simp)
  | join hop _ _ ihl ihr =>
    exact isGuarded_append (ihl (by simp) (by simp) (by simp))
      (isGuarded_of_precedence? hop (ihr (by simp) (by simp) (by simp)))
  | unary hop _ ih => exact isGuarded_of_isUnaryOperator hop (ih (by simp) (by simp) (by simp))
  | call _ _ ih | item _ _ ih =>
    -- a parenthesis or a bracket comes next
    exact isGuarded_append (ih (by simp) (by simp) (by simp)) rfl
  | member hop _ hname ih =>
    refine isGuarded_append (ih (by simp) (by simp) (by simp)) (isGuarded_cons ?_ hname.isGuarded)
    rcases hop with rfl | rfl <;> rfl
  | step hop _ ih =>
    refine isGuarded_append (ih (by simp) (by simp) (by simp)) (isGuarded_cons ?_ rfl)
    rcases hop with rfl | rfl <;> rfl
  | number _ hk | bool _ hk => rcases hk with rfl | rfl <;> rfl
  | string | signedString | this | nested => rfl
  | name _ hname => exact hname.isGuarded

end Phrase

namespace Parse

open TokenKind TokenStream

variable {g : Grammar} {s s' : TokenStream} {n : Nat} {w : List TokenKind} {e : PieceTree}
  {ts us : List Token}

/-- A token of the name of a type, or between it and the name that is declared. -/
def isTypeToken (t : Token) : Bool :=
  [TokenKind.identifier, .colonColon, .star, .amp, .ampAmp, .kwConst].contains t.kind

theorem dropQualifiers_eq (ts : List Token) :
    ∃ v, ts = v ++ dropQualifiers ts ∧ ∀ t ∈ v, isTypeToken t = true := by
  fun_induction dropQualifiers ts with
  | case1 t u rest h ih =>
    obtain ⟨v, hv, htypes⟩ := ih
    refine ⟨t :: u :: v, congrArg (t :: u :: ·) hv, ?_⟩
    rintro x (_ | ⟨_, _ | ⟨_, hx⟩⟩)
    · simp [isTypeToken, h.1]
    · simp [isTypeToken, h.2]
    · exact htypes x hx
  | case2 | case3 => exact ⟨[], rfl, by simp⟩

/-- Only tokens of a type come before a name that is declared. -/
theorem eq_append_of_afterTypedName? (h : afterTypedName? ts = some us) :
    ∃ v, ts = v ++ us ∧ ∀ t ∈ v, isTypeToken t = true := by
  obtain ⟨v, hv, hqualifiers⟩ := dropQualifiers_eq ts
  rw [afterTypedName?] at h
  split at h
  next t rest hdrop =>
    obtain ⟨ht, h⟩ := Option.ite_none_right_eq_some.1 h
    split at h
    next u rest' hrest =>
      obtain ⟨hu, h⟩ := Option.ite_none_right_eq_some.1 h
      obtain rfl := Option.some.inj h
      refine ⟨v ++ t :: (rest.takeWhile isPointerToken ++ [u]), ?_, ?_⟩
      · have hsplit := List.takeWhile_append_dropWhile (p := isPointerToken) (l := rest)
        rw [hrest] at hsplit
        refine hv.trans ?_
        rw [hdrop, List.append_assoc, List.cons_append, List.append_assoc]
        exact congrArg (v ++ t :: ·) hsplit.symm
      · intro x hx
        rcases List.mem_append.1 hx with hx | hx
        · exact hqualifiers x hx
        rcases List.mem_cons.1 hx with rfl | hx
        · simp [isTypeToken, ht]
        rcases List.mem_append.1 hx with hx | hx
        · have hpointer := List.mem_takeWhile_imp hx
          simp only [isPointerToken, isTypeToken, List.contains_cons, Bool.or_eq_true] at hpointer ⊢
          tauto
        · obtain rfl := List.mem_singleton.1 hx
          simp [isTypeToken, hu]
    next => cases h
  next => cases h

/-- Among tokens of a type there is no closing parenthesis, and an equals sign would be a sign of a
declaration. -/
theorem not_equal_of_isGuarded {v : List Token} {t : Token} {u : List TokenKind}
    (hw : IsGuarded w = true) (hv : ∀ x ∈ v, isTypeToken x = true) (ht : t.kind = .equal)
    (h : (v ++ t :: us).map (·.kind) = w ++ .rParen :: u) : False := by
  induction w generalizing v with
  | nil =>
    cases v with
    | nil =>
      have hkind : t.kind = .rParen := (List.cons.inj h).1
      rw [ht] at hkind
      cases hkind
    | cons x v =>
      have hx := hv x List.mem_cons_self
      have hkind : x.kind = .rParen := (List.cons.inj h).1
      rw [isTypeToken, hkind] at hx
      cases hx
  | cons k w ih =>
    cases v with
    | nil =>
      have hkind : t.kind = k := (List.cons.inj h).1
      rw [← hkind, ht] at hw
      cases hw
    | cons x v =>
      have hx := hv x List.mem_cons_self
      have hkind : x.kind = k := (List.cons.inj h).1
      rw [isTypeToken, hkind] at hx
      refine ih ?_ (fun y hy => hv y (List.mem_cons_of_mem _ hy)) (List.cons.inj h).2
      have hclosed : k ≠ .lParen ∧ k ≠ .lBracket := by
        constructor <;> rintro rfl <;> cases hx
      simp only [IsGuarded, beq_eq_false_iff_ne.2 hclosed.1, beq_eq_false_iff_ne.2 hclosed.2,
        Bool.false_or, Bool.and_eq_true] at hw
      exact hw.2

theorem kinds_eq_of_consumes (h : s.Consumes w s') :
    s.rest.map (·.kind) = w ++ s'.rest.map (·.kind) := by
  obtain ⟨ts, hrest, hw, -⟩ := h
  rw [hrest, List.map_append, hw]

/-- Operands in parentheses are not taken for a declaration. -/
theorem isConditionDeclarationNext_eq_false {i : Nat} (h : s.Consumes w s')
    (he : Derives (.binary 1) i w [e]) (hnext : s'.next? = some .rParen) :
    isConditionDeclarationNext s = false := by
  have hguarded := he.isGuarded (by simp) (by simp) (by simp)
  rw [isConditionDeclarationNext, Bool.or_eq_false_iff]
  constructor
  · obtain ⟨k, v, rfl, -⟩ := he.exists_head_eq (by simp) (by simp)
    rw [isKeywordSpecifierNext, h.next?_eq rfl, Option.any_some]
    rcases Bool.or_eq_true_iff.1 hguarded with hk | hk
    · simp only [Bool.or_eq_true, beq_iff_eq] at hk
      rcases hk with rfl | rfl <;> rfl
    · simp only [Bool.and_eq_true, Bool.not_eq_true', Bool.or_eq_false_iff] at hk
      exact hk.1.2
  · by_contra hany
    obtain ⟨us, hus, hequal⟩ := (Option.any_eq_true _ _).1 (Bool.not_eq_false _ ▸ hany)
    obtain ⟨v, hv, htypes⟩ := eq_append_of_afterTypedName? hus
    obtain ⟨t, ht, hkind⟩ := (Option.any_eq_true _ _).1 hequal
    obtain ⟨us, rfl⟩ := List.head?_eq_some_iff.1 ht
    obtain ⟨r, hr, hclose⟩ := Option.map_eq_some_iff.1 hnext
    obtain ⟨rest, hrest⟩ := List.head?_eq_some_iff.1 hr
    have hkinds := kinds_eq_of_consumes h
    rw [hv, hrest, List.map_cons, hclose] at hkinds
    exact not_equal_of_isGuarded hguarded htypes (beq_iff_eq.1 hkind) hkinds

/-- **Operands that are joined are read as a condition.** -/
theorem condition_yields (hg : g.ReadsPhrases n) (hn : s.rest.length ≤ n) (h : s.Consumes w s')
    (he : Derives (.binary 1) s.position w [e]) (hnext : s'.next? = some .rParen) :
    (condition g).Yields s e s' := by
  refine .get_bind ?_
  rw [isConditionDeclarationNext_eq_false h he hnext, if_neg Bool.false_ne_true]
  exact assignment_yields hg hn h (.value he) (by rw [hnext]; rfl)

end Parse

end Mend
