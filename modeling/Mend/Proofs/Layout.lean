import Mathlib.Data.List.Basic
import Mend.Code.Tree

/-!
# How a node is laid out

A node covers a run of tokens.  Some of them are its own, named by its kind; the others belong to
its children, or to nobody.  The order in which its own tokens and the runs of its children follow
each other is told by the kind alone, up to how many children there are of each sort.  A node is
*laid out* when they follow each other in this order, within the run of the node.  One thing more is
asked of an `if` statement: its condition may be a binary expression, but its branches may not.

## Main definitions

* `TokenRun`, `TokenRun.InOrder` — runs of tokens, and runs that follow each other.
* `NodeKind.slots` — which children stand behind which tokens of a node.
* `Piece.layout`, `Piece.IsLaid` — the tokens and children of a node in order, and that they are.

## Main results

* `Piece.IsLaid.children` — the children of a node that is laid out follow each other within it.
-/

namespace Mend

/-! ### Runs that follow each other -/

/-- The tokens between two positions, both of which count. -/
structure TokenRun where
  /-- The first position. -/
  first : Nat
  /-- The last position. -/
  last : Nat
  deriving DecidableEq, Repr

namespace TokenRun

/-- The run of a single token. -/
def single (i : Nat) : TokenRun := ⟨i, i⟩

@[simp] theorem first_single (i : Nat) : (single i).first = i := rfl

@[simp] theorem last_single (i : Nat) : (single i).last = i := rfl

/-- Runs that follow each other between two positions, of which the second does not count.  Tokens
may be left out. -/
def InOrder (lo : Nat) : List TokenRun → Nat → Prop
  | [], hi => lo ≤ hi
  | r :: rs, hi => lo ≤ r.first ∧ r.first ≤ r.last ∧ InOrder (r.last + 1) rs hi

instance decidableInOrder : (lo : Nat) → (rs : List TokenRun) → (hi : Nat) →
    Decidable (InOrder lo rs hi)
  | lo, [], hi => inferInstanceAs (Decidable (lo ≤ hi))
  | lo, r :: rs, hi =>
    have := decidableInOrder (r.last + 1) rs hi
    inferInstanceAs (Decidable (lo ≤ r.first ∧ r.first ≤ r.last ∧ InOrder (r.last + 1) rs hi))

variable {lo mid hi : Nat} {r : TokenRun} {rs xs ys : List TokenRun}

@[simp] theorem inOrder_nil : InOrder lo [] hi ↔ lo ≤ hi := Iff.rfl

@[simp] theorem inOrder_cons : InOrder lo (r :: rs) hi ↔
    lo ≤ r.first ∧ r.first ≤ r.last ∧ InOrder (r.last + 1) rs hi := Iff.rfl

namespace InOrder

protected theorem le (h : InOrder lo rs hi) : lo ≤ hi := by
  induction rs generalizing lo with
  | nil => exact h
  | cons r rs ih =>
    obtain ⟨hlo, hr, hrest⟩ := h
    have := ih hrest
    omega

/-- Runs that take up at least one token. -/
protected theorem lt (h : InOrder lo rs hi) (hne : rs ≠ []) : lo < hi := by
  cases rs with
  | nil => exact absurd rfl hne
  | cons r rs =>
    obtain ⟨hlo, hr, hrest⟩ := h
    have := hrest.le
    omega

/-- Runs stay in order between positions that lie further apart. -/
protected theorem mono {lo' hi' : Nat} (h : InOrder lo rs hi) (hlo : lo' ≤ lo) (hhi : hi ≤ hi') :
    InOrder lo' rs hi' := by
  induction rs generalizing lo lo' with
  | nil => exact Nat.le_trans hlo (Nat.le_trans h hhi)
  | cons r rs ih => exact ⟨Nat.le_trans hlo h.1, h.2.1, ih h.2.2 (Nat.le_refl _)⟩

/-- Runs in order, and behind them others. -/
protected theorem append (h : InOrder lo xs mid) (h' : InOrder mid ys hi) :
    InOrder lo (xs ++ ys) hi := by
  induction xs generalizing lo with
  | nil => exact h'.mono h (Nat.le_refl _)
  | cons x xs ih => exact ⟨h.1, h.2.1, ih h.2.2⟩

/-- Of runs in order some may be left out. -/
protected theorem sublist (h : InOrder lo ys hi) (hsub : xs.Sublist ys) : InOrder lo xs hi := by
  induction hsub generalizing lo with
  | slnil => exact h
  | cons y _ ih => exact (ih h.2.2).mono (by have := h.1; have := h.2.1; omega) (Nat.le_refl _)
  | cons_cons y _ ih => exact ⟨h.1, h.2.1, ih h.2.2⟩

/-- A run in order lies between the positions. -/
protected theorem of_mem (h : InOrder lo rs hi) (hr : r ∈ rs) :
    lo ≤ r.first ∧ r.first ≤ r.last ∧ r.last < hi := by
  have hone : InOrder lo [r] hi := h.sublist (List.singleton_sublist.2 hr)
  exact hone

/-- Of two runs in order, the first one ends before the other one begins. -/
protected theorem pairwise (h : InOrder lo rs hi) : rs.Pairwise fun r s => r.last < s.first := by
  induction rs generalizing lo with
  | nil => exact .nil
  | cons r rs ih => exact List.pairwise_cons.2 ⟨fun s hs => (h.2.2.of_mem hs).1, ih h.2.2⟩

end InOrder

/-! ### Tokens between runs -/

/-- Puts tokens between runs: each group of tokens goes before as many of the runs as it says. -/
def interleave : List (List Nat × Nat) → List TokenRun → List TokenRun
  | [], rs => rs
  | (tokens, n) :: groups, rs =>
    tokens.map single ++ (rs.take n ++ interleave groups (rs.drop n))

/-- The runs between which tokens are put stay in order. -/
theorem sublist_interleave (groups : List (List Nat × Nat)) (rs : List TokenRun) :
    rs.Sublist (interleave groups rs) := by
  induction groups generalizing rs with
  | nil => exact List.Sublist.refl rs
  | cons group groups ih =>
    rw [interleave]
    refine .trans ?_ (List.sublist_append_right _ _)
    conv_lhs => rw [← List.take_append_drop group.2 rs]
    exact (List.Sublist.refl _).append (ih _)

end TokenRun

/-! ### Nodes -/

/-- The tokens of a node of its own, in groups, each with the number of children that stand behind
it; the kinds of the children are given.  The children that are not counted come last. -/
def NodeKind.slots (children : List NodeKind) : NodeKind → List (List Nat × Nat)
  | file | functionDefinition | namedTypeSpecifier | declaratorName | parameter
  | declarationStatement | conditionDeclaration => []
  | namespaceBody keyword name lbrace rbrace =>
    [(keyword :: (name.toList ++ [lbrace]), children.length), ([rbrace], 0)]
  | simpleDeclaration semicolon | expressionStatement semicolon =>
    [([], children.length), ([semicolon], 0)]
  | simpleSpecifier token | elaboratedSpecifier token | macroMember token | simpleName token
  | numericLiteral token | boolLiteral token | this token | unary token => [([token], 0)]
  | classSpecifier key lbrace rbrace | enumSpecifier key lbrace rbrace =>
    [([key], (children.takeWhile isName).length), ([lbrace], children.length), ([rbrace], 0)]
  | accessLabel access slots colon => [(access :: (slots.toList ++ [colon]), 0)]
  | enumerator name equal => [(name :: equal.toList, 0)]
  | declarator pointers equal =>
    [(pointers, children.length - equal.toList.length), (equal.toList, 0)]
  | parameterList lparen rparen const =>
    [([lparen], children.length), (rparen :: const.toList, 0)]
  | block lbrace rbrace => [([lbrace], children.length), ([rbrace], 0)]
  | ifStatement keyword lparen rparen elseToken =>
    [([keyword, lparen], 1), ([rparen], 1), (elseToken.toList, 0)]
  | whileStatement keyword lparen rparen | switchStatement keyword lparen rparen =>
    [([keyword, lparen], 1), ([rparen], 0)]
  | doStatement keyword whileToken lparen rparen semicolon =>
    [([keyword], 1), ([whileToken, lparen], 1), ([rparen, semicolon], 0)]
  | forStatement keyword lparen semicolon rparen hasCondition =>
    let heads := if hasCondition then 2 else 1
    [([keyword, lparen], heads), ([semicolon], children.length - heads - 1), ([rparen], 0)]
  | caseLabel keyword mark | defaultLabel keyword mark | breakStatement keyword mark
  | continueStatement keyword mark | returnStatement keyword mark =>
    [([keyword], children.length), ([mark], 0)]
  | binary operator | memberAccess operator => [([], 1), ([operator], 0)]
  | conditional question colon => [([], 1), ([question], 1), ([colon], 0)]
  | postfixed operator => [([], 1), ([operator], 0)]
  | nested lparen rparen => [([lparen], 1), ([rparen], 0)]
  | call lparen rparen => [([], 1), ([lparen], children.length), ([rparen], 0)]
  | arrayAccess lbracket rbracket => [([], 1), ([lbracket], 1), ([rbracket], 0)]
  | destructorName tilde token => [([tilde, token], 0)]
  | qualifiedName qualifiers => [(qualifiers, 0)]
  | stringLiteral sign token => [(sign.toList ++ [token], 0)]

/-- Whether a node is an `if` statement. -/
def NodeKind.isIf : NodeKind → Bool
  | ifStatement _ _ _ _ => true
  | _ => false

namespace Piece

/-- The tokens that a node covers. -/
def run (p : Piece) : TokenRun := ⟨p.first, p.last⟩

@[simp] theorem first_run (p : Piece) : p.run.first = p.first := rfl

@[simp] theorem last_run (p : Piece) : p.run.last = p.last := rfl

/-- The tokens of a node of its own and the runs of its children, in the order of its kind. -/
def layout (p : Piece) (cs : List Piece) : List TokenRun :=
  TokenRun.interleave (p.kind.slots (cs.map kind)) (cs.map run)

/-- A node that is laid out: its own tokens and its children follow each other within its run. -/
structure IsLaid (p : Piece) (cs : List Piece) : Prop where
  /-- The node covers a token. -/
  first_le_last : p.first ≤ p.last
  /-- Its tokens and children follow each other. -/
  inOrder : TokenRun.InOrder p.first (p.layout cs) (p.last + 1)
  /-- The branches of an `if` statement are statements, so no operator joins two operands there. -/
  branches : p.kind.isIf = true → ∀ c ∈ cs.tail, c.kind.isBinary = false

variable {p c : Piece} {cs : List Piece}

/-- **The children of a node that is laid out follow each other within it.** -/
theorem IsLaid.children (h : p.IsLaid cs) :
    TokenRun.InOrder p.first (cs.map run) (p.last + 1) :=
  h.inOrder.sublist (TokenRun.sublist_interleave _ _)

/-- The children of a node that is laid out lie within it. -/
theorem IsLaid.within (h : p.IsLaid cs) (hc : c ∈ cs) :
    p.first ≤ c.first ∧ c.first ≤ c.last ∧ c.last ≤ p.last := by
  obtain ⟨hfirst, hrun, hlast⟩ := h.children.of_mem (List.mem_map_of_mem hc)
  exact ⟨hfirst, hrun, Nat.le_of_lt_succ hlast⟩

/-- Of two children of a node that is laid out, one ends before the other one begins. -/
theorem IsLaid.pairwise (h : p.IsLaid cs) :
    cs.Pairwise fun c d => c.last < d.first :=
  List.pairwise_map.1 h.children.pairwise

end Piece

end Mend
