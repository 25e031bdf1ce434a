import Mend.Code.Parser.Expression
import Mend.Proofs.Subtrees

/-!
# The grammar of expressions

Which words of tokens are expressions, and which trees belong to them.  A tree refers to tokens by
their positions, so a derivation says where its word begins.

An operand is a literal, a name, `this` or an expression in parentheses; suffixes bind tightest,
then operators before an operand, and then come the ten levels of binary operators, each of which
groups from the left.  A choice or an assignment has an expression of these levels on its left and
any expression on its right.  A name that begins with a tilde is no operand, since a tilde there is
an operator.

## Main definitions

* `Phrase.Name` — the words that are names.
* `Phrase.Derives` — the words of every category of the grammar, with a rule for each production.
* `TokenKind.continuesLevel`, `TokenKind.continuesExpression` — the tokens that an expression could
  go on with.
* `Piece.level`, `Piece.GroupsByLevel` — how tightly an operand binds, and operators whose operands
  bind tightly enough.

## Main results

* `Phrase.Derives.groupsByLevel` — in the tree of an expression every operator has operands that
  bind tightly enough.
-/

namespace Mend

namespace TokenKind

/-- An operator before an operand. -/
def isUnaryOperator (k : TokenKind) : Bool :=
  [exclaim, minus, plus, tilde, star, amp, plusPlus, minusMinus].contains k

/-- The first token of what may come after an operand: of arguments, the access to a member or to
an item, and a step up or down. -/
def startsSuffix (k : TokenKind) : Bool :=
  [lParen, dot, arrow, lBracket, plusPlus, minusMinus].contains k

/-- A token that goes on with the operand before it, or joins it to another one at the level `p`
or a tighter one. -/
def continuesLevel (p : Nat) (k : TokenKind) : Bool :=
  k == colonColon || k.startsSuffix || k.precedence?.any (p ≤ ·)

/-- A token that could go on with the expression before it. -/
def continuesExpression (k : TokenKind) : Bool :=
  k == colonColon || k.startsSuffix || k.precedence?.isSome || k == question || k.isAssignment

variable {k : TokenKind} {p q : Nat}

/-- There are ten levels. -/
theorem precedence?_bounds (h : k.precedence? = some p) : 1 ≤ p ∧ p ≤ 10 := by
  have hall : k.precedence?.all (fun p => decide (1 ≤ p ∧ p ≤ 10)) = true := by
    cases k <;> rfl
  simpa [h] using hall

/-- A binary operator is nothing else that could go on with an operand. -/
theorem continuesLevel_of_precedence? (h : k.precedence? = some p) :
    k.continuesLevel q = decide (q ≤ p) := by
  have hother : k.precedence?.isSome → (k == colonColon || k.startsSuffix) = false := by
    cases k <;> decide
  rw [continuesLevel, hother (by simp [h]), h]
  rfl

/-- What goes on with an operand at a level does so at every looser one. -/
theorem continuesLevel_mono (hpq : p ≤ q) (h : k.continuesLevel p = false) :
    k.continuesLevel q = false := by
  simp only [continuesLevel, Bool.or_eq_false_iff] at h ⊢
  refine ⟨h.1, ?_⟩
  have hp := h.2
  cases hk : k.precedence? with
  | none => rfl
  | some r =>
    simp only [hk, Option.any_some, decide_eq_false_iff_not] at hp ⊢
    omega

theorem continuesLevel_of_continuesExpression (h : k.continuesExpression = false) :
    k.continuesLevel p = false := by
  simp only [continuesExpression, continuesLevel, Bool.or_eq_false_iff] at h ⊢
  obtain ⟨⟨⟨hstart, hlevel⟩, -⟩, -⟩ := h
  exact ⟨hstart, by simp [Option.isSome_eq_false_iff.1 hlevel |> Option.isNone_iff_eq_none.1]⟩

end TokenKind

/-- The tree of a node over the tokens of a word that begins at a position. -/
def PieceTree.spanning (kind : NodeKind) (i : Nat) (w : List TokenKind)
    (children : List PieceTree) : PieceTree :=
  .node ⟨kind, i, i + w.length - 1⟩ children

@[simp] theorem PieceTree.label_spanning {kind : NodeKind} {i : Nat} {w : List TokenKind}
    {cs : List PieceTree} : (spanning kind i w cs).label = ⟨kind, i, i + w.length - 1⟩ := rfl

namespace Phrase

/-! ### Names -/

/-- Qualifiers, with two colons after each. -/
inductive Qualifiers : Nat → List TokenKind → List Nat → Prop
  /-- No qualifier. -/
  | nil (i : Nat) : Qualifiers i [] []
  /-- A qualifier before others. -/
  | cons {i : Nat} {w : List TokenKind} {qs : List Nat} (rest : Qualifiers (i + 2) w qs) :
    Qualifiers i (.identifier :: .colonColon :: w) (i :: qs)

/-- A name without qualifiers. -/
inductive UnqualifiedName : Nat → List TokenKind → PieceTree → Prop
  /-- A name of one word. -/
  | simple (i : Nat) :
    UnqualifiedName i [.identifier] (.spanning (.simpleName i) i [.identifier] [])
  /-- The name of a destructor. -/
  | destructor (i : Nat) :
    UnqualifiedName i [.tilde, .identifier]
      (.spanning (.destructorName i (i + 1)) i [.tilde, .identifier] [])

/-- A name. -/
inductive Name : Nat → List TokenKind → PieceTree → Prop
  /-- A name without qualifiers. -/
  | bare {i : Nat} {w : List TokenKind} {e : PieceTree} (name : UnqualifiedName i w e) : Name i w e
  /-- A name after qualifiers. -/
  | qualified {i : Nat} {v w : List TokenKind} {qs : List Nat} {e : PieceTree} (hne : qs ≠ [])
    (qualifiers : Qualifiers i v qs) (name : UnqualifiedName (i + v.length) w e) :
    Name i (v ++ w) (.spanning (.qualifiedName qs) i (v ++ w) [e])
  /-- A name after two colons, with or without qualifiers. -/
  | global {i : Nat} {v w : List TokenKind} {qs : List Nat} {e : PieceTree}
    (qualifiers : Qualifiers (i + 1) v qs) (name : UnqualifiedName (i + 1 + v.length) w e) :
    Name i (.colonColon :: v ++ w) (.spanning (.qualifiedName qs) i (.colonColon :: v ++ w) [e])

/-! ### Expressions -/

/-- The categories of the grammar. -/
inductive Category
  /-- Expressions. -/
  | assignment
  /-- Operands joined by binary operators of a level or of tighter ones. -/
  | binary (level : Nat)
  /-- Operands with the operators before them. -/
  | unary
  /-- Operands with their suffixes. -/
  | suffixed
  /-- Operands alone. -/
  | primary
  /-- The arguments of a call. -/
  | arguments
  /-- Further arguments, with a comma before each. -/
  | furtherArguments
  deriving DecidableEq, Repr

open PieceTree (spanning)

/-- The words of a category that begin at a position, with their trees: several for arguments, and
one for everything else. -/
inductive Derives : Category → Nat → List TokenKind → List PieceTree → Prop
  /-- An expression without choice or assignment. -/
  | value {i : Nat} {w : List TokenKind} {e : PieceTree} (operand : Derives (.binary 1) i w [e]) :
    Derives .assignment i w [e]
  /-- A choice between two values. -/
  | conditional {i : Nat} {w v u : List TokenKind} {c l r : PieceTree}
    (condition : Derives (.binary 1) i w [c])
    (left : Derives .assignment (i + w.length + 1) v [l])
    (right : Derives .assignment (i + w.length + 1 + v.length + 1) u [r]) :
    Derives .assignment i (w ++ .question :: (v ++ .colon :: u))
      [spanning (.conditional (i + w.length) (i + w.length + 1 + v.length)) i
        (w ++ .question :: (v ++ .colon :: u)) [c, l, r]]
  /-- An assignment. -/
  | assign {i : Nat} {w v : List TokenKind} {op : TokenKind} {l r : PieceTree}
    (operator : op.isAssignment = true) (left : Derives (.binary 1) i w [l])
    (right : Derives .assignment (i + w.length + 1) v [r]) :
    Derives .assignment i (w ++ op :: v)
      [spanning (.binary (i + w.length)) i (w ++ op :: v) [l, r]]
  /-- An operand without binary operators. -/
  | operand {i : Nat} {w : List TokenKind} {e : PieceTree} (operand : Derives .unary i w [e]) :
    Derives (.binary 11) i w [e]
  /-- What is joined at tighter levels only. -/
  | tighter {p i : Nat} {w : List TokenKind} {e : PieceTree} (hp : p ≤ 10)
    (operand : Derives (.binary (p + 1)) i w [e]) :
    Derives (.binary p) i w [e]
  /-- Two operands around an operator.  The right one is joined at tighter levels. -/
  | join {p i : Nat} {w v : List TokenKind} {op : TokenKind} {l r : PieceTree}
    (operator : op.precedence? = some p) (left : Derives (.binary p) i w [l])
    (right : Derives (.binary (p + 1)) (i + w.length + 1) v [r]) :
    Derives (.binary p) i (w ++ op :: v)
      [spanning (.binary (i + w.length)) i (w ++ op :: v) [l, r]]
  /-- An operand without operators before it. -/
  | bare {i : Nat} {w : List TokenKind} {e : PieceTree} (operand : Derives .suffixed i w [e]) :
    Derives .unary i w [e]
  /-- An operand after an operator. -/
  | unary {i : Nat} {w : List TokenKind} {op : TokenKind} {e : PieceTree}
    (operator : op.isUnaryOperator = true) (operand : Derives .unary (i + 1) w [e]) :
    Derives .unary i (op :: w) [spanning (.unary i) i (op :: w) [e]]
  /-- An operand without suffixes. -/
  | alone {i : Nat} {w : List TokenKind} {e : PieceTree} (operand : Derives .primary i w [e]) :
    Derives .suffixed i w [e]
  /-- A call. -/
  | call {i : Nat} {w v : List TokenKind} {e : PieceTree} {es : List PieceTree}
    (callee : Derives .suffixed i w [e])
    (arguments : Derives .arguments (i + w.length + 1) v es) :
    Derives .suffixed i (w ++ .lParen :: (v ++ [.rParen]))
      [spanning (.call (i + w.length) (i + w.length + 1 + v.length)) i
        (w ++ .lParen :: (v ++ [.rParen])) (e :: es)]
  /-- The access to an item of an array. -/
  | item {i : Nat} {w v : List TokenKind} {e x : PieceTree} (array : Derives .suffixed i w [e])
    (index : Derives .assignment (i + w.length + 1) v [x]) :
    Derives .suffixed i (w ++ .lBracket :: (v ++ [.rBracket]))
      [spanning (.arrayAccess (i + w.length) (i + w.length + 1 + v.length)) i
        (w ++ .lBracket :: (v ++ [.rBracket])) [e, x]]
  /-- The access to a member. -/
  | member {i : Nat} {w v : List TokenKind} {op : TokenKind} {e m : PieceTree}
    (operator : op = .dot ∨ op = .arrow) (object : Derives .suffixed i w [e])
    (name : Name (i + w.length + 1) v m) :
    Derives .suffixed i (w ++ op :: v)
      [spanning (.memberAccess (i + w.length)) i (w ++ op :: v) [e, m]]
  /-- A step up or down after its operand. -/
  | step {i : Nat} {w : List TokenKind} {op : TokenKind} {e : PieceTree}
    (operator : op = .plusPlus ∨ op = .minusMinus) (operand : Derives .suffixed i w [e]) :
    Derives .suffixed i (w ++ [op])
      [spanning (.postfixed (i + w.length)) i (w ++ [op]) [e]]
  /-- A number or a character. -/
  | number (i : Nat) {k : TokenKind} (kind : k = .numericLiteral ∨ k = .charLiteral) :
    Derives .primary i [k] [spanning (.numericLiteral i) i [k] []]
  /-- A string. -/
  | string (i : Nat) :
    Derives .primary i [.stringLiteral]
      [spanning (.stringLiteral none i) i [.stringLiteral] []]
  /-- A string with the sign of Objective-C. -/
  | signedString (i : Nat) :
    Derives .primary i [.atSign, .stringLiteral]
      [spanning (.stringLiteral (some i) (i + 1)) i [.atSign, .stringLiteral] []]
  /-- A truth value. -/
  | bool (i : Nat) {k : TokenKind} (kind : k = .kwTrue ∨ k = .kwFalse) :
    Derives .primary i [k] [spanning (.boolLiteral i) i [k] []]
  /-- The object of a member function. -/
  | this (i : Nat) : Derives .primary i [.kwThis] [spanning (.this i) i [.kwThis] []]
  /-- An expression in parentheses. -/
  | nested {i : Nat} {w : List TokenKind} {e : PieceTree}
    (inner : Derives .assignment (i + 1) w [e]) :
    Derives .primary i (.lParen :: (w ++ [.rParen]))
      [spanning (.nested i (i + 1 + w.length)) i (.lParen :: (w ++ [.rParen])) [e]]
  /-- A name. -/
  | name {i : Nat} {w : List TokenKind} {e : PieceTree} (hhead : w.head? ≠ some .tilde)
    (name : Name i w e) : Derives .primary i w [e]
  /-- No arguments. -/
  | noArguments (i : Nat) : Derives .arguments i [] []
  /-- One argument or several. -/
  | someArguments {i : Nat} {w v : List TokenKind} {e : PieceTree} {es : List PieceTree}
    (first : Derives .assignment i w [e]) (more : Derives .furtherArguments (i + w.length) v es) :
    Derives .arguments i (w ++ v) (e :: es)
  /-- No further arguments. -/
  | noMore (i : Nat) : Derives .furtherArguments i [] []
  /-- A further argument, and then others. -/
  | more {i : Nat} {w v : List TokenKind} {e : PieceTree} {es : List PieceTree}
    (next : Derives .assignment (i + 1) w [e])
    (more : Derives .furtherArguments (i + 1 + w.length) v es) :
    Derives .furtherArguments i (.comma :: (w ++ v)) (e :: es)

/-! ### Words and trees -/

variable {c : Category} {i p : Nat} {w : List TokenKind} {e : PieceTree} {es : List PieceTree}

theorem UnqualifiedName.first_eq (h : UnqualifiedName i w e) : e.label.first = i := by
  cases h <;> rfl

theorem Name.first_eq (h : Name i w e) : e.label.first = i := by
  cases h with
  | bare name => exact name.first_eq
  | qualified | global => rfl

/-- A name without qualifiers begins with a word or with a tilde. -/
theorem UnqualifiedName.exists_head_eq (h : UnqualifiedName i w e) :
    ∃ k v, w = k :: v ∧ (k = .identifier ∨ k = .tilde) := by
  cases h with
  | simple => exact ⟨_, _, rfl, .inl rfl⟩
  | destructor => exact ⟨_, _, rfl, .inr rfl⟩

/-- A name begins with a word, with a tilde or with two colons. -/
theorem Name.exists_head_eq (h : Name i w e) :
    ∃ k v, w = k :: v ∧ (k = .identifier ∨ k = .tilde ∨ k = .colonColon) := by
  cases h with
  | bare name =>
    obtain ⟨k, v, rfl, hk⟩ := name.exists_head_eq
    exact ⟨k, v, rfl, hk.imp_right .inl⟩
  | qualified hne hqualifiers =>
    cases hqualifiers with
    | nil => exact absurd rfl hne
    | cons => exact ⟨_, _, rfl, .inl rfl⟩
  | global => exact ⟨_, _, rfl, .inr (.inr rfl)⟩

namespace Derives

/-- What is joined at tight levels only belongs to every looser one. -/
theorem looser {p q : Nat} (h : Derives (.binary q) i w [e]) (hpq : p ≤ q ∧ q ≤ 11) :
    Derives (.binary p) i w [e] := by
  obtain ⟨hpq, hq⟩ := hpq
  induction hpq with
  | refl => exact h
  | step _ ih => exact ih (.tighter (Nat.le_of_succ_le_succ hq) h) (Nat.le_of_succ_le hq)

/-- A tree begins where its word does. -/
theorem head_first_eq (h : Derives c i w es) (hc : c ≠ .furtherArguments) :
    ∀ e ∈ es.head?, e.label.first = i := by
  induction h with
  | value _ ih | operand _ ih | tighter _ _ ih | bare _ ih | alone _ ih => exact ih (by simp)
  | someArguments _ _ ih =>
    intro e he
    exact ih (by simp) e he
  | name _ hname => simpa using hname.first_eq
  | noArguments => simp
  | noMore | more => exact absurd rfl hc
  | _ => simp

theorem first_eq (h : Derives c i w [e]) (hc : c ≠ .furtherArguments) : e.label.first = i :=
  h.head_first_eq hc e rfl

/-- An expression begins with a token, which closes no parenthesis; an operand begins with no
operator. -/
theorem exists_head_eq (h : Derives c i w es) (hc : c ≠ .arguments) (hc' : c ≠ .furtherArguments) :
    ∃ k v, w = k :: v ∧ k ≠ .rParen ∧
      (c = .suffixed ∨ c = .primary → k.isUnaryOperator = false) := by
  induction h with
  | value _ ih | operand _ ih | tighter _ _ ih | bare _ ih =>
    obtain ⟨k, v, rfl, hk, -⟩ := ih (by simp) (by simp)
    exact ⟨k, v, rfl, hk, by simp⟩
  | conditional _ _ _ ih | assign _ _ _ ih | join _ _ _ ih =>
    obtain ⟨k, v, rfl, hk, -⟩ := ih (by simp) (by simp)
    exact ⟨k, _, rfl, hk, by simp⟩
  | alone _ ih | call _ _ ih | item _ _ ih | member _ _ _ ih | step _ _ ih =>
    obtain ⟨k, v, rfl, hk, hoperator⟩ := ih (by simp) (by simp)
    exact ⟨k, _, rfl, hk, fun _ => hoperator (by simp)⟩
  | unary hoperator =>
    refine ⟨_, _, rfl, ?_, by simp⟩
    rintro rfl
    simp [TokenKind.isUnaryOperator] at hoperator
  | number _ hk | bool _ hk =>
    rcases hk with rfl | rfl <;> exact ⟨_, [], rfl, by simp, fun _ => rfl⟩
  | name hhead hname =>
    obtain ⟨k, v, rfl, hk⟩ := hname.exists_head_eq
    have hne : k ≠ .tilde := fun h => hhead (congrArg some h)
    rcases hk with rfl | rfl | rfl
    · exact ⟨_, _, rfl, by simp, fun _ => rfl⟩
    · exact absurd rfl hne
    · exact ⟨_, _, rfl, by simp, fun _ => rfl⟩
  | string | signedString | this | nested => exact ⟨_, _, rfl, by simp, fun _ => rfl⟩
  | noArguments | someArguments => exact absurd rfl hc
  | noMore | more => exact absurd rfl hc'

end Derives

end Phrase

/-! ### Levels -/

/-- The tokens of a word are found from a position on. -/
def TokenKind.FoundAt (f : Nat → Option TokenKind) (i : Nat) (w : List TokenKind) : Prop :=
  ∀ j, j < w.length → f (i + j) = w[j]?

namespace TokenKind

variable {f : Nat → Option TokenKind} {i : Nat} {k : TokenKind} {v w : List TokenKind}

theorem FoundAt.head (h : FoundAt f i (k :: w)) : f i = some k := by
  simpa using h 0 (by simp)

theorem FoundAt.left (h : FoundAt f i (v ++ w)) : FoundAt f i v := by
  intro j hj
  rw [h j (by simp only [List.length_append]; omega), List.getElem?_append_left hj]

theorem FoundAt.right (h : FoundAt f i (v ++ w)) : FoundAt f (i + v.length) w := by
  intro j hj
  have hv := h (v.length + j) (by simp only [List.length_append]; omega)
  rw [List.getElem?_append_right (by omega), Nat.add_sub_cancel_left] at hv
  rw [← hv, Nat.add_assoc]

theorem FoundAt.tail (h : FoundAt f i (k :: w)) : FoundAt f (i + 1) w := h.right (v := [k])

end TokenKind

namespace Piece

/-- How tightly the parts of a node are bound: a binary operator binds at its level, choices and
assignments bind loosest, and what needs no parentheses binds tightest. -/
def level (f : Nat → Option TokenKind) (x : Piece) : Nat :=
  match x.kind with
  | .binary operator => ((f operator).bind TokenKind.precedence?).getD 0
  | .conditional _ _ => 0
  | _ => 11

/-- The left operand of a binary operator binds at least as tightly as the operator, and the right
one binds more tightly. -/
def GroupsByLevel (f : Nat → Option TokenKind) (x : Piece) (cs : List Piece) : Prop :=
  ∀ operator p, x.kind = .binary operator → (f operator).bind TokenKind.precedence? = some p →
    ∃ left right, cs = [left, right] ∧ p ≤ left.level f ∧ p < right.level f

end Piece

namespace Phrase

variable {f : Nat → Option TokenKind}

/-- How tightly the trees of a category are bound. -/
def Category.Binds (f : Nat → Option TokenKind) : Category → PieceTree → Prop
  | .binary p, e => p ≤ e.label.level f
  | .unary, e | .suffixed, e | .primary, e => e.label.level f = 11
  | _, _ => True

theorem spanning_groupsByLevel {kind : NodeKind} {i : Nat} {w : List TokenKind}
    {cs : List PieceTree} (hkind : kind.isBinary = false)
    (hcs : ∀ c ∈ cs, c.All (Piece.GroupsByLevel f)) :
    (PieceTree.spanning kind i w cs).All (Piece.GroupsByLevel f) := by
  refine Rose.all_node.2 ⟨fun operator p hbinary => ?_, hcs⟩
  simp only at hbinary
  simp [hbinary, NodeKind.isBinary] at hkind

theorem Name.groupsByLevel {i : Nat} {w : List TokenKind} {e : PieceTree} (h : Name i w e) :
    e.All (Piece.GroupsByLevel f) ∧ e.label.level f = 11 := by
  have hunqualified : ∀ {i w e}, UnqualifiedName i w e →
      e.All (Piece.GroupsByLevel f) ∧ e.label.level f = 11 := by
    intro i w e h
    cases h <;> exact ⟨spanning_groupsByLevel rfl (by simp), rfl⟩
  cases h with
  | bare name => exact hunqualified name
  | qualified _ _ name | global _ name =>
    exact ⟨spanning_groupsByLevel rfl (by simp [(hunqualified name).1]), rfl⟩

/-- The operands of a binary operator are joined as its level says. -/
theorem binary_groupsByLevel {i operator : Nat} {w : List TokenKind} {l r : PieceTree}
    (hl : l.All (Piece.GroupsByLevel f)) (hr : r.All (Piece.GroupsByLevel f))
    (hlevel : ∀ p, (f operator).bind TokenKind.precedence? = some p →
      p ≤ l.label.level f ∧ p < r.label.level f) :
    (PieceTree.spanning (.binary operator) i w [l, r]).All (Piece.GroupsByLevel f) := by
  refine Rose.all_node.2 ⟨?_, by simp [hl, hr]⟩
  rintro operator' p hbinary hp
  cases hbinary
  exact ⟨_, _, rfl, hlevel p hp⟩

theorem precedence?_of_isAssignment {k : TokenKind} (h : k.isAssignment = true) :
    k.precedence? = none := by
  cases k <;> first | rfl | exact absurd h (by decide)

/-- **Operators group by their levels** in the trees of the grammar, and each tree binds as tightly
as its category says. -/
theorem Derives.groupsByLevel {c : Category} {i : Nat} {w : List TokenKind} {es : List PieceTree}
    (h : Derives c i w es) (hf : TokenKind.FoundAt f i w) :
    ∀ e ∈ es, e.All (Piece.GroupsByLevel f) ∧ c.Binds f e := by
  induction h with
  | value _ ih =>
    intro e he
    exact ⟨(ih hf e he).1, trivial⟩
  | conditional _ _ _ ihc ihl ihr =>
    have hc := ihc hf.left _ (.head _)
    have hl := ihl hf.right.tail.left _ (.head _)
    have hr := ihr hf.right.tail.right.tail _ (.head _)
    simpa [Category.Binds] using spanning_groupsByLevel rfl (by simp [hc.1, hl.1, hr.1])
  | assign hop _ _ ihl ihr =>
    have hl := ihl hf.left _ (.head _)
    have hr := ihr hf.right.tail _ (.head _)
    have hat := hf.right.head
    simpa [Category.Binds] using binary_groupsByLevel hl.1 hr.1
      fun p hp => by simp [hat, precedence?_of_isAssignment hop] at hp
  | operand _ ih =>
    intro e he
    obtain ⟨hall, hlevel⟩ := ih hf e he
    exact ⟨hall, Nat.le_of_eq hlevel.symm⟩
  | tighter _ _ ih =>
    intro e he
    obtain ⟨hall, hlevel⟩ := ih hf e he
    exact ⟨hall, Nat.le_of_succ_le hlevel⟩
  | @join p i w v op l r hop _ _ ihl ihr =>
    obtain ⟨hl, hleft⟩ := ihl hf.left _ (.head _)
    obtain ⟨hr, hright⟩ := ihr hf.right.tail _ (.head _)
    have hlevel : (f (i + w.length)).bind TokenKind.precedence? = some p := by
      simp [hf.right.head, hop]
    intro e he
    obtain rfl := List.mem_singleton.1 he
    refine ⟨binary_groupsByLevel hl hr fun q hq => ?_, ?_⟩
    · obtain rfl := Option.some.inj (hlevel.symm.trans hq)
      exact ⟨hleft, hright⟩
    · simp [Category.Binds, Piece.level, hlevel]
  | bare _ ih | alone _ ih => exact ih hf
  | unary _ _ ih =>
    have he := ih hf.tail _ (.head _)
    simpa [Category.Binds, Piece.level] using spanning_groupsByLevel rfl (by simp [he.1])
  | call _ _ ih ihs =>
    have he := ih hf.left _ (.head _)
    have hes := ihs hf.right.tail.left
    simpa [Category.Binds, Piece.level] using
      spanning_groupsByLevel rfl (List.forall_mem_cons.2 ⟨he.1, fun x hx => (hes x hx).1⟩)
  | item _ _ ihe ihx =>
    have he := ihe hf.left _ (.head _)
    have hx := ihx hf.right.tail.left _ (.head _)
    simpa [Category.Binds, Piece.level] using spanning_groupsByLevel rfl (by simp [he.1, hx.1])
  | member _ _ hname ih =>
    have he := ih hf.left _ (.head _)
    simpa [Category.Binds, Piece.level] using
      spanning_groupsByLevel rfl (by simp [he.1, hname.groupsByLevel.1])
  | step _ _ ih =>
    have he := ih hf.left _ (.head _)
    simpa [Category.Binds, Piece.level] using spanning_groupsByLevel rfl (by simp [he.1])
  | number | string | signedString | bool | this =>
    simpa [Category.Binds, Piece.level] using spanning_groupsByLevel rfl (by simp)
  | nested _ ih =>
    have he := ih hf.tail.left _ (.head _)
    simpa [Category.Binds, Piece.level] using spanning_groupsByLevel rfl (by simp [he.1])
  | name _ hname =>
    simpa [Category.Binds] using hname.groupsByLevel
  | noArguments | noMore => simp
  | someArguments _ _ ihe ihs =>
    have he := ihe hf.left _ (.head _)
    have hes := ihs hf.right
    exact List.forall_mem_cons.2 ⟨⟨he.1, trivial⟩, fun x hx => ⟨(hes x hx).1, trivial⟩⟩
  | more _ _ ihe ihs =>
    have he := ihe hf.tail.left _ (.head _)
    have hes := ihs hf.tail.right
    exact List.forall_mem_cons.2 ⟨⟨he.1, trivial⟩, fun x hx => ⟨(hes x hx).1, trivial⟩⟩

end Phrase
end Mend
