import Mend.Proofs.IfStatements

/-!
# Two runs side by side

What a parser does depends on the tokens it takes and on those it looks at ahead.  Here two runs of
the parsers are followed side by side: one on the tokens of a text, the other on the tokens of a
text that was made from it.  As long as the tokens look alike, both runs take the same steps, and
they read the same trees up to the positions of the tokens.

A run comes *before* the place where the texts differ, and *after* it when it has read what differs
as a whole; there one `if` statement may stand for another one, or an expression for one with a
binary operator.  A run that takes a token of what differs in any other way is *lost*, and nothing
more is said about the second run.

## Main definitions

* `LookAlike` — tokens that look alike as far as anyone looks ahead.
* `NodeKind.moved`, `Movable` — what has been read, with its tokens at other positions.
* `Twin` — how the states of two runs belong together.
* `Twin.Matches` — a parser that does in one run what another one does in the other run.

## Main results

* `Twin.Matches.bind`, `Twin.Matches.items`, `Twin.Matches.rounds`, … — one rule for each way in
  which parsers are put together.
-/

namespace Mend

/-! ### Looking ahead -/

/-- A token at which every look ahead ends.  Names, the signs between the words of a name, pointer
and reference signs and the sign of Objective-C are looked past. -/
def TokenKind.endsLook (k : TokenKind) : Bool :=
  !([.identifier, .colonColon, .star, .amp, .ampAmp, .kwConst, .atSign] : List TokenKind).contains k

/-- A token at which a look ahead ends is none that is looked past. -/
theorem TokenKind.ne_of_endsLook {k l : TokenKind} (h : k.endsLook = true)
    (h' : l.endsLook = false) : k ≠ l := by
  rintro rfl
  simp [h] at h'

/-- Two tokens of one kind that are spelled alike. -/
def Token.Same (t t' : Token) : Prop := t'.kind = t.kind ∧ t'.spelling = t.spelling

theorem map_kind_of_same {ts us : List Token} (h : List.Forall₂ Token.Same ts us) :
    us.map (·.kind) = ts.map (·.kind) := by
  induction h with
  | nil => rfl
  | cons hsame _ ih => rw [List.map_cons, List.map_cons, hsame.1, ih]

/-- Tokens that look alike: they are the same up to one at which every look ahead ends. -/
inductive LookAlike : List Token → List Token → Prop
  /-- There are no tokens. -/
  | nil : LookAlike [] []
  /-- No one looks further. -/
  | stop {t t' : Token} (ts ts' : List Token) (same : t.Same t') (ends : t.kind.endsLook = true) :
    LookAlike (t :: ts) (t' :: ts')
  /-- A token, and then others. -/
  | cons {t t' : Token} {ts ts' : List Token} (same : t.Same t') (rest : LookAlike ts ts') :
    LookAlike (t :: ts) (t' :: ts')

namespace LookAlike

variable {ts ts' us us' : List Token} {t t' : Token}

theorem of_forall₂ (h : List.Forall₂ Token.Same ts ts') : LookAlike ts ts' := by
  induction h with
  | nil => exact .nil
  | cons hsame _ ih => exact .cons hsame ih

/-- The same tokens, and then tokens that look alike. -/
protected theorem append (h : List.Forall₂ Token.Same ts ts') (h' : LookAlike us us') :
    LookAlike (ts ++ us) (ts' ++ us') := by
  induction h with
  | nil => exact h'
  | cons hsame _ ih => exact .cons hsame ih

/-- The same tokens look alike whatever comes after them, when a look ahead ends at one of them. -/
theorem append_of_mem (h : List.Forall₂ Token.Same ts ts') (ht : t ∈ ts)
    (hends : t.kind.endsLook = true) (us us' : List Token) : LookAlike (ts ++ us) (ts' ++ us') := by
  induction h with
  | nil => cases ht
  | cons hsame _ ih =>
    rcases List.mem_cons.1 ht with rfl | ht
    · exact .stop _ _ hsame hends
    · exact .cons hsame (ih ht)

/-- The next tokens are the same. -/
theorem head? (h : LookAlike ts ts') :
    ts'.head?.map (·.kind) = ts.head?.map (·.kind) ∧
      ts'.head?.map (·.spelling) = ts.head?.map (·.spelling) := by
  cases h with
  | nil => exact ⟨rfl, rfl⟩
  | stop _ _ hsame | cons hsame => simp [hsame.1, hsame.2]

theorem head?_kind (h : LookAlike ts ts') :
    ts'.head?.map (·.kind) = ts.head?.map (·.kind) := h.head?.1

theorem head?_any (h : LookAlike ts ts') (p : TokenKind → Bool) :
    ts'.head?.any (fun t => p t.kind) = ts.head?.any (fun t => p t.kind) := by
  cases h with
  | nil => rfl
  | stop _ _ hsame | cons hsame => simp [hsame.1]

theorem isEmpty (h : LookAlike ts ts') : ts'.isEmpty = ts.isEmpty := by
  cases h <;> rfl

/-- After a token that is looked past, the tokens look alike. -/
theorem tail (h : LookAlike (t :: ts) (t' :: ts')) (ht : t.kind.endsLook = false) :
    LookAlike ts ts' := by
  cases h with
  | stop _ _ _ hends => simp [ht] at hends
  | cons _ rest => exact rest

theorem same (h : LookAlike (t :: ts) (t' :: ts')) : t.Same t' := by
  cases h with
  | stop _ _ hsame | cons hsame => exact hsame

end LookAlike

/-! ### What all looks see -/

namespace TokenStream

variable {s s' : TokenStream}

theorem next?_eq_of_lookAlike (h : LookAlike s.rest s'.rest) : s'.next? = s.next? :=
  h.head?_kind

theorem isAt_eq_of_lookAlike (h : LookAlike s.rest s'.rest) (k : TokenKind) :
    s'.isAt k = s.isAt k := by
  rw [isAt, isAt, next?_eq_of_lookAlike h]

theorem isBefore_eq_of_lookAlike (h : LookAlike s.rest s'.rest) (k : TokenKind) :
    s'.isBefore k = s.isBefore k := by
  rw [isBefore, isBefore, next?_eq_of_lookAlike h]

end TokenStream

namespace Parse

open TokenStream

variable {s s' : TokenStream} {ts ts' : List Token}

theorem isQualifier_eq_of_lookAlike (h : LookAlike s.rest s'.rest) :
    isQualifier s' = isQualifier s := by
  rw [isQualifier, isQualifier]
  generalize s.rest = ts at h
  generalize s'.rest = ts' at h
  -- a token at which no look ahead ends is needed to come to the next one
  cases h with
  | nil => rfl
  | stop _ _ hsame hends =>
    rename_i t t' us us'
    have hname := beq_eq_false_iff_ne.2 (TokenKind.ne_of_endsLook hends (l := .identifier) rfl)
    rcases us with _ | ⟨u, _ | ⟨v, us⟩⟩ <;> rcases us' with _ | ⟨u', _ | ⟨v', us'⟩⟩ <;>
      simp [hsame.1, hname]
  | cons hsame hrest =>
    rename_i t t' us us'
    cases hrest with
    | nil => rfl
    | stop _ _ hsame' hends =>
      rename_i u u' vs vs'
      have hcolon := beq_eq_false_iff_ne.2 (TokenKind.ne_of_endsLook hends (l := .colonColon) rfl)
      cases vs <;> cases vs' <;> simp [hsame'.1, hcolon]
    | cons hsame' hrest =>
      cases hrest with
      | nil => rfl
      | stop _ _ hsame'' | cons hsame'' => simp [hsame.1, hsame'.1, hsame''.1]

theorem isSignedString_eq_of_lookAlike (h : LookAlike s.rest s'.rest) :
    isSignedString s' = isSignedString s := by
  obtain ⟨rest, i, n⟩ := s
  obtain ⟨rest', i', n'⟩ := s'
  cases h with
  | nil => rfl
  | stop _ _ hsame hends =>
    rename_i t t' us us'
    have hat := beq_eq_false_iff_ne.2 (TokenKind.ne_of_endsLook hends (l := .atSign) rfl)
    simp [isSignedString, isAt, next?, hsame.1, hat]
  | cons hsame hrest =>
    simp [isSignedString, isAt, next?, TokenStream.tail, hsame.1, hrest.head?_kind]

theorem isSpelled_eq_of_lookAlike (h : LookAlike s.rest s'.rest) (w : String) :
    isSpelled w s' = isSpelled w s := by
  rw [isSpelled, isSpelled]
  generalize s.rest = ts at h
  generalize s'.rest = ts' at h
  cases h with
  | nil => rfl
  | stop _ _ hsame | cons hsame => simp [hsame.2]

/-- Two colons are looked past. -/
theorem lookAlike_tail_of_isAt (h : LookAlike s.rest s'.rest) (hs : s.isAt .colonColon = true) :
    LookAlike s.rest.tail s'.rest.tail := by
  obtain ⟨rest, i, n⟩ := s
  obtain ⟨rest', i', n'⟩ := s'
  cases h with
  | nil => exact .nil
  | stop _ _ hsame hends =>
    have hcolon := TokenKind.ne_of_endsLook hends (l := .colonColon) rfl
    simp [isAt, next?, hcolon] at hs
  | cons _ hrest => exact hrest

theorem opensDeclarator_eq_of_lookAlike (h : LookAlike ts ts') :
    opensDeclarator ts' = opensDeclarator ts := by
  fun_induction opensDeclarator ts generalizing ts' with
  | case1 t u rest ih =>
    cases h with
    | stop _ us' hsame hends =>
      rename_i t'
      have hname := beq_eq_false_iff_ne.2 (TokenKind.ne_of_endsLook hends (l := .identifier) rfl)
      cases us' <;> simp [opensDeclarator, hsame.1, hname]
    | cons hsame hrest =>
      cases hrest with
      | stop _ _ hsame' hends =>
        have hcolon := TokenKind.ne_of_endsLook hends (l := .colonColon) rfl
        simp [opensDeclarator, hsame.1, hsame'.1, hcolon]
      | cons hsame' hrest =>
        have htilde := hrest.head?_any (· == .tilde)
        simp only [opensDeclarator, hsame.1, hsame'.1, ih hrest, htilde]
  | case2 ts hts =>
    cases h with
    | nil => rfl
    | stop us us' hsame hends =>
      rename_i t t'
      have hname := TokenKind.ne_of_endsLook hends (l := .identifier) rfl
      cases us' <;> simp [opensDeclarator, hsame.1, hname]
    | cons hsame hrest =>
      cases hrest with
      | nil => simp [opensDeclarator]
      | stop | cons => exact absurd rfl (hts _ _ _)

theorem isSpecifierNext_eq_of_lookAlike (h : LookAlike s.rest s'.rest) (typeSeen : Bool) :
    isSpecifierNext typeSeen s' = isSpecifierNext typeSeen s := by
  have hopens : isDeclaratorNext s' = isDeclaratorNext s := by
    rw [isDeclaratorNext, isDeclaratorNext, isAt_eq_of_lookAlike h]
    split
    · exact opensDeclarator_eq_of_lookAlike (lookAlike_tail_of_isAt h ‹_›)
    · exact opensDeclarator_eq_of_lookAlike h
  rw [isSpecifierNext, isSpecifierNext, next?_eq_of_lookAlike h, hopens]

theorem dropQualifiers_lookAlike (h : LookAlike ts ts') :
    LookAlike (dropQualifiers ts) (dropQualifiers ts') := by
  fun_induction dropQualifiers ts generalizing ts' with
  | case1 t u rest hqualifier ih =>
    obtain ⟨hname, hcolon⟩ := hqualifier
    cases h with
    | stop _ _ _ hends => simp [hname, TokenKind.endsLook] at hends
    | cons hsame hrest =>
      cases hrest with
      | stop _ _ _ hends => simp [hcolon, TokenKind.endsLook] at hends
      | cons hsame' hrest =>
        rw [dropQualifiers, if_pos ⟨hsame.1 ▸ hname, hsame'.1 ▸ hcolon⟩]
        exact ih hrest
  | case2 t u rest hqualifier =>
    cases h with
    | stop _ us' hsame hends =>
      cases us' with
      | nil => exact .stop _ _ hsame hends
      | cons u' us' =>
        rw [dropQualifiers, if_neg]
        · exact .stop _ _ hsame hends
        · rintro ⟨hname, -⟩
          rw [hsame.1] at hname
          simp [hname, TokenKind.endsLook] at hends
    | cons hsame hrest =>
      cases hrest with
      | stop _ _ hsame' hends =>
        rw [dropQualifiers, if_neg (by rwa [hsame.1, hsame'.1])]
        exact .cons hsame (.stop _ _ hsame' hends)
      | cons hsame' hrest =>
        rw [dropQualifiers, if_neg (by rwa [hsame.1, hsame'.1])]
        exact .cons hsame (.cons hsame' hrest)
  | case3 ts hts =>
    cases h with
    | nil => exact .nil
    | stop us us' hsame hends =>
      cases us' with
      | nil => exact .stop _ _ hsame hends
      | cons u' us' =>
        rw [dropQualifiers, if_neg]
        · exact .stop _ _ hsame hends
        · rintro ⟨hname, -⟩
          rw [hsame.1] at hname
          simp [hname, TokenKind.endsLook] at hends
    | cons hsame hrest =>
      cases hrest with
      | nil => exact .cons hsame .nil
      | stop | cons => exact absurd rfl (hts _ _ _)

/-- Pointer and reference signs are looked past. -/
theorem dropWhile_isPointerToken_lookAlike (h : LookAlike ts ts') :
    LookAlike (ts.dropWhile isPointerToken) (ts'.dropWhile isPointerToken) := by
  induction h with
  | nil => exact .nil
  | stop us us' hsame hends =>
    rename_i t t'
    have hpointer : isPointerToken t = false := by
      revert hends
      simp only [TokenKind.endsLook, isPointerToken]
      cases t.kind <;> decide
    have hpointer' : isPointerToken t' = false := by
      rw [isPointerToken, hsame.1]
      exact hpointer
    rw [List.dropWhile_cons_of_neg (by simp [hpointer]),
      List.dropWhile_cons_of_neg (by simp [hpointer'])]
    exact .stop _ _ hsame hends
  | cons hsame hrest ih =>
    rename_i t t' us us'
    have heq : isPointerToken t' = isPointerToken t := by rw [isPointerToken, hsame.1]; rfl
    by_cases hpointer : isPointerToken t = true
    · rwa [List.dropWhile_cons_of_pos hpointer, List.dropWhile_cons_of_pos (heq.trans hpointer)]
    · rw [List.dropWhile_cons_of_neg hpointer, List.dropWhile_cons_of_neg (by rwa [heq])]
      exact .cons hsame hrest

/-- Two names in a row are found in both, and tokens that look alike come after them. -/
theorem afterTypedName?_lookAlike (h : LookAlike ts ts') :
    Option.Rel LookAlike (afterTypedName? ts) (afterTypedName? ts') := by
  have hdrop := dropQualifiers_lookAlike h
  simp only [afterTypedName?]
  generalize dropQualifiers ts = us at hdrop ⊢
  generalize dropQualifiers ts' = us' at hdrop
  cases hdrop with
  | nil => exact .none
  | stop us us' hsame hends =>
    rename_i t t'
    have hname := TokenKind.ne_of_endsLook hends (l := .identifier) rfl
    simp only [hsame.1, if_neg hname]
    exact .none
  | cons hsame hrest =>
    rename_i t t' us us'
    simp only [hsame.1]
    split
    next hname =>
      have hpointers := dropWhile_isPointerToken_lookAlike hrest
      generalize us.dropWhile isPointerToken = vs at hpointers
      generalize us'.dropWhile isPointerToken = vs' at hpointers
      cases hpointers with
      | nil => exact .none
      | stop vs vs' hsame' hends =>
        rename_i u u'
        have hname := TokenKind.ne_of_endsLook hends (l := .identifier) rfl
        simp only [hsame'.1, if_neg hname]
        exact .none
      | cons hsame' hrest =>
        simp only [hsame'.1]
        split
        · exact .some hrest
        · exact .none
    next => exact .none

theorem isKeywordSpecifierNext_eq_of_lookAlike (h : LookAlike s.rest s'.rest) :
    isKeywordSpecifierNext s' = isKeywordSpecifierNext s := by
  rw [isKeywordSpecifierNext, isKeywordSpecifierNext, next?_eq_of_lookAlike h]

theorem isDeclarationNext_eq_of_lookAlike (h : LookAlike s.rest s'.rest) :
    isDeclarationNext s' = isDeclarationNext s := by
  have hnames : (afterTypedName? s'.rest).isSome = (afterTypedName? s.rest).isSome := by
    have hrel := afterTypedName?_lookAlike h
    generalize afterTypedName? s.rest = o at hrel
    generalize afterTypedName? s'.rest = o' at hrel
    cases hrel <;> rfl
  rw [isDeclarationNext, isDeclarationNext, isKeywordSpecifierNext_eq_of_lookAlike h, hnames]

theorem isConditionDeclarationNext_eq_of_lookAlike (h : LookAlike s.rest s'.rest) :
    isConditionDeclarationNext s' = isConditionDeclarationNext s := by
  have hnames : ((afterTypedName? s'.rest).any fun ts => ts.head?.any (·.kind == .equal)) =
      (afterTypedName? s.rest).any fun ts => ts.head?.any (·.kind == .equal) := by
    have hrel := afterTypedName?_lookAlike h
    generalize afterTypedName? s.rest = o at hrel
    generalize afterTypedName? s'.rest = o' at hrel
    cases hrel with
    | none => rfl
    | some hlook => exact hlook.head?_any (· == .equal)
  rw [isConditionDeclarationNext, isConditionDeclarationNext,
    isKeywordSpecifierNext_eq_of_lookAlike h, hnames]

end Parse

/-! ### What has been read, at other positions -/

/-- A kind of node whose own tokens lie at other positions. -/
def NodeKind.moved (f : Nat → Nat) : NodeKind → NodeKind
  | .file => .file
  | .namespaceBody k n l r => .namespaceBody (f k) (n.map f) (f l) (f r)
  | .simpleDeclaration s => .simpleDeclaration (f s)
  | .functionDefinition => .functionDefinition
  | .simpleSpecifier t => .simpleSpecifier (f t)
  | .namedTypeSpecifier => .namedTypeSpecifier
  | .elaboratedSpecifier k => .elaboratedSpecifier (f k)
  | .classSpecifier k l r => .classSpecifier (f k) (f l) (f r)
  | .accessLabel a s c => .accessLabel (f a) (s.map f) (f c)
  | .macroMember t => .macroMember (f t)
  | .enumSpecifier k l r => .enumSpecifier (f k) (f l) (f r)
  | .enumerator n e => .enumerator (f n) (e.map f)
  | .declarator ps e => .declarator (ps.map f) (e.map f)
  | .declaratorName => .declaratorName
  | .parameterList l r c => .parameterList (f l) (f r) (c.map f)
  | .parameter => .parameter
  | .block l r => .block (f l) (f r)
  | .declarationStatement => .declarationStatement
  | .expressionStatement s => .expressionStatement (f s)
  | .ifStatement k l r e => .ifStatement (f k) (f l) (f r) (e.map f)
  | .whileStatement k l r => .whileStatement (f k) (f l) (f r)
  | .doStatement k w l r s => .doStatement (f k) (f w) (f l) (f r) (f s)
  | .forStatement k l s r c => .forStatement (f k) (f l) (f s) (f r) c
  | .switchStatement k l r => .switchStatement (f k) (f l) (f r)
  | .caseLabel k c => .caseLabel (f k) (f c)
  | .defaultLabel k c => .defaultLabel (f k) (f c)
  | .breakStatement k s => .breakStatement (f k) (f s)
  | .continueStatement k s => .continueStatement (f k) (f s)
  | .returnStatement k s => .returnStatement (f k) (f s)
  | .conditionDeclaration => .conditionDeclaration
  | .binary o => .binary (f o)
  | .conditional q c => .conditional (f q) (f c)
  | .unary o => .unary (f o)
  | .postfixed o => .postfixed (f o)
  | .nested l r => .nested (f l) (f r)
  | .call l r => .call (f l) (f r)
  | .memberAccess a => .memberAccess (f a)
  | .arrayAccess l r => .arrayAccess (f l) (f r)
  | .simpleName t => .simpleName (f t)
  | .destructorName t n => .destructorName (f t) (f n)
  | .qualifiedName qs => .qualifiedName (qs.map f)
  | .numericLiteral t => .numericLiteral (f t)
  | .stringLiteral s t => .stringLiteral (s.map f) (f t)
  | .boolLiteral t => .boolLiteral (f t)
  | .this t => .this (f t)

/-- A tree whose tokens lie at other positions. -/
def PieceTree.moved (f : Nat → Nat) : PieceTree → PieceTree :=
  Rose.fold fun p cs => .node ⟨p.kind.moved f, f p.first, f p.last⟩ (cs.map (·.2))

theorem PieceTree.moved_node (f : Nat → Nat) (p : Piece) (cs : List PieceTree) :
    moved f (.node p cs) = .node ⟨p.kind.moved f, f p.first, f p.last⟩ (cs.map (moved f)) := by
  rw [moved, Rose.fold_node, List.map_map]
  rfl

/-- What parsers read: its positions and trees can be exchanged for others, and it holds trees. -/
class Movable (α : Type) where
  /-- The same with other positions and other trees. -/
  move : (Nat → Nat) → (PieceTree → PieceTree) → α → α
  /-- The trees in it. -/
  trees : α → List PieceTree

namespace Movable

instance : Movable Unit := ⟨fun _ _ x => x, fun _ => []⟩

instance : Movable Bool := ⟨fun _ _ x => x, fun _ => []⟩

instance : Movable Nat := ⟨fun f _ i => f i, fun _ => []⟩

instance : Movable PieceTree := ⟨fun _ g t => g t, fun t => [t]⟩

instance {α : Type} [Movable α] : Movable (Option α) :=
  ⟨fun f g o => o.map (move f g), fun o => o.toList.flatMap trees⟩

instance {α : Type} [Movable α] : Movable (List α) :=
  ⟨fun f g l => l.map (move f g), fun l => l.flatMap trees⟩

instance {α β : Type} [Movable α] [Movable β] : Movable (α × β) :=
  ⟨fun f g p => (move f g p.1, move f g p.2), fun p => trees p.1 ++ trees p.2⟩

section

variable {α β : Type} [Movable α] [Movable β]

@[simp] theorem trees_unit (x : Unit) : trees x = [] := rfl

@[simp] theorem trees_bool (x : Bool) : trees x = [] := rfl

@[simp] theorem trees_nat (x : Nat) : trees x = [] := rfl

@[simp] theorem trees_tree (t : PieceTree) : trees t = [t] := rfl

@[simp] theorem flatMap_trees (ts : List PieceTree) : ts.flatMap trees = ts :=
  List.flatMap_singleton' ts

@[simp] theorem flatMap_trees_nat (l : List Nat) : l.flatMap trees = [] := by
  induction l with
  | nil => rfl
  | cons i l ih => simp [ih]

@[simp] theorem trees_option (o : Option α) : trees o = o.toList.flatMap trees := rfl

@[simp] theorem trees_list (l : List α) : trees l = l.flatMap trees := rfl

@[simp] theorem trees_prod (p : α × β) : trees p = trees p.1 ++ trees p.2 := rfl

end

end Movable

namespace TokenStream

/-- Where a run is taken, fewer tokens are left. -/
theorem Takes.length_lt {s s' : TokenStream} {rs : List TokenRun} (h : s.Takes rs s')
    (hne : rs ≠ []) : s'.rest.length < s.rest.length := by
  have htotal := h.total_eq
  have hlt := h.lt hne
  simp only [total] at htotal
  omega

/-- Where tokens are taken, no more tokens are left. -/
theorem Takes.length_le {s s' : TokenStream} {rs : List TokenRun} (h : s.Takes rs s') :
    s'.rest.length ≤ s.rest.length := by
  have htotal := h.total_eq
  have hle := h.le
  simp only [total] at htotal
  omega

end TokenStream

/-- When a parser succeeds, it has taken a token. -/
def Parse.Shrinks {α : Type} (p : Parse α) (s : TokenStream) : Prop :=
  p.Ensures s fun _ s' => s'.rest.length < s.rest.length

/-- When a parser succeeds, no more tokens are left than before. -/
def Parse.Lessens {α : Type} (p : Parse α) (s : TokenStream) : Prop :=
  p.Ensures s fun _ s' => s'.rest.length ≤ s.rest.length

/-- A token is taken, and then some or none. -/
theorem Parse.advance_bind_shrinks {α : Type} {f : Nat → Parse α} {s : TokenStream}
    (h : s.rest ≠ []) (hf : ∀ i s', (f i).Lessens s') : (Parse.advance >>= f).Shrinks s := by
  refine (advance_ensures h).bind fun i s₁ hi => (hf i s₁).imp fun x s₂ hx => ?_
  exact Nat.lt_of_le_of_lt hx (hi.2.length_lt (by simp))

/-! ### States that belong together -/

/-- Where a run is. -/
inductive Twin.Phase
  /-- Before the place where the texts differ. -/
  | before
  /-- After what differs, which was read as a whole. -/
  | after
  /-- Past that place in some other way. -/
  | lost
  deriving DecidableEq

/-- A node that another one may stand for: an `if` statement, or an expression with a binary
operator. -/
def NodeKind.isExchangeable (k : NodeKind) : Bool := k.isIf || k.isBinary

/-- A node and another one that stands for it. -/
structure Twin.Swap where
  /-- What tells the first one from all other nodes. -/
  isOld : Piece → Bool
  /-- The tree of the first one. -/
  old : PieceTree
  /-- The tree of the other one. -/
  new : PieceTree
  /-- The level of its operator, when it is an expression. -/
  level? : Option Nat
  /-- The first one is a node that another one may stand for. -/
  isExchangeable : ∀ {p}, isOld p = true → p.kind.isExchangeable = true

/-- How the states of two runs belong together, and what stands in one run for what is read in the
other one. -/
structure Twin where
  /-- The positions of tokens in the second run. -/
  mark : Nat → Nat
  /-- The node that another one stands for in the second run, if there is one. -/
  swap : Option Twin.Swap
  /-- Two states belong together.  A state that is lost belongs to every other one. -/
  At : Twin.Phase → TokenStream → TokenStream → Prop
  /-- The tokens that are left look alike. -/
  lookAlike : ∀ {ph s s'}, At ph s s' → ph ≠ .lost → LookAlike s.rest s'.rest
  /-- The next tokens are at positions that belong together. -/
  position_eq : ∀ {ph s s'}, At ph s s' → ph ≠ .lost → s'.position = mark s.position
  /-- So are the tokens taken last. -/
  mark_max : ∀ {ph s s'}, At ph s s' → ph ≠ .lost → ∀ first,
    mark (max first (s.position - 1)) = max (mark first) (s'.position - 1)
  /-- The other node begins where the first one does. -/
  first_new : ∀ {r}, swap = some r → r.new.label.first = mark r.old.label.first
  /-- An operator joins the expression that another one stands for only from where it begins, and it
  is of its level. -/
  operator : ∀ {r}, swap = some r → ∀ {ph s s'}, At ph s s' → ∀ {first last},
    r.isOld ⟨.binary s.position, first, last⟩ = true →
      first = r.old.label.first ∧ s.next?.bind TokenKind.precedence? = r.level? ∧ r.level?.isSome
  /-- Two states still belong together when a token is taken, unless the first one is lost. -/
  tail : ∀ {ph s s'}, At ph s s' → ∃ ph', At ph' s.tail s'.tail ∧ (ph = .after → ph' = .after) ∧
    (ph = .lost → ph' = .lost)

namespace Twin

open Parse Movable

variable (σ : Twin)

/-- Whether a node is the one that another one stands for. -/
def IsSwapped (p : Piece) : Prop := ∃ r, σ.swap = some r ∧ r.isOld p = true

/-- A node in the second run, with the children that it has there. -/
def rewriteNode (p : Piece) (cs : List PieceTree) : PieceTree :=
  match σ.swap.filter fun r => r.isOld p with
  | some r => r.new
  | none => .node ⟨p.kind.moved σ.mark, σ.mark p.first, σ.mark p.last⟩ cs

/-- The tree in the second run. -/
def rewrite : PieceTree → PieceTree := Rose.fold fun p cs => σ.rewriteNode p (cs.map (·.2))

/-- What is read in the second run. -/
def carry {α : Type} [Movable α] (x : α) : α := move σ.mark σ.rewrite x

/-- Trees that have been read: the node that another one stands for is found only after it was read
as a whole, and it has its tree then. -/
def Fits (ph : Phase) (ts : List PieceTree) : Prop :=
  ∀ t ∈ ts, ∀ u ∈ t.subtrees, ∀ r, σ.swap = some r → r.isOld u.label = true →
    ph = .after ∧ u = r.old

/-- What the first run has read, and the state that it has come to, belong to a state that the
second run comes to, unless the first run is lost.  What was read before is kept account of. -/
def Meets {α : Type} [Movable α] (ph : Phase) (ts : List PieceTree) (x : α) (s₁ : TokenStream)
    (comesTo : TokenStream → Prop) : Prop :=
  ∃ ph₁ s₁', σ.At ph₁ s₁ s₁' ∧ σ.Fits ph₁ (ts ++ trees x) ∧ (ph = .after → ph₁ = .after) ∧
    (ph = .lost → ph₁ = .lost) ∧ (ph₁ ≠ .lost → comesTo s₁')

/-- A parser in one run, and what another one does in the other run, from states that belong
together. -/
def MatchesAt {α : Type} [Movable α] (ph : Phase) (s s' : TokenStream) (ts : List PieceTree)
    (p p' : Parse α) : Prop :=
  σ.At ph s s' → σ.Fits ph ts → p.Ensures s fun x s₁ =>
    σ.Meets ph ts x s₁ fun s₁' => p'.Yields s' (σ.carry x) s₁'

/-- A parser does in one run what another one does in the other run. -/
def Matches {α : Type} [Movable α] (ts : List PieceTree) (p p' : Parse α) : Prop :=
  ∀ ph s s', σ.MatchesAt ph s s' ts p p'

variable {σ} {α β : Type} [Movable α] [Movable β] {ph : Phase} {s s' : TokenStream}
  {ts us : List PieceTree} {p p' q q' : Parse α}

/-! ### Trees in the second run -/

/-- A node is rewritten with its children. -/
theorem rewrite_node {l : Piece} {cs : List PieceTree} (h : ¬σ.IsSwapped l) :
    σ.rewrite (.node l cs) =
      .node ⟨l.kind.moved σ.mark, σ.mark l.first, σ.mark l.last⟩ (cs.map σ.rewrite) := by
  have hswap : σ.swap.filter (fun r => r.isOld l) = none := by
    rw [Option.filter_eq_none_iff]
    exact fun r hr hk => h ⟨r, hr, hk⟩
  rw [rewrite, Rose.fold_node, rewriteNode, hswap, List.map_map]
  rfl

/-- When no node is exchanged, the tokens of a tree are at other positions only. -/
theorem rewrite_eq_moved (h : σ.swap = none) : σ.rewrite = PieceTree.moved σ.mark := by
  have hnode : ∀ p cs, σ.rewriteNode p cs =
      .node ⟨p.kind.moved σ.mark, σ.mark p.first, σ.mark p.last⟩ cs := by
    intro p cs
    rw [rewriteNode, h]
    rfl
  simp only [rewrite, PieceTree.moved, hnode]

/-- The node that another one stands for. -/
theorem rewrite_of_isSwapped {t : PieceTree} {r : Swap} (hr : σ.swap = some r)
    (ht : r.isOld t.label = true) : σ.rewrite t = r.new := by
  cases t with
  | node l cs =>
    have hswap : σ.swap.filter (fun r => r.isOld l) = some r := by
      rw [hr, Option.filter_some]
      exact if_pos ht
    rw [rewrite, Rose.fold_node, rewriteNode, hswap]

theorem not_isSwapped {l : Piece} (h : l.kind.isExchangeable = false) : ¬σ.IsSwapped l := by
  rintro ⟨r, -, hl⟩
  simp [r.isExchangeable hl] at h

/-- An operator does not join the expression that another one stands for when it is of another level
or when the operands begin elsewhere. -/
theorem not_isSwapped_binary {first last : Nat} (hat : σ.At ph s s')
    (h : ∀ r level, σ.swap = some r → r.level? = some level →
      s.next?.bind TokenKind.precedence? = some level → first ≠ r.old.label.first) :
    ¬σ.IsSwapped ⟨.binary s.position, first, last⟩ := by
  rintro ⟨r, hr, hold⟩
  obtain ⟨hfirst, hlevel, hsome⟩ := σ.operator hr hat hold
  obtain ⟨level, hr'⟩ := Option.isSome_iff_exists.1 hsome
  exact h r level hr hr' (hlevel.trans hr') hfirst

@[simp] theorem toList_carry (o : Option PieceTree) :
    (σ.carry o).toList = o.toList.map σ.rewrite := by
  cases o <;> rfl

@[simp] theorem carry_tree (t : PieceTree) : σ.carry t = σ.rewrite t := rfl

@[simp] theorem carry_trees (ts : List PieceTree) : σ.carry ts = ts.map σ.rewrite := rfl

namespace Fits

theorem nil : σ.Fits ph [] := by simp [Fits]

protected theorem mono {ph' : Phase} (h : σ.Fits ph ts) (hph : ph = .after → ph' = .after)
    (hus : us ⊆ ts) : σ.Fits ph' us := by
  intro t ht u hu r hr hk
  obtain ⟨hafter, hu⟩ := h t (hus ht) u hu r hr hk
  exact ⟨hph hafter, hu⟩

protected theorem append (h : σ.Fits ph ts) (h' : σ.Fits ph us) : σ.Fits ph (ts ++ us) :=
  fun t ht => (List.mem_append.1 ht).elim (h t) (h' t)

/-- A node fits when its children do. -/
theorem node {l : Piece} {cs : List PieceTree} (h : σ.Fits ph cs) (hl : ¬σ.IsSwapped l) :
    σ.Fits ph [.node l cs] := by
  intro t ht u hu r hr hk
  rw [List.mem_singleton] at ht
  subst ht
  rcases Rose.mem_subtrees_node.1 hu with ⟨c, hc, hu⟩ | rfl
  · exact h c hc u hu r hr hk
  · exact absurd ⟨r, hr, hk⟩ hl

end Fits

/-! ### Rules -/

namespace MatchesAt

/-- One parser, and then another that depends on what the first one has read. -/
protected theorem bind {f f' : α → Parse β} {Q : α → Prop} (hQ : p.Ensures s fun x _ => Q x)
    (h : σ.MatchesAt ph s s' ts p p')
    (hf : ∀ x, Q x → σ.Matches (ts ++ trees x) (f x) (f' (σ.carry x))) :
    σ.MatchesAt ph s s' ts (p >>= f) (p' >>= f') := by
  intro hat hfits
  refine (hQ.and (h hat hfits)).bind fun x s₁ hx => ?_
  obtain ⟨hx, ph₁, s₁', hat₁, hfits₁, hafter₁, hlost₁, hyields₁⟩ := hx
  refine (hf x hx ph₁ s₁ s₁' hat₁ hfits₁).imp fun y s₂ hy => ?_
  obtain ⟨ph₂, s₂', hat₂, hfits₂, hafter₂, hlost₂, hyields₂⟩ := hy
  refine ⟨ph₂, s₂', hat₂, hfits₂.mono id ?_, hafter₂ ∘ hafter₁, hlost₂ ∘ hlost₁, fun hph => ?_⟩
  · rw [List.append_assoc]
    exact List.append_subset.2 ⟨List.subset_append_left _ _,
      List.Subset.trans (List.subset_append_right _ _) (List.subset_append_right _ _)⟩
  · exact (hyields₁ (mt hlost₂ hph)).bind (hyields₂ hph)

/-- Looking at the kind of the next token. -/
protected theorem peek_bind {f f' : Option TokenKind → Parse α}
    (h : σ.MatchesAt ph s s' ts (f s.next?) (f' s.next?)) :
    σ.MatchesAt ph s s' ts (peek >>= f) (peek >>= f') := by
  intro hat hfits
  refine Ensures.get_bind ((h hat hfits).imp fun x s₁ hx => ?_)
  obtain ⟨ph₁, s₁', hat₁, hfits₁, hafter, hlost, hyields⟩ := hx
  refine ⟨ph₁, s₁', hat₁, hfits₁, hafter, hlost, fun hph => .get_bind ?_⟩
  have hsame := TokenStream.next?_eq_of_lookAlike (σ.lookAlike hat (mt hlost hph))
  show (f' s'.next?).Yields s' _ _
  rw [hsame]
  exact hyields hph

/-- A tree that was read begins at positions that belong together. -/
theorem of_first {t : PieceTree} (ht : t ∈ ts)
    (h : (σ.carry t).label.first = σ.mark t.label.first → σ.MatchesAt ph s s' ts p p') :
    σ.MatchesAt ph s s' ts p p' := by
  intro hat hfits
  refine h ?_ hat hfits
  show (σ.rewrite t).label.first = _
  by_cases hswap : σ.IsSwapped t.label
  · obtain ⟨r, hr, hk⟩ := hswap
    obtain ⟨-, rfl⟩ := hfits t ht t (Rose.self_mem_subtrees t) r hr hk
    rw [rewrite_of_isSwapped hr hk, σ.first_new hr]
  · cases t with
    | node l cs =>
      rw [Rose.label_node] at hswap
      rw [rewrite_node hswap]
      rfl

end MatchesAt

namespace Matches

/-- One parser, and then another that depends on what the first one has read. -/
protected theorem bind {f f' : α → Parse β} (h : σ.Matches ts p p')
    (hf : ∀ x, σ.Matches (ts ++ trees x) (f x) (f' (σ.carry x))) :
    σ.Matches ts (p >>= f) (p' >>= f') :=
  fun ph s s' => .bind (Q := fun _ => True) (fun _ _ _ => trivial) (h ph s s') fun x _ => hf x

/-- What has been read is returned. -/
protected theorem pure {x : α} (h : trees x ⊆ ts) :
    σ.Matches ts (pure x) (pure (σ.carry x)) := by
  intro ph s s' hat hfits
  refine .pure ⟨ph, s', hat, hfits.append (hfits.mono id h), id, id, fun _ => .pure _ _⟩

/-- A parser that gives up. -/
protected theorem fail (what : Expectation) {p' : Parse α} : σ.Matches ts (fail what) p' :=
  fun _ _ _ _ _ => fail_ensures what

/-- Less has been read. -/
protected theorem mono (h : σ.Matches us p p') (hus : us ⊆ ts) : σ.Matches ts p p' := by
  intro ph s s' hat hfits
  refine (h ph s s' hat (hfits.mono id hus)).imp fun x s₁ hx => ?_
  obtain ⟨ph₁, s₁', hat₁, hfits₁, hafter, hlost, hyields⟩ := hx
  have hx : σ.Fits ph₁ (trees x) := hfits₁.mono id (List.subset_append_right _ _)
  exact ⟨ph₁, s₁', hat₁, (hfits.mono hafter (List.Subset.refl _)).append hx, hafter, hlost,
    hyields⟩

/-- Looking at the state: both runs see the same tokens ahead.  When the first run is lost, it does
not matter what the other one sees. -/
protected theorem look {f f' : TokenStream → Parse α}
    (h : ∀ s s' : TokenStream, LookAlike s.rest s'.rest → s'.position = σ.mark s.position →
      σ.Matches ts (f s) (f' s')) : σ.Matches ts (get >>= f) (get >>= f') := by
  intro ph s s' hat hfits
  by_cases hph : ph = .lost
  · have hsame : List.Forall₂ Token.Same s.rest s.rest :=
      List.forall₂_same.2 fun t _ => ⟨rfl, rfl⟩
    refine (h s ⟨s.rest, σ.mark s.position, 0⟩ (.of_forall₂ hsame) rfl ph s s' hat hfits).imp
      fun x s₁ hx => ?_
    obtain ⟨ph₁, s₁', hat₁, hfits₁, hafter, hlost, hyields⟩ := hx
    exact ⟨ph₁, s₁', hat₁, hfits₁, hafter, hlost, fun hph₁ => absurd (hlost hph) hph₁⟩
  · exact h s s' (σ.lookAlike hat hph) (σ.position_eq hat hph) ph s s' hat hfits

/-- A choice by a look at the tokens that are left. -/
protected theorem ite {c : TokenStream → Bool}
    (hc : ∀ {s s' : TokenStream}, LookAlike s.rest s'.rest → c s' = c s)
    (h : σ.Matches ts p p') (hq : σ.Matches ts q q') :
    σ.Matches ts (get >>= fun s => if c s then p else q)
      (get >>= fun s => if c s then p' else q') := by
  refine .look fun s s' hlook _ => ?_
  rw [hc hlook]
  split
  · exact h
  · exact hq

/-- A tree that was read begins at positions that belong together. -/
theorem of_first {t : PieceTree} (ht : t ∈ ts)
    (h : (σ.carry t).label.first = σ.mark t.label.first → σ.Matches ts p p') :
    σ.Matches ts p p' :=
  fun ph s s' => .of_first ht fun hfirst => h hfirst ph s s'

/-! ### Single tokens -/

/-- Looking at the kind of the next token. -/
theorem peek_bind {f f' : Option TokenKind → Parse α} (h : ∀ k, σ.Matches ts (f k) (f' k)) :
    σ.Matches ts (peek >>= f) (peek >>= f') :=
  fun ph s s' => .peek_bind (h s.next? ph s s')

theorem advance : σ.Matches ts Parse.advance Parse.advance := by
  intro ph s s' hat hfits
  refine advance_ensures_tail.imp fun i s₁ hi => ?_
  obtain ⟨rfl, rfl⟩ := hi
  obtain ⟨ph₁, hat₁, hafter, hlost⟩ := σ.tail hat
  refine ⟨ph₁, _, hat₁, (hfits.mono hafter (by simp)), hafter, hlost, fun hph => ?_⟩
  have hposition := σ.position_eq hat (mt hlost hph)
  have hyields := advance_yields s'
  rw [hposition] at hyields
  exact hyields

/-- Taking a token whose position is known. -/
theorem advance_bind {f f' : Nat → Parse β}
    (h : σ.Matches ts (f s.position) (f' (σ.mark s.position))) :
    σ.MatchesAt ph s s' ts (Parse.advance >>= f) (Parse.advance >>= f') := by
  have hposition : Parse.advance.Ensures s fun i _ => i = s.position :=
    advance_ensures_tail.imp fun _ _ hi => hi.1
  refine MatchesAt.bind hposition (advance ph s s') fun i hi => ?_
  subst hi
  exact h.mono (List.subset_append_left _ _)

theorem eat? (k : TokenKind) : σ.Matches ts (Parse.eat? k) (Parse.eat? k) :=
  .ite (fun h => TokenStream.isAt_eq_of_lookAlike h k)
    (Matches.bind advance fun i => .pure (x := some i) (by simp)) (.pure (x := none) (by simp))

theorem expect (k : TokenKind) : σ.Matches ts (Parse.expect k) (Parse.expect k) :=
  .ite (fun h => TokenStream.isAt_eq_of_lookAlike h k) advance (.fail _)

theorem expectName (what : Expectation) :
    σ.Matches ts (Parse.expectName what) (Parse.expectName what) :=
  .ite (fun h => TokenStream.isAt_eq_of_lookAlike h _) advance (.fail _)

/-- The tree of a node. -/
theorem close_of_not_isSwapped {kind : NodeKind} {first : Nat} {cs : List PieceTree}
    (hkind : ∀ last, ¬σ.IsSwapped ⟨kind, first, last⟩) (hcs : cs ⊆ ts) :
    σ.Matches ts (Parse.close kind first cs)
      (Parse.close (kind.moved σ.mark) (σ.mark first) (cs.map σ.rewrite)) := by
  intro ph s s' hat hfits t s₁ ht
  cases ht
  refine ⟨ph, s', hat, hfits.append (Fits.node (hfits.mono id hcs) (hkind _)), id, id,
    fun hph => ?_⟩
  have hlast := σ.mark_max hat hph first
  show _ = Except.ok (σ.rewrite _, s')
  rw [rewrite_node (hkind _), hlast]
  rfl

/-- The tree of a node that no other one may stand for. -/
theorem close {kind : NodeKind} {first : Nat} {cs : List PieceTree}
    (hkind : kind.isExchangeable = false) (hcs : cs ⊆ ts) :
    σ.Matches ts (Parse.close kind first cs)
      (Parse.close (kind.moved σ.mark) (σ.mark first) (cs.map σ.rewrite)) :=
  close_of_not_isSwapped (fun _ => not_isSwapped hkind) hcs

/-- The tree of a node whose children are told in another way. -/
theorem close_congr {kind : NodeKind} {first : Nat} {cs cs' : List PieceTree}
    (hkind : kind.isExchangeable = false) (hcs : cs ⊆ ts) (hcs' : cs' = cs.map σ.rewrite) :
    σ.Matches ts (Parse.close kind first cs)
      (Parse.close (kind.moved σ.mark) (σ.mark first) cs') :=
  hcs' ▸ close hkind hcs

/-! ### Loops -/

/-- What two loops that collect items have in common: they look for more alike, and every item
takes a token. -/
structure Items (σ : Twin) (ts : List PieceTree) (more : TokenStream → Bool)
    (item item' : Parse α) : Prop where
  /-- Both look for more in the same way. -/
  sees : ∀ {s s' : TokenStream}, LookAlike s.rest s'.rest → more s' = more s
  /-- There is no more when no tokens are left. -/
  stops : ∀ {s : TokenStream}, s.rest = [] → more s = false
  /-- An item takes a token. -/
  shrinks : ∀ {s : TokenStream}, more s = true → item.Shrinks s
  /-- So it does in the second run. -/
  shrinks' : ∀ {s : TokenStream}, more s = true → item'.Shrinks s
  /-- An item is read in both runs. -/
  item : σ.Matches ts item item'

/-- A loop that collects no items. -/
theorem Items.none {more : TokenStream → Bool} {item item' : Parse α}
    (h : Items σ ts more item item') (hat : σ.At ph s s') (hfits : σ.Fits ph ts)
    (hmore : more s = false) : σ.Meets ph ts ([] : List α) s fun s₁' =>
      ∀ n', s'.rest.length ≤ n' → (items more item' n').Yields s' (σ.carry ([] : List α)) s₁' :=
  ⟨ph, s', hat, by simpa using hfits, id, id, fun hph n' _ =>
    items_yields_nil ((h.sees (σ.lookAlike hat hph)).trans hmore) n'⟩

/-- Loops that collect items. -/
theorem items_matches {more : TokenStream → Bool} {item item' : Parse α}
    (h : Items σ ts more item item') (n : Nat) (hn : s.rest.length ≤ n) (hat : σ.At ph s s')
    (hfits : σ.Fits ph ts) :
    (items more item n).Ensures s fun xs s₁ => σ.Meets ph ts xs s₁ fun s₁' =>
      ∀ n', s'.rest.length ≤ n' → (items more item' n').Yields s' (σ.carry xs) s₁' := by
  induction n generalizing ph s s' with
  | zero =>
    exact .pure (h.none hat hfits (h.stops (List.eq_nil_of_length_eq_zero (Nat.le_zero.1 hn))))
  | succ n ih =>
    refine .get_bind <| .ite (fun hmore => ?_) fun hmore =>
      .pure (h.none hat hfits (Bool.eq_false_iff.2 hmore))
    refine ((h.shrinks hmore).and (h.item ph s s' hat hfits)).bind fun x s₁ hx => ?_
    obtain ⟨hlt, ph₁, s₁', hat₁, hfits₁, hafter₁, hlost₁, hyields₁⟩ := hx
    refine (ih (by omega) hat₁ (hfits₁.mono id (List.subset_append_left _ _))).bind
      fun xs s₂ hxs => .pure ?_
    obtain ⟨ph₂, s₂', hat₂, hfits₂, hafter₂, hlost₂, hyields₂⟩ := hxs
    refine ⟨ph₂, s₂', hat₂, ?_, hafter₂ ∘ hafter₁, hlost₂ ∘ hlost₁, fun hph n' hn' => ?_⟩
    · have hx := hfits₁.mono hafter₂ (List.subset_append_right _ _)
      have hts := hfits₂.mono id (List.subset_append_left _ _)
      have hxs := hfits₂.mono id (List.subset_append_right _ _)
      simpa using hts.append (hx.append hxs)
    · have hph₁ : ph₁ ≠ .lost := mt hlost₂ hph
      have hsame := h.sees (σ.lookAlike hat (mt hlost₁ hph₁))
      have hitem := hyields₁ hph₁
      exact items_yields_cons (hsame.trans hmore) hitem
        (h.shrinks' (hsame.trans hmore) _ _ hitem) (hyields₂ hph) hn'

theorem collectWhile {more : TokenStream → Bool} {item item' : Parse α}
    (h : Items σ ts more item item') :
    σ.Matches ts (Parse.collectWhile more item) (Parse.collectWhile more item') := by
  intro ph s s' hat hfits
  refine .get_bind <| (items_matches h _ (Nat.le_refl _) hat hfits).imp fun xs s₁ hxs => ?_
  obtain ⟨ph₁, s₁', hat₁, hfits₁, hafter, hlost, hyields⟩ := hxs
  exact ⟨ph₁, s₁', hat₁, hfits₁, hafter, hlost, fun hph =>
    .get_bind (hyields hph _ (Nat.le_refl _))⟩

/-- What two loops that change a value have in common.  Some property of the value is kept, and it
may be known that both loops come after what differs. -/
structure Rounds (σ : Twin) (ts : List PieceTree) (isAfter : Prop) (I : α → Prop)
    (more : α → TokenStream → Bool) (step step' : α → Parse α) : Prop where
  /-- Both look for more in the same way. -/
  sees : ∀ {x : α} {s s' : TokenStream}, LookAlike s.rest s'.rest → more (σ.carry x) s' = more x s
  /-- There is no more when no tokens are left. -/
  stops : ∀ {x : α} {s : TokenStream}, s.rest = [] → more x s = false
  /-- A step takes a token. -/
  shrinks : ∀ {x : α} {s : TokenStream}, more x s = true → (step x).Shrinks s
  /-- So it does in the second run. -/
  shrinks' : ∀ {x : α} {s : TokenStream}, more x s = true → (step' x).Shrinks s
  /-- A step keeps the property. -/
  keeps : ∀ {x : α} {s : TokenStream}, I x → (step x).Ensures s fun y _ => I y
  /-- A step is made in both runs. -/
  step : ∀ {us : List PieceTree} {x : α} {ph : Phase} {s s' : TokenStream}, ts ⊆ us →
    trees x ⊆ us → I x → more x s = true → (isAfter → ph = .after) →
      σ.MatchesAt ph s s' us (step x) (step' (σ.carry x))

/-- Loops that change a value. -/
theorem rounds_matches {isAfter : Prop} {I : α → Prop} {more : α → TokenStream → Bool}
    {step step' : α → Parse α} (h : Rounds σ ts isAfter I more step step') (n : Nat)
    {us : List PieceTree} {x : α} (hus : ts ⊆ us) (hx : trees x ⊆ us) (hI : I x)
    (hn : s.rest.length ≤ n) (hph : isAfter → ph = .after) (hat : σ.At ph s s')
    (hfits : σ.Fits ph us) :
    (rounds more step n x).Ensures s fun y s₁ => σ.Meets ph us y s₁ fun s₁' =>
      ∀ n', s'.rest.length ≤ n' →
        (rounds more step' n' (σ.carry x)).Yields s' (σ.carry y) s₁' := by
  induction n generalizing ph s s' us x with
  | zero =>
    have hmore := h.stops (x := x) (List.eq_nil_of_length_eq_zero (Nat.le_zero.1 hn))
    exact .pure ⟨ph, s', hat, hfits.append (hfits.mono id hx), id, id, fun hph n' _ =>
      rounds_yields_of_not_more ((h.sees (σ.lookAlike hat hph)).trans hmore) n'⟩
  | succ n ih =>
    refine .get_bind <| .ite (fun hmore => ?_) fun hmore => .pure ⟨ph, s', hat,
      hfits.append (hfits.mono id hx), id, id, fun hph n' _ => rounds_yields_of_not_more
        ((h.sees (σ.lookAlike hat hph)).trans (Bool.eq_false_iff.2 hmore)) n'⟩
    refine ((h.shrinks hmore).and ((h.keeps hI).and
      (h.step hus hx hI hmore hph hat hfits))).bind fun y s₁ hy => ?_
    obtain ⟨hlt, hI₁, ph₁, s₁', hat₁, hfits₁, hafter₁, hlost₁, hyields₁⟩ := hy
    refine (ih (List.Subset.trans hus (List.subset_append_left _ _)) (List.subset_append_right _ _) hI₁
      (by omega) (hafter₁ ∘ hph) hat₁ hfits₁).imp fun z s₂ hz => ?_
    obtain ⟨ph₂, s₂', hat₂, hfits₂, hafter₂, hlost₂, hyields₂⟩ := hz
    refine ⟨ph₂, s₂', hat₂, hfits₂.mono id ?_, hafter₂ ∘ hafter₁, hlost₂ ∘ hlost₁,
      fun hph n' hn' => ?_⟩
    · rw [List.append_assoc]
      exact List.append_subset.2 ⟨List.subset_append_left _ _,
        List.Subset.trans (List.subset_append_right _ _) (List.subset_append_right _ _)⟩
    · have hph₁ : ph₁ ≠ .lost := mt hlost₂ hph
      have hsame := h.sees (x := x) (σ.lookAlike hat (mt hlost₁ hph₁))
      have hstep := hyields₁ hph₁
      have hlt' := h.shrinks' (hsame.trans hmore) _ _ hstep
      cases n' with
      | zero => omega
      | succ n' =>
        refine .get_bind ?_
        rw [if_pos (hsame.trans hmore)]
        exact hstep.bind (hyields₂ hph n' (by omega))

theorem repeatWhile {I : α → Prop} {more : α → TokenStream → Bool} {step step' : α → Parse α}
    (h : Rounds σ ts False I more step step') {x : α} (hx : trees x ⊆ ts) (hI : I x) :
    σ.Matches ts (Parse.repeatWhile more step x) (Parse.repeatWhile more step' (σ.carry x)) := by
  intro ph s s' hat hfits
  refine .get_bind <| (rounds_matches h _ (List.Subset.refl _) hx hI (Nat.le_refl _) False.elim hat
    hfits).imp fun y s₁ hy => ?_
  obtain ⟨ph₁, s₁', hat₁, hfits₁, hafter, hlost, hyields⟩ := hy
  exact ⟨ph₁, s₁', hat₁, hfits₁, hafter, hlost, fun hph =>
    .get_bind (hyields hph _ (Nat.le_refl _))⟩

/-- Taking a token shortens what is left. -/
theorem advance_shrinks {s : TokenStream} (h : s.rest ≠ []) : Parse.advance.Shrinks s :=
  (advance_ensures h).imp fun _ _ hi => hi.2.length_lt (by simp)

/-- Passing tokens over. -/
theorem skipTo (k : TokenKind) : σ.Matches ts (Parse.skipTo k) (Parse.skipTo k) := by
  have hitems : Items σ ts (·.isBefore k) Parse.advance Parse.advance :=
    { sees := fun h => TokenStream.isBefore_eq_of_lookAlike h k
      stops := fun h => by simp [TokenStream.isBefore, TokenStream.next?, h]
      shrinks := fun h => advance_shrinks (TokenStream.rest_ne_nil_of_isBefore h)
      shrinks' := fun h => advance_shrinks (TokenStream.rest_ne_nil_of_isBefore h)
      item := advance }
  exact Matches.bind (collectWhile hitems) fun _ => .pure (x := ()) (by simp)

end Matches

end Twin

end Mend
