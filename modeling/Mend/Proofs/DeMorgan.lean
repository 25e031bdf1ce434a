import Mend.Proofs.OfferedFixes
import Mend.Proofs.JoinedNegationText
import Mend.Proofs.WrittenTrees

/-!
# Joining negations keeps the meaning

The fix that makes `!(A || B)` of `!A && !B` changes five places of a text.  The text that it makes
is read, and its tree is the one there was, except that the negation of both stands for the two
negations.  Both have the same truth value, however the values of trees are told, as long as
parentheses add nothing to them, and `!`, `&&` and `||` are those of truth values.

## Main definitions

* `WrittenTree.negation`, `WrittenTree.conjunction`, … — the nodes of both expressions.
* `ReadsTruth` — a meaning of trees in which `!`, `&&` and `||` are those of truth values.

## Main results

* `ReadsTruth.value_negation_disjunction` — De Morgan's law, effects included.
* `SourceCode.exists_ofText_joinNegations` — what the edited text is read as.
* `Query.joinNegations_keeps_meaning` — **the fix exchanges one node, and every value stays.**
-/

namespace Mend

/-! ### Truth values -/

namespace Wording

/-- A sign before what it negates. -/
def negation : Wording := ⟨.unary 0, [some (.exclaim, "!")]⟩

/-- A sign between two operands that both have to hold. -/
def conjunction : Wording := ⟨.binary 0, [some (.ampAmp, "&&")]⟩

/-- A sign between two operands of which one has to hold. -/
def disjunction : Wording := ⟨.binary 0, [some (.pipePipe, "||")]⟩

/-- Parentheses around an expression. -/
def parentheses : Wording := ⟨.nested 0 0, [some (.lParen, "("), some (.rParen, ")")]⟩

end Wording

namespace WrittenTree

/-- The negation of an expression. -/
def negation (a : WrittenTree) : WrittenTree := .node .negation [a]

/-- Two expressions that both have to hold. -/
def conjunction (a b : WrittenTree) : WrittenTree := .node .conjunction [a, b]

/-- Two expressions of which one has to hold. -/
def disjunction (a b : WrittenTree) : WrittenTree := .node .disjunction [a, b]

/-- An expression in parentheses. -/
def parenthesized (a : WrittenTree) : WrittenTree := .node .parentheses [a]

end WrittenTree

/-- A meaning of trees in which `!`, `&&` and `||` are those of truth values, and in which
parentheses add nothing.  To evaluate an operand may have effects, and the right one of two is
evaluated only if it decides. -/
structure ReadsTruth {M : Type → Type} [Monad M] {X : Type} (truth : X → Bool) (ofBool : Bool → X)
    (f : Wording → List (M X) → M X) : Prop where
  /-- Truth values are values. -/
  truth_ofBool : ∀ b, truth (ofBool b) = b
  /-- A negation is true of what is false. -/
  negation : ∀ a, f .negation [a] = do
    return ofBool (!truth (← a))
  /-- Both operands have to be true, and the right one is not evaluated after a false one. -/
  conjunction : ∀ a b, f .conjunction [a, b] = do
    if truth (← a) then return ofBool (truth (← b)) else return ofBool false
  /-- One operand has to be true, and the right one is not evaluated after a true one. -/
  disjunction : ∀ a b, f .disjunction [a, b] = do
    if truth (← a) then return ofBool true else return ofBool (truth (← b))
  /-- An expression in parentheses has the value of the expression. -/
  parentheses : ∀ a, f .parentheses [a] = a

/-- What a node means among truth values, if its sign is none of `!`, `&&`, `||` and `()` then
whatever `other` says. -/
def Wording.truthOr {M : Type → Type} [Monad M] (other : Wording → List (M Bool) → M Bool)
    (w : Wording) : List (M Bool) → M Bool
  | [a] =>
    if w = negation then do return !(← a)
    else if w = parentheses then a
    else other w [a]
  | [a, b] =>
    if w = conjunction then do if ← a then b else return false
    else if w = disjunction then do if ← a then return true else b
    else other w [a, b]
  | as => other w as

namespace ReadsTruth

variable {M : Type → Type} [Monad M] [LawfulMonad M] {X : Type} {truth : X → Bool}
  {ofBool : Bool → X} {f : Wording → List (M X) → M X}

/-- Whatever the other nodes mean, `!`, `&&`, `||` and `()` can mean what they should. -/
theorem truthOr (other : Wording → List (M Bool) → M Bool) :
    ReadsTruth id id (Wording.truthOr other) where
  truth_ofBool _ := rfl
  negation _ := rfl
  conjunction a b := by
    refine bind_congr fun x => ?_
    cases x
    · rfl
    · exact (bind_pure b).symm
  disjunction a b := by
    refine bind_congr fun x => ?_
    cases x
    · exact (bind_pure b).symm
    · rfl
  parentheses _ := rfl

open WrittenTree in
/-- **De Morgan's law**: the negation of two operands of which one has to hold has the value, and
the effects, of their negations that both have to hold. -/
theorem value_negation_disjunction (h : ReadsTruth truth ofBool f) (a b : WrittenTree) :
    (WrittenTree.negation (.parenthesized (.disjunction a b))).value f =
      (WrittenTree.conjunction (.negation a) (.negation b)).value f := by
  simp only [WrittenTree.negation, WrittenTree.parenthesized, WrittenTree.disjunction,
    WrittenTree.conjunction, value_node, List.map_cons, List.map_nil, h.negation, h.parentheses,
    h.disjunction, h.conjunction, bind_assoc, pure_bind, h.truth_ofBool]
  refine bind_congr fun x => ?_
  cases truth x <;> simp [h.truth_ofBool]

end ReadsTruth

/-! ### Where the items of exchanged parts are found -/

section

variable {α : Type} {pre as bs post : List α} {s x y z u v w : α} {i j k : Nat}

/-- Outside of what is exchanged the same items stand. -/
theorem getElem?_pushed
    (hi : i < pre.length ∨ pre.length + 1 + as.length + 1 + bs.length < i) :
    (pre ++ s :: u :: (as ++ v :: (bs ++ w :: post)))[Twin.pushed pre.length 1 i]? =
      (pre ++ x :: (as ++ y :: z :: (bs ++ post)))[i]? := by
  rcases hi with hi | hi
  · rw [Twin.pushed, if_pos (Nat.le_of_lt hi), List.getElem?_append_left hi,
      List.getElem?_append_left hi]
  · rw [Twin.pushed, if_neg (by omega)]
    have hafter (us : List α) {j : Nat} (hj : us.length ≤ j) :
        (us ++ post)[j]? = post[j - us.length]? := List.getElem?_append_right hj
    have h := hafter (pre ++ s :: u :: (as ++ v :: (bs ++ [w]))) (j := i + 1) (by simp; omega)
    have h' := hafter (pre ++ x :: (as ++ y :: z :: bs)) (j := i) (by simp; omega)
    have hlength : i + 1 - (pre ++ s :: u :: (as ++ v :: (bs ++ [w]))).length =
        i - (pre ++ x :: (as ++ y :: z :: bs)).length := by
      simp
      omega
    rw [hlength, ← h'] at h
    simpa using h

/-- What was negated first stands one place further. -/
theorem getElem?_left (hi : pre.length < i) (hi' : i < pre.length + 1 + as.length) :
    (pre ++ s :: u :: (as ++ v :: (bs ++ w :: post)))[Twin.pushed pre.length 1 i]? =
      (pre ++ x :: (as ++ y :: z :: (bs ++ post)))[i]? := by
  rw [Twin.pushed, if_neg (by omega)]
  have h := getElem?_of_part (pre ++ [s, u]) (pre ++ [x]) (v :: (bs ++ w :: post))
    (y :: z :: (bs ++ post)) (i := i + 1) (j := i) (show i - (pre.length + 1) < as.length by omega)
    (by simp; omega) (by simp; omega)
  simpa using h

/-- What was negated second stands where it stood. -/
theorem getElem?_right (hi : pre.length + 1 + as.length + 1 < i)
    (hi' : i ≤ pre.length + 1 + as.length + 1 + bs.length) :
    (pre ++ s :: u :: (as ++ v :: (bs ++ w :: post)))[i]? =
      (pre ++ x :: (as ++ y :: z :: (bs ++ post)))[i]? := by
  have h := getElem?_of_part (pre ++ s :: u :: (as ++ [v])) (pre ++ x :: (as ++ [y, z]))
    (w :: post) post (i := i) (j := i)
    (show i - (pre.length + 1 + as.length + 2) < bs.length by omega) (by simp; omega)
    (by simp; omega)
  simpa using h

end

/-! ### What the edited text is read as -/

namespace PieceTree

open Twin

variable {word? word?' : Nat → Option (TokenKind × String)} {p q k : Nat} {a b : PieceTree}

/-- The negation of both operands as it is written, when their words are found at their new places.
-/
theorem written_joinedNegation (hsign : word?' p = some (.exclaim, "!"))
    (hlparen : word?' (p + 1) = some (.lParen, "("))
    (hoperator : word?' (q + 1) = some (.pipePipe, "||"))
    (hrparen : word?' (k + 1) = some (.rParen, ")"))
    (ha : ∀ u ∈ a.subtrees, ∀ i ∈ u.label.kind.ownTokens, word?' (pushed p 1 i) = word? i)
    (hb : ∀ u ∈ b.subtrees, ∀ i ∈ u.label.kind.ownTokens, word?' i = word? i) :
    (joinedNegation p q k a b).written word?' =
      .negation (.parenthesized (.disjunction (a.written word?) (b.written word?))) := by
  have hb : b.written word?' = b.written word? := by
    have hmoved := written_moved (f := id) hb
    rwa [moved_id] at hmoved
  simp only [joinedNegation, written_node, List.map_cons, List.map_nil, written_moved ha, hb,
    wording_unary hsign, wording_nested hlparen hrparen, wording_binary hoperator]
  rfl

/-- **Tokens whose words are those with the negations joined are read with the negation of both.**
-/
theorem ofTokens_of_words {ts ts' pre as bs post : List Token} {n₁ op n₂ : Token}
    {length length' : Nat} {t old : PieceTree}
    (h : NegationsAt ts pre as bs post n₁ op n₂ old a b) (hsign : n₁.word = (.exclaim, "!"))
    (hwords : ts'.map Token.word = pre.map Token.word ++ (.exclaim, "!") :: (.lParen, "(") ::
      (as.map Token.word ++ (.pipePipe, "||") :: (bs.map Token.word ++
        (.rParen, ")") :: post.map Token.word)))
    (ht : ofTokens ts length = .ok t) (hmem : old ∈ t.subtrees) :
    ofTokens ts' length' =
      .ok (t.exchange (fun p => decide (p.kind = old.label.kind ∧ p.first = pre.length))
        (pushed pre.length 1)
        (joinedNegation pre.length (pre.length + 1 + as.length) old.label.last a b)) := by
  obtain ⟨pre', rest, rfl, hpre, hrest⟩ := List.map_eq_append_iff.1 hwords
  obtain ⟨n₁', rest, rfl, hn₁, hrest⟩ := List.map_eq_cons_iff.1 hrest
  obtain ⟨lp, rest, rfl, hlp, hrest⟩ := List.map_eq_cons_iff.1 hrest
  obtain ⟨as', rest, rfl, has, hrest⟩ := List.map_eq_append_iff.1 hrest
  obtain ⟨op', rest, rfl, hop, hrest⟩ := List.map_eq_cons_iff.1 hrest
  obtain ⟨bs', rest, rfl, hbs, hrest⟩ := List.map_eq_append_iff.1 hrest
  obtain ⟨rp, post', rfl, hrp, hpost⟩ := List.map_eq_cons_iff.1 hrest
  have hsame : n₁.word = n₁'.word := hsign.trans hn₁.symm
  exact ofTokens_joinNegations h (forall₂_same_of_map_word hpre) (forall₂_same_of_map_word has)
    (forall₂_same_of_map_word hbs) (forall₂_same_of_map_word hpost)
    ⟨(congrArg Prod.fst hsame).symm, (congrArg Prod.snd hsame).symm⟩ (congrArg Prod.fst hlp)
    (congrArg Prod.fst hop) (congrArg Prod.fst hrp) ht hmem

end PieceTree

namespace SourceCode

open PieceTree SyntaxTree

variable {t : Text} {c code : SourceCode} {old l r a b : SyntaxTree} {q o o' : Nat}
  {pre as bs post : List Token} {n₁ op n₂ : Token}

/-- **A text whose words are those with the negations joined is written as before**, except for the
negation of both. -/
theorem written_joinNegations {p : PieceTree} (hlaid : p.IsLaid)
    (h : NegationsAt c.tokens.toList pre as bs post n₁ op n₂ old.toPieces a.toPieces b.toPieces)
    (htree : c.tree = ofPieces p) (hmem : old ∈ c.tree.subtrees)
    (hwords : code.tokens.toList.map Token.word = pre.map Token.word ++ (.exclaim, "!") ::
      (.lParen, "(") :: (as.map Token.word ++ (.pipePipe, "||") :: (bs.map Token.word ++
        (.rParen, ")") :: post.map Token.word)))
    (hcode : code.tree = ofPieces (p.exchange
      (fun x => decide (x.kind = old.toPieces.label.kind ∧ x.first = pre.length))
      (Twin.pushed pre.length 1) (joinedNegation pre.length (pre.length + 1 + as.length)
        old.toPieces.label.last a.toPieces b.toPieces))) :
    code.written code.tree = c.writtenWith old
      (.negation (.parenthesized (.disjunction (c.written a) (c.written b)))) c.tree := by
  have hold := h.own (hlaid.of_mem (toPieces_ofPieces p ▸ htree ▸ toPieces_mem_subtrees hmem))
  have hfirst := h.first_eq
  have hlast := h.last_eq
  rw [label_toPieces] at hfirst hlast
  have hcwords : c.tokens.toList.map Token.word = pre.map Token.word ++ n₁.word ::
      (as.map Token.word ++ op.word :: n₂.word :: (bs.map Token.word ++ post.map Token.word)) := by
    simp [h.tokens_eq]
  have hpre : (pre.map Token.word).length = pre.length := List.length_map _
  have hat {x : TokenKind × String} {i : Nat} (us vs : List (TokenKind × String))
      (hus : code.tokens.toList.map Token.word = us ++ x :: vs) (hi : i = us.length) :
      code.word? i = some x := (word?_eq code i).trans (getElem?_behind us vs hus hi)
  have hnew : (joinedNegation pre.length (pre.length + 1 + as.length) old.toPieces.label.last
      a.toPieces b.toPieces).written code.word? =
        .negation (.parenthesized (.disjunction (c.written a) (c.written b))) := by
    rw [written_eq a, written_eq b]
    refine written_joinedNegation (hat _ _ hwords (by simp))
      (hat (pre.map Token.word ++ [(.exclaim, "!")]) _ (by rw [hwords, List.append_assoc]; rfl)
        (by simp))
      (hat (pre.map Token.word ++ (.exclaim, "!") :: (.lParen, "(") :: as.map Token.word) _
        (by rw [hwords, List.append_assoc]; rfl) (by simp; omega))
      (hat (pre.map Token.word ++ (.exclaim, "!") :: (.lParen, "(") ::
        (as.map Token.word ++ (.pipePipe, "||") :: bs.map Token.word)) (post.map Token.word)
        (by simp [hwords]) (by rw [label_toPieces]; simp; omega))
      (fun u hu i hi => ?_) fun u hu i hi => ?_
    · have := hold.1 u hu i hi
      rw [word?_eq, word?_eq, hwords, hcwords, ← hpre]
      refine getElem?_left ?_ ?_ <;> simp only [List.length_map] <;> omega
    · have := hold.2 u hu i hi
      rw [word?_eq, word?_eq, hwords, hcwords]
      refine getElem?_right ?_ ?_ <;> simp only [List.length_map] <;> omega
  rw [written_eq, hcode, toPieces_ofPieces, ← hnew, htree]
  conv_lhs => rw [← toPieces_ofPieces p]
  refine written_exchange (isLaid_ofPieces hlaid) (fun u hu hid => ?_) ?_ (fun x hx => ?_)
    (.inl (htree ▸ hmem)) fun i hi => ?_
  · exact eq_of_id_eq (htree ▸ hmem) hu hid
  · simp [label_toPieces, hfirst]
  · rw [(of_decide_eq_true hx).1, h.kind_eq]
    exact ⟨_, List.mem_singleton_self _, by omega, by omega⟩
  · rw [word?_eq, word?_eq, hwords, hcwords, ← hpre]
    refine getElem?_pushed ?_
    simp only [List.length_map]
    omega

/-- **With `!(A || B)` for `!A && !B` a text is read, and its tree has the negation of both for the
two negations.** -/
theorem exists_ofText_joinNegations (hc : ofText t = .ok c) (hmem : old ∈ c.tree.subtrees)
    (hkind : old.label.kind = .binary q) (hop : c.kindOf? q = some .ampAmp)
    (hchildren : old.children = [l, r])
    (hl : l.label.kind = .unary o) (ho : c.kindOf? o = some .exclaim)
    (hr : r.label.kind = .unary o') (ho' : c.kindOf? o' = some .exclaim) :
    ∃ a b code, c.written old = .conjunction (.negation (c.written a)) (.negation (c.written b)) ∧
      l.children = [a] ∧ r.children = [b] ∧
      ofText (Change.weave [.replace (c.tokenSpan q) "||".toList, .remove (c.tokenSpan o),
        .remove (c.tokenSpan o'), .insert (c.startOf old) "!(".toList,
        .insert (c.stopOf old) ")".toList] t) = .ok code ∧
      code.written code.tree = c.writtenWith old
        (.negation (.parenthesized (.disjunction (c.written a) (c.written b)))) c.tree := by
  obtain ⟨L, p, hL, hp, hceq⟩ := ofText_eq_ok_iff.1 hc
  have htokens : c.tokens.toList = L.tokens := by rw [hceq]
  have htree : c.tree = ofPieces p := by rw [hceq]
  have hmemp : old.toPieces ∈ p.subtrees :=
    toPieces_ofPieces p ▸ toPieces_mem_subtrees (htree ▸ hmem)
  simp only [kindOf?, ← Array.getElem?_toList, htokens] at hop ho ho'
  obtain ⟨pre, n₁, as, op, n₂, bs, post, a', b', hat, rfl, rfl, rfl, has, hbs⟩ :=
    exists_negationsAt (l := l.toPieces) (r := r.toPieces) hp hmemp (by simpa using hkind)
      (by simp [hchildren]) hop (by simpa using hl) ho (by simpa using hr) ho'
  -- what is negated
  obtain ⟨l', r', hchildren', -, ha', -, hb'⟩ := hat.children_eq
  rw [children_toPieces, hchildren, List.map_cons, List.map_singleton, List.cons.injEq,
    List.cons.injEq] at hchildren'
  obtain ⟨rfl, rfl, -⟩ := hchildren'
  rw [children_toPieces] at ha' hb'
  obtain ⟨a, ha, rfl⟩ := List.map_eq_singleton_iff.1 ha'
  obtain ⟨b, hb, rfl⟩ := List.map_eq_singleton_iff.1 hb'
  -- the text
  obtain ⟨bs, z, rfl⟩ := (List.eq_nil_or_concat' bs).resolve_left hbs
  obtain ⟨⟨hword₁, hword₂, hword₃⟩, L', hL', hwords⟩ :=
    Lexed.exists_ofText_joinNegations hL hat has (z := z) (by simp)
  have hfirst := hat.first_eq
  have hlast := hat.last_eq
  rw [label_toPieces] at hfirst hlast
  rw [← htokens] at hat
  have hstart : c.startOf old = n₁.span.start :=
    congrArg Span.start (tokenSpan_of_getElem? (getElem?_behind _ _ hat.tokens_eq hfirst))
  have hstop : c.stopOf old = z.span.stop :=
    congrArg Span.stop (tokenSpan_of_getElem? (getElem?_behind
      (pre ++ n₁ :: (as ++ op :: n₂ :: bs)) post (by simp [hat.tokens_eq])
        (hlast.trans (by simp; omega))))
  rw [tokenSpan_of_getElem? hat.getElem?_left, tokenSpan_of_getElem? hat.getElem?_operator,
    tokenSpan_of_getElem? hat.getElem?_right, hstart, hstop]
  refine ⟨a, b, _, ?_, ha, hb, ofText_eq_ok_iff.2
    ⟨L', _, hL', ofTokens_of_words (htokens ▸ hat) hword₁ hwords hp hmemp, rfl⟩, ?_⟩
  · rw [written_eq_node old, hchildren, hkind,
      wording_binary (word?_of_getElem? hat.getElem?_operator hword₂), List.map_cons,
      List.map_singleton, written_eq_node l, ha, hl,
      wording_unary (word?_of_getElem? hat.getElem?_left hword₁), written_eq_node r, hb, hr,
      wording_unary (word?_of_getElem? hat.getElem?_right hword₃)]
    rfl
  · exact written_joinNegations (isLaid_of_ofTokens_eq_ok hp).1 hat htree hmem
      (by simpa using hwords) rfl

end SourceCode

/-! ### The fix -/

namespace Query

open SourceCode Change

variable {q : Query} {x : Proposal}

theorem kindOf?_of_negationSign? {t : SyntaxTree} {i : Nat} (h : q.negationSign? t = some i) :
    q.file.kindOf? i = some .exclaim := by
  unfold negationSign? at h
  split at h
  next =>
    split at h
    next hkind =>
      cases h
      exact eq_of_beq hkind
    next => cases h
  next => cases h

/-- Where the fix is offered, the innermost expression of two operands at the cursor joins two
negations. -/
theorem exists_of_mem_joinNegations (hx : x ∈ q.joinNegations) :
    ∃ old depth operator l r left right,
      (q.outward.find? fun n => n.1.label.kind.isBinary) = some (old, depth) ∧
      old.label.kind = .binary operator ∧ q.file.kindOf? operator = some .ampAmp ∧
      old.children = [l, r] ∧
      l.label.kind = .unary left ∧ q.file.kindOf? left = some .exclaim ∧
      r.label.kind = .unary right ∧ q.file.kindOf? right = some .exclaim ∧
      x = q.propose "Rewrite Condition Using ||" depth
        [.replace (q.file.tokenSpan operator) "||".toList, .remove (q.file.tokenSpan left),
          .remove (q.file.tokenSpan right), .insert (q.file.startOf old) "!(".toList,
          .insert (q.file.stopOf old) ")".toList] [q.file.spanOf old] := by
  unfold joinNegations at hx
  split at hx
  next => cases hx
  next t depth ht =>
    split at hx
    next operator left right hoperator hsigns =>
      split at hx
      next hkind =>
        obtain ⟨l, ts, hchildren, hl, hts⟩ := List.map_eq_cons_iff.1 hsigns
        obtain ⟨r, ts, rfl, hr, hts⟩ := List.map_eq_cons_iff.1 hts
        obtain rfl := List.map_eq_nil_iff.1 hts
        exact ⟨t, depth, operator, l, r, left, right, ht, kind_of_operatorHere? hoperator,
          eq_of_beq hkind, hchildren, kind_of_negationSign? hl,
          kindOf?_of_negationSign? hl, kind_of_negationSign? hr, kindOf?_of_negationSign? hr,
          List.mem_singleton.1 hx⟩
      next => cases hx
    next => cases hx

/-- **Joining negations exchanges one node, and every value stays.**  The text that the fix makes is
read; its tree is written as before, but for the negation of both operands in place of their
negations; and it has the same value as before in every meaning that reads `!`, `&&` and `||` as
those of truth values. -/
theorem joinNegations_keeps_meaning {x : Fix} (hx : x ∈ q.fixes) (hkind : x.kind = .joinNegations) :
    ∃ old depth l r a b changes text code,
      (q.outward.find? fun n => n.1.label.kind.isBinary) = some (old, depth) ∧
      old.children = [l, r] ∧ l.children = [a] ∧ r.children = [b] ∧
      q.file.written old =
        .conjunction (.negation (q.file.written a)) (.negation (q.file.written b)) ∧
      x.patch = .ok (NameMap.empty.insert q.file.path
        { changes, reindent := [q.file.spanOf old] }) ∧
      changes.applyTo q.file.text = .ok text ∧ SourceCode.ofText text = .ok code ∧
      code.written code.tree = q.file.writtenWith old
        (.negation (.parenthesized (.disjunction (q.file.written a) (q.file.written b))))
          q.file.tree ∧
      ∀ (M : Type → Type) [Monad M] [LawfulMonad M] (X : Type) (truth : X → Bool)
        (ofBool : Bool → X) (f : Wording → List (M X) → M X), ReadsTruth truth ofBool f →
          (code.written code.tree).value f = (q.file.written q.file.tree).value f := by
  have hproposed := (exists_of_mem_fixes hx).1
  rw [hkind] at hproposed
  obtain ⟨old, depth, operator, l, r, left, right, hfind, hkind, hop, hchildren, hl, ho, hr, ho',
    hproposal⟩ := exists_of_mem_joinNegations hproposed
  have hmem : old ∈ q.file.tree.subtrees :=
    mem_subtrees_of_mem_outward (List.mem_of_find?_eq_some hfind)
  obtain ⟨a, b, code, hold, ha, hb, hcode, hwritten⟩ :=
    exists_ofText_joinNegations q.file.isReading hmem hkind hop hchildren hl ho hr ho'
  obtain ⟨changes, hchanges, -, δ, hδ⟩ := ChangeSet.exists_ofChanges_eq_ok
    (fit_joinNegations hmem hkind hchildren hl hr "||".toList "!(".toList ")".toList)
  have happly : changes.applyTo q.file.text = .ok (weave changes.changes q.file.text) := by
    rw [ChangeSet.applyTo, hδ, ← ChangeSet.applyTo_eq_weave_of_plan_eq_ok hδ]
  rw [show changes.changes = _ from (ChangeSet.extend_eq_ok hchanges).1] at happly
  refine ⟨old, depth, l, r, a, b, changes, _, code, hfind, hchildren, ha, hb, hold, ?_, happly,
    hcode, hwritten, fun M _ _ X truth ofBool f hf => ?_⟩
  · rw [hproposal, patch_propose, Patch.ofChanges, hchanges]
  · rw [hwritten]
    refine WrittenTree.value_writtenWith (fun u hu hid => ?_) ?_
    · exact eq_of_id_eq_of_ofText q.file.isReading hmem hu hid
    · rw [hold, hf.value_negation_disjunction]

/-- The initial value of a variable, `!a && !b`, becomes `!(a || b)`, and is true when it was,
whatever else is read. -/
theorem joinNegations_keeps_meaning_of_initializer :
    let t : Text := ['i', 'n', 't', ' ', 'x', '=', '!', 'a', '&', '&', '!', 'b', ';']
    let joined : Text := ['i', 'n', 't', ' ', 'x', '=', '!', '(', 'a', '|', '|', 'b', ')', ';']
    ∃ f, ParsedFile.parse "a.cpp" 0 t = .ok f ∧
      let q : Query := ⟨Snapshot.add .empty f, f, {}, 8, none⟩
      q.fixes.map (·.kind) = [.joinNegations] ∧
        ∀ x ∈ q.fixes, ∃ p changes code, x.patch = .ok p ∧
          (p.find? "a.cpp").map (·.changes) = some changes ∧ changes.applyTo t = .ok joined ∧
          SourceCode.ofText joined = .ok code ∧
          ∀ other : Wording → List (Id Bool) → Id Bool,
            (code.written code.tree).value (Wording.truthOr other) =
              (f.written f.tree).value (Wording.truthOr other) := by
  intro t joined
  let textOf (x : Fix) : Option Text := x.patch.toOption.bind fun p =>
    ((p.find? "a.cpp").map (·.changes)).bind fun c => (c.applyTo t).toOption
  have hread : (ParsedFile.parse "a.cpp" 0 t).map (fun f => (f.path, f.text)) =
      .ok ("a.cpp", t) := by decide +kernel
  have hoffered : (ParsedFile.parse "a.cpp" 0 t).map (fun f =>
      (Query.mk (Snapshot.add .empty f) f {} 8 none).fixes.map fun x => (x.kind, textOf x)) =
        .ok [(.joinNegations, some joined)] := by decide +kernel
  rcases hparse : ParsedFile.parse "a.cpp" 0 t with e | f
  · rw [hparse] at hread
    cases hread
  rw [hparse] at hread hoffered
  obtain ⟨hpath, htext⟩ : f.path = "a.cpp" ∧ f.text = t := by simpa [Except.map] using hread
  refine ⟨f, rfl, ?_⟩
  intro q
  have hfixes : q.fixes.map (fun x => (x.kind, textOf x)) = [(.joinNegations, some joined)] :=
    Except.ok.inj hoffered
  refine ⟨by simpa using congrArg (List.map Prod.fst) hfixes, fun x hx => ?_⟩
  have hmem : (x.kind, textOf x) ∈ q.fixes.map fun x => (x.kind, textOf x) :=
    List.mem_map_of_mem hx
  rw [hfixes] at hmem
  obtain ⟨hkind, hjoined⟩ := Prod.mk.inj (List.mem_singleton.1 hmem)
  obtain ⟨old, _, _, _, _, _, changes, text, code, -, -, -, -, -, hpatch, happly, hcode, -,
    hvalue⟩ := joinNegations_keeps_meaning hx hkind
  have hfind (c : FileChange) : (NameMap.empty.insert q.file.path c).find? "a.cpp" = some c :=
    hpath ▸ NameMap.find?_insert_self _ _ _
  -- the text is the one that was computed
  rw [show q.file.text = t from htext] at happly
  obtain rfl : text = joined := by
    simpa [textOf, hpatch, Except.toOption, hfind, happly, q] using hjoined
  exact ⟨_, changes, code, hpatch, by rw [hfind, Option.map_some], happly, hcode, fun other =>
    hvalue Id Bool id id _ (.truthOr other)⟩

end Query

end Mend
