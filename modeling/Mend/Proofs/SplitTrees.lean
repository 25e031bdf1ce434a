import Mend.Proofs.SplitStatements

/-!
# Split statements as they are written

The tree that stands for a split statement is written with the words of the old one, since its parts
lie over the same words as before.  What is left of the condition is no part of the old tree, but it
is written like the condition with an operand in place of the expression that the operator belongs
to.

## Main definitions

* `WrittenTree.branching`, `WrittenTree.braced` — an `if` statement, and a block of one statement.

## Main results

* `PieceTree.IsSplit.written_nested`, `PieceTree.IsSplit.written_ladder` — the two statements as
  they are written.
* `PieceTree.IsSplit.getElem?_pushed` — outside of the statement the words are the same ones.
* `SourceCode.written_of_isRest` — **what is left of a chain is written like the chain with one
  operand in place of its last expression.**
-/

namespace Mend

/-! ### Statements as they are written -/

namespace WrittenTree

/-- An `if` statement, perhaps with another branch. -/
def branching (condition branch : WrittenTree) (other : Option WrittenTree) : WrittenTree :=
  .node ⟨.ifStatement 0 0 0 (other.map fun _ => 0), some (.kwIf, "if") :: some (.lParen, "(") ::
    some (.rParen, ")") :: (other.map fun _ => some (.kwElse, "else")).toList⟩
      (condition :: branch :: other.toList)

/-- A block of one statement. -/
def braced (statement : WrittenTree) : WrittenTree :=
  .node ⟨.block 0 0, [some (.lBrace, "\x7b"), some (.rBrace, "\x7d")]⟩ [statement]

end WrittenTree

/-- What stands around a condition. -/
theorem getElem?_ifWords {ws us cs vs : List (TokenKind × String)} {i : Nat}
    (h : ws = us ++ (ifWords cs ++ vs)) (hi : i = us.length) :
    ws[i]? = some (.kwIf, "if") ∧ ws[i + 1]? = some (.lParen, "(") ∧
      ws[i + 2 + cs.length]? = some (.rParen, ")") := by
  rw [ifWords] at h
  refine ⟨getElem?_behind us ((.lParen, "(") :: (cs ++ (.rParen, ")") :: vs)) (by simp [h]) hi,
    getElem?_behind (us ++ [(.kwIf, "if")]) (cs ++ (.rParen, ")") :: vs) (by simp [h])
      (by simp [hi]),
    getElem?_behind (us ++ (.kwIf, "if") :: (.lParen, "(") :: cs) vs (by simp [h]) ?_⟩
  simp
  omega

/-- The words of some tokens stand at a position among words. -/
def StandsAt (ws : List (TokenKind × String)) (i : Nat) (ts : List Token) : Prop :=
  ∀ k < ts.length, ws[i + k]? = ts[k]?.map Token.word

theorem standsAt_of_eq {ws : List (TokenKind × String)} {ts : List Token} {i : Nat}
    (us vs : List (TokenKind × String)) (h : ws = us ++ (ts.map Token.word ++ vs))
    (hi : i = us.length) : StandsAt ws i ts := by
  intro k hk
  rw [h, hi, List.getElem?_append_right (Nat.le_add_right _ _), Nat.add_sub_cancel_left,
    List.getElem?_append_left (by rwa [List.length_map]), List.getElem?_map]

/-- What comes after a part of the words. -/
theorem getElem?_of_rest {ws as : List (TokenKind × String)} {i : Nat}
    (us : List (TokenKind × String)) (h : ws = us ++ as) (hi : i = us.length) (k : Nat) :
    ws[i + k]? = as[k]? := by
  rw [h, hi, List.getElem?_append_right (Nat.le_add_right _ _), Nat.add_sub_cancel_left]

namespace SplitTokens

variable (T : SplitTokens)

theorem standsAt_left : StandsAt (T.tokens.map Token.word) (T.before.length + 2) T.left :=
  standsAt_of_eq (T.before.map Token.word ++ [T.keyword.word, T.lparen.word])
    (T.operator.word :: (T.right.map Token.word ++ T.rparen.word ::
      (T.branch.map Token.word ++ T.after.map Token.word)))
    (by simp [tokens, onward]) (by simp)

theorem standsAt_right :
    StandsAt (T.tokens.map Token.word) (T.before.length + 3 + T.left.length) T.right :=
  standsAt_of_eq (T.before.map Token.word ++ T.keyword.word :: T.lparen.word ::
      (T.left.map Token.word ++ [T.operator.word]))
    (T.rparen.word :: (T.branch.map Token.word ++ T.after.map Token.word))
    (by simp [tokens, onward]) (by simp; omega)

theorem standsAt_branch : StandsAt (T.tokens.map Token.word)
    (T.before.length + 4 + T.left.length + T.right.length) T.branch :=
  standsAt_of_eq (T.before.map Token.word ++ T.keyword.word :: T.lparen.word ::
      (T.left.map Token.word ++ T.operator.word :: (T.right.map Token.word ++ [T.rparen.word])))
    (T.after.map Token.word) (by simp [tokens, onward]) (by simp; omega)

theorem getElem?_after (k : Nat) : (T.tokens.map Token.word)[T.before.length + 4 + T.left.length +
    T.right.length + T.branch.length + k]? = (T.after.map Token.word)[k]? :=
  getElem?_of_rest (T.before.map Token.word ++ T.keyword.word :: T.lparen.word ::
      (T.left.map Token.word ++ T.operator.word :: (T.right.map Token.word ++ T.rparen.word ::
        T.branch.map Token.word)))
    (by simp [tokens, onward]) (by simp; omega) k

theorem getElem?_nestedWords (k : Nat) : T.nestedWords[T.before.length + 8 + T.left.length +
    T.right.length + T.branch.length + k]? = (T.after.map Token.word)[k]? :=
  getElem?_of_rest (T.before.map Token.word ++ (ifWords (T.left.map Token.word) ++
      (.lBrace, "\x7b") :: (ifWords (T.right.map Token.word) ++ (T.branch.map Token.word ++
        [(.rBrace, "\x7d")]))))
    (by simp [nestedWords]) (by simp [ifWords]; omega) k

theorem getElem?_ladderWords (k : Nat) : T.ladderWords[T.before.length + 7 + T.left.length +
    T.branch.length + T.right.length + T.branch.length + k]? = (T.after.map Token.word)[k]? :=
  getElem?_of_rest (T.before.map Token.word ++ (ifWords (T.left.map Token.word) ++
      (T.branch.map Token.word ++ (.kwElse, "else") :: (ifWords (T.right.map Token.word) ++
        T.branch.map Token.word))))
    (by simp [ladderWords]) (by simp [ifWords]; omega) k

end SplitTokens

namespace PieceTree

variable {word? word?' : Nat → Option (TokenKind × String)} {t c b : PieceTree}
  {other : Option PieceTree} {i j n : Nat}

/-- At another position a tree is written as before, when it finds its words there. -/
theorem written_placed {ws ws' : List (TokenKind × String)} (ht : t.IsLaid)
    (h : ∀ k, t.label.first + k ≤ t.label.last → ws'[j + k]? = ws[t.label.first + k]?) :
    (t.placed j).written (ws'[·]?) = t.written (ws[·]?) := by
  refine written_moved fun u hu a ha => ?_
  have hwithin := ht.within hu
  have hown := ht.own hu ha
  have hword := h (a - t.label.first) (by omega)
  rwa [Nat.add_sub_cancel' (by omega), Nat.add_comm] at hword

/-- So it is when it covers tokens whose words stand there. -/
theorem Covers.written_placed {ws ws' : List (TokenKind × String)} {ts : List Token}
    (hcovers : t.Covers i ts.length) (ht : t.IsLaid) (h : StandsAt ws i ts)
    (h' : StandsAt ws' j ts) : (t.placed j).written (ws'[·]?) = t.written (ws[·]?) := by
  have hfirst := hcovers.first_eq
  have hlast := hcovers.last_eq
  refine PieceTree.written_placed ht fun k hk => ?_
  rw [h' k (by omega), hfirst, h k (by omega)]

/-- An `if` statement as it is written. -/
theorem written_ifTree {ws : List (TokenKind × String)} {o : Option PieceTree}
    (us cs vs : List (TokenKind × String)) (h : ws = us ++ (ifWords cs ++ vs)) (hi : i = us.length)
    (hc : c.label.last + 1 = i + 2 + cs.length)
    (ho : ∀ _ ∈ o, ws[b.label.last + 1]? = some (.kwElse, "else")) :
    (ifTree i c b o).written (ws[·]?) = .branching (c.written (ws[·]?)) (b.written (ws[·]?))
      (o.map (written (ws[·]?))) := by
  obtain ⟨hif, hlparen, hrparen⟩ := getElem?_ifWords h hi
  rw [← hc] at hrparen
  rw [ifTree, written_node]
  cases o with
  | none =>
    simp [WrittenTree.branching, NodeKind.wording, NodeKind.moved, NodeKind.ownTokens,
      NodeKind.slots, hif, hlparen, hrparen]
  | some o =>
    simp [WrittenTree.branching, NodeKind.wording, NodeKind.moved, NodeKind.ownTokens,
      NodeKind.slots, hif, hlparen, hrparen, ho o rfl]

/-- A block of one statement as it is written. -/
theorem written_inBraces (hlbrace : word? i = some (.lBrace, "\x7b"))
    (hrbrace : word? (t.label.last + 1) = some (.rBrace, "\x7d")) :
    (inBraces i t).written word? = .braced (t.written word?) := by
  simp [inBraces, written_node, WrittenTree.braced, NodeKind.wording, NodeKind.moved,
    NodeKind.ownTokens, NodeKind.slots, hlbrace, hrbrace]

/-! ### The two statements -/

namespace IsSplit

variable {T : SplitTokens} {k : TokenKind} {old l x : PieceTree}

/-- **The second statement inside the first one** is written with the words of the old one. -/
theorem written_nested (h : IsSplit T.tokens T k old l x b other) (hl : l.IsLaid) (hx : x.IsLaid)
    (hb : b.IsLaid) :
    let ws := T.tokens.map Token.word
    (nested T.before.length T.left.length T.right.length l x b).written (T.nestedWords[·]?) =
      .branching (l.written (ws[·]?))
        (.braced (.branching (x.written (ws[·]?)) (b.written (ws[·]?)) none)) none := by
  intro ws
  let first := T.before.map Token.word ++ (ifWords (T.left.map Token.word) ++ [(.lBrace, "\x7b")])
  have hlength : first.length = T.before.length + 4 + T.left.length := by
    simp [first, ifWords]
    omega
  have hwords : T.nestedWords = first ++ (ifWords (T.right.map Token.word) ++
      (T.branch.map Token.word ++ (.rBrace, "\x7d") :: T.after.map Token.word)) := by
    simp [first, SplitTokens.nestedWords]
  -- the parts find their words
  have hleft : StandsAt T.nestedWords (T.before.length + 2) T.left :=
    standsAt_of_eq (T.before.map Token.word ++ [(.kwIf, "if"), (.lParen, "(")])
      ((.rParen, ")") :: (.lBrace, "\x7b") :: (ifWords (T.right.map Token.word) ++
        (T.branch.map Token.word ++ (.rBrace, "\x7d") :: T.after.map Token.word)))
      (by simp [SplitTokens.nestedWords, ifWords]) (by simp)
  have hright : StandsAt T.nestedWords (T.before.length + 6 + T.left.length) T.right :=
    standsAt_of_eq (first ++ [(.kwIf, "if"), (.lParen, "(")])
      ((.rParen, ")") :: (T.branch.map Token.word ++ (.rBrace, "\x7d") :: T.after.map Token.word))
      (by simp [hwords, ifWords]) (by simp [hlength]; omega)
  have hbranch : StandsAt T.nestedWords
      (T.before.length + 7 + T.left.length + T.right.length) T.branch :=
    standsAt_of_eq (first ++ ifWords (T.right.map Token.word))
      ((.rBrace, "\x7d") :: T.after.map Token.word) (by simp [hwords]) (by
        simp [hlength, ifWords]
        omega)
  -- where the parts end
  have hllast := (h.left.placed (T.before.length + 2)).last_eq
  have hxlast := (h.right.placed (T.before.length + 6 + T.left.length)).last_eq
  have hblast := (h.branch.placed (T.before.length + 7 + T.left.length + T.right.length)).last_eq
  rw [nested, written_ifTree (o := none) (T.before.map Token.word) (T.left.map Token.word)
      ((.lBrace, "\x7b") :: (ifWords (T.right.map Token.word) ++ (T.branch.map Token.word ++
        (.rBrace, "\x7d") :: T.after.map Token.word)))
      (by simp [SplitTokens.nestedWords]) (by simp) (by simpa using hllast) (by simp),
    written_inBraces (getElem?_behind (T.before.map Token.word ++ ifWords (T.left.map Token.word))
      (ifWords (T.right.map Token.word) ++ (T.branch.map Token.word ++
        (.rBrace, "\x7d") :: T.after.map Token.word)) (by simp [SplitTokens.nestedWords])
      (by simp [ifWords]; omega))
      (getElem?_behind (first ++ (ifWords (T.right.map Token.word) ++ T.branch.map Token.word))
        (T.after.map Token.word) (by simp [hwords]) (by
          rw [ifTree, Rose.label_node, Option.getD_none, hblast]
          simp [hlength, ifWords]
          omega)),
    written_ifTree (o := none) first (T.right.map Token.word)
      (T.branch.map Token.word ++ (.rBrace, "\x7d") :: T.after.map Token.word) hwords
      hlength.symm (by rw [hxlast, List.length_map]; omega) (by simp),
    h.left.written_placed hl T.standsAt_left hleft,
    h.right.written_placed hx T.standsAt_right hright,
    h.branch.written_placed hb T.standsAt_branch hbranch]
  rfl

/-- **The second statement after the first one** is written with the words of the old one. -/
theorem written_ladder (h : IsSplit T.tokens T k old l x b other) (hl : l.IsLaid) (hx : x.IsLaid)
    (hb : b.IsLaid) (ho : ∀ o ∈ other, o.IsLaid)
    (helse : ∀ _ ∈ other, (T.after.map Token.word).head? = some (.kwElse, "else")) :
    let ws := T.tokens.map Token.word
    (ladder T.before.length T.left.length T.right.length T.branch.length l x b other).written
        (T.ladderWords[·]?) =
      .branching (l.written (ws[·]?)) (b.written (ws[·]?))
        (some (.branching (x.written (ws[·]?)) (b.written (ws[·]?))
          (other.map (written (ws[·]?))))) := by
  intro ws
  let first := T.before.map Token.word ++ (ifWords (T.left.map Token.word) ++
    (T.branch.map Token.word ++ [(.kwElse, "else")]))
  have hlength : first.length = T.before.length + 4 + T.left.length + T.branch.length := by
    simp [first, ifWords]
    omega
  have hwords : T.ladderWords = first ++ (ifWords (T.right.map Token.word) ++
      (T.branch.map Token.word ++ T.after.map Token.word)) := by
    simp [first, SplitTokens.ladderWords]
  -- the parts find their words
  have hleft : StandsAt T.ladderWords (T.before.length + 2) T.left :=
    standsAt_of_eq (T.before.map Token.word ++ [(.kwIf, "if"), (.lParen, "(")])
      ((.rParen, ")") :: (T.branch.map Token.word ++ (.kwElse, "else") ::
        (ifWords (T.right.map Token.word) ++ (T.branch.map Token.word ++ T.after.map Token.word))))
      (by simp [SplitTokens.ladderWords, ifWords]) (by simp)
  have hbranch : StandsAt T.ladderWords (T.before.length + 3 + T.left.length) T.branch :=
    standsAt_of_eq (T.before.map Token.word ++ ifWords (T.left.map Token.word))
      ((.kwElse, "else") :: (ifWords (T.right.map Token.word) ++ (T.branch.map Token.word ++
        T.after.map Token.word))) (by simp [SplitTokens.ladderWords]) (by simp [ifWords]; omega)
  have hright : StandsAt T.ladderWords
      (T.before.length + 6 + T.left.length + T.branch.length) T.right :=
    standsAt_of_eq (first ++ [(.kwIf, "if"), (.lParen, "(")])
      ((.rParen, ")") :: (T.branch.map Token.word ++ T.after.map Token.word))
      (by simp [hwords, ifWords]) (by simp [hlength]; omega)
  have hbranch' : StandsAt T.ladderWords
      (T.before.length + 7 + T.left.length + T.branch.length + T.right.length) T.branch :=
    standsAt_of_eq (first ++ ifWords (T.right.map Token.word)) (T.after.map Token.word)
      (by simp [hwords]) (by simp [hlength, ifWords]; omega)
  have hother : (other.map fun o => o.placed (T.before.length + 8 + T.left.length +
      T.branch.length + T.right.length + T.branch.length)).map (written (T.ladderWords[·]?)) =
        other.map (written (ws[·]?)) := by
    rw [Option.map_map]
    refine Option.map_congr fun o hmem => ?_
    have hfirst := (h.other o hmem).1
    have hlast := h.branch.last_eq
    refine written_placed (ho o hmem) fun k _ => ?_
    have hnew := T.getElem?_ladderWords (k + 1)
    rw [← T.getElem?_after (k + 1)] at hnew
    convert hnew using 2 <;> omega
  -- where the parts end
  have hllast := (h.left.placed (T.before.length + 2)).last_eq
  have hblast := (h.branch.placed (T.before.length + 3 + T.left.length)).last_eq
  have hxlast := (h.right.placed (T.before.length + 6 + T.left.length + T.branch.length)).last_eq
  have hblast' := (h.branch.placed
    (T.before.length + 7 + T.left.length + T.branch.length + T.right.length)).last_eq
  have hfirstElse : T.ladderWords[T.before.length + 3 + T.left.length + T.branch.length]? =
      some (.kwElse, "else") :=
    getElem?_behind (T.before.map Token.word ++ (ifWords (T.left.map Token.word) ++
      T.branch.map Token.word)) (ifWords (T.right.map Token.word) ++ (T.branch.map Token.word ++
        T.after.map Token.word)) (by simp [SplitTokens.ladderWords]) (by simp [ifWords]; omega)
  have hsecondElse : ∀ _ ∈ other, T.ladderWords[T.before.length + 7 + T.left.length +
      T.branch.length + T.right.length + T.branch.length]? = some (.kwElse, "else") := by
    intro o hmem
    have hword := T.getElem?_ladderWords 0
    rwa [Nat.add_zero, ← List.head?_eq_getElem?, helse o hmem] at hword
  rw [ladder, written_ifTree (T.before.map Token.word) (T.left.map Token.word)
      (T.branch.map Token.word ++ (.kwElse, "else") :: (ifWords (T.right.map Token.word) ++
        (T.branch.map Token.word ++ T.after.map Token.word)))
      (by simp [SplitTokens.ladderWords]) (by simp) (by simpa using hllast)
      (fun _ _ => hblast ▸ hfirstElse), Option.map_some,
    written_ifTree first (T.right.map Token.word) (T.branch.map Token.word ++
      T.after.map Token.word) hwords hlength.symm (by rw [hxlast, List.length_map]; omega)
      (fun _ hmem => ?_), h.left.written_placed hl T.standsAt_left hleft,
    h.right.written_placed hx T.standsAt_right hright,
    h.branch.written_placed hb T.standsAt_branch hbranch,
    h.branch.written_placed hb T.standsAt_branch hbranch']
  · rw [hother]
  · obtain ⟨o, ho, rfl⟩ := Option.map_eq_some_iff.1 hmem
    rw [hblast', hsecondElse o ho]

/-- **Outside of the statement the words are the same ones.** -/
theorem getElem?_pushed {ws' us : List (TokenKind × String)} {d : Nat}
    (h : IsSplit T.tokens T k old l x b other) (hbefore : ws' = T.before.map Token.word ++ us)
    (hafter : ∀ m, ws'[T.before.length + 4 + T.left.length + T.right.length + T.branch.length + d +
      m]? = (T.after.map Token.word)[m]?) (hi : i < old.label.first ∨ old.label.last < i) :
    ws'[Twin.pushed T.before.length d i]? = (T.tokens.map Token.word)[i]? := by
  have hfirst := h.first_eq
  have hblast := h.branch.last_eq
  have hpos := h.branch.pos
  have hlast := h.last_le
  rcases hi with hi | hi
  · have hlt : i < (T.before.map Token.word).length := by
      rw [List.length_map]
      omega
    rw [Twin.pushed, if_pos (by omega), hbefore, SplitTokens.tokens, List.map_append,
      List.getElem?_append_left hlt, List.getElem?_append_left hlt]
  · obtain ⟨m, rfl⟩ := Nat.exists_eq_add_of_le (show T.before.length + 4 + T.left.length +
      T.right.length + T.branch.length ≤ i by omega)
    rw [Twin.pushed, if_neg (by omega), T.getElem?_after, ← hafter m]
    congr 1
    omega

end IsSplit

end PieceTree

namespace SourceCode

open PieceTree SyntaxTree

variable {c code : SourceCode} {old t u r : SyntaxTree} {T : SplitTokens} {k : TokenKind}
  {l x b new e : PieceTree} {other : Option PieceTree} {o : Nat}

/-- **A text with other words for a split statement is written as before**, except for this
statement. -/
theorem written_split {p : PieceTree} {ws us : List (TokenKind × String)} {d : Nat}
    (hlaid : p.IsLaid) (htree : c.tree = ofPieces p) (hmem : old ∈ c.tree.subtrees)
    (h : IsSplit c.tokens.toList T k old.toPieces l x b other)
    (hkey : old.label.kind.ifKeyword? = some T.before.length)
    (hwords : code.tokens.toList.map Token.word = ws) (hbefore : ws = T.before.map Token.word ++ us)
    (hafter : ∀ m, ws[T.before.length + 4 + T.left.length + T.right.length + T.branch.length + d +
      m]? = (T.after.map Token.word)[m]?)
    (hcode : code.tree = ofPieces (p.exchange (fun q => q.kind.ifKeyword? == some T.before.length)
      (Twin.pushed T.before.length d) new)) :
    code.written code.tree = c.writtenWith old (new.written (ws[·]?)) c.tree := by
  have hT : c.tokens.toList = T.tokens := h.tokens_eq
  have hcode? : code.word? = (ws[·]?) := funext fun i => by rw [word?_eq, hwords]
  rw [hT] at h
  have hfirst := h.first_eq
  have hlast := h.last_le
  have hblast := h.branch.last_eq
  have hpos := h.branch.pos
  rw [label_toPieces] at hfirst hlast
  rw [written_eq, hcode, toPieces_ofPieces, htree, hcode?]
  conv_lhs => rw [← toPieces_ofPieces p]
  refine written_exchange (isLaid_ofPieces hlaid) (fun u hu hid => ?_) ?_ (fun q hq => ?_)
    (.inl (htree ▸ hmem)) fun i hi => ?_
  · exact eq_of_id_eq (htree ▸ hmem) hu hid
  · simp [hkey]
  · refine ⟨T.before.length, ?_, by omega, by omega⟩
    cases hk : q.kind <;> simp [hk, NodeKind.ifKeyword?] at hq
    rw [hq]
    exact List.mem_cons_self
  · rw [word?_eq, hT]
    exact h.getElem?_pushed hbefore hafter (by rwa [label_toPieces])

theorem writtenWith_self {new : WrittenTree} : c.writtenWith u new u = new := by
  cases u
  rw [writtenWith_node]
  exact if_pos rfl

/-- A tree that a node is no part of is written as before. -/
theorem writtenWith_of_forall {new : WrittenTree}
    (h : ∀ v ∈ t.subtrees, v.label.id ≠ u.label.id) : c.writtenWith u new t = c.written t := by
  induction t using Rose.induct with
  | h n ts ih =>
    have hne : n.id ≠ u.label.id := h _ (Rose.self_mem_subtrees _)
    rw [writtenWith_node, if_neg hne, written_node]
    exact congrArg _ (List.map_congr_left fun v hv => ih v hv fun w hw =>
      h w (Rose.mem_subtrees_node.2 (.inl ⟨v, hv, hw⟩)))

/-- **What is left of a chain is written like the chain** with one operand in place of its last
expression. -/
theorem written_of_isRest (h : IsRest u.toPieces r.toPieces t.toPieces e) (hlaid : t.IsLaid)
    (hid : ∀ v ∈ t.subtrees, v.label.id = u.label.id → v = u) (hu : u ∈ t.subtrees)
    (hkind : u.label.kind = .binary o) : e.written c.word? = c.writtenWith u (c.written r) t := by
  generalize hU : u.toPieces = U at h
  generalize hR : r.toPieces = R at h
  generalize hP : t.toPieces = P at h
  induction h generalizing t with
  | refl =>
    obtain ⟨n, ts⟩ := t
    -- a part of the tree would not have its operator
    have hlabel : n.toPiece = u.label.toPiece := by
      rw [← label_toPieces u, hU, ← hP, label_toPieces]
      rfl
    obtain rfl : u = .node n ts := by
      by_contra hne
      have hown : o ∈ n.kind.ownTokens := by
        rw [show n.kind = .binary o from (congrArg Piece.kind hlabel).trans hkind]
        exact List.mem_singleton_self _
      have hwithin := (Rose.all_node.1 hlaid).1.own hown
      have hbeside := (hlaid.beside (.inl hu) hne).1 o hown
      have hfirst : n.first = u.label.first := congrArg Piece.first hlabel
      have hlast : n.last = u.label.last := congrArg Piece.last hlabel
      omega
    rw [writtenWith_self, ← hR, written_eq]
  | @step P l s e e' o' kind children kind' children' _ rest ih =>
    obtain ⟨n, ts⟩ := t
    obtain ⟨p', cs'⟩ := e'
    subst hP
    rw [toPieces_node] at kind children
    obtain ⟨t₁, ts, rfl, rfl, hts⟩ := List.map_eq_cons_iff.1 children
    obtain ⟨t₂, rfl, rfl⟩ := List.map_eq_singleton_iff.1 hts
    obtain rfl : cs' = [e, t₂.toPieces] := children'
    obtain ⟨hn, hts⟩ := Rose.all_node.1 hlaid
    have hlaid₁ : t₁.IsLaid := hts t₁ List.mem_cons_self
    have hlaid₂ : t₂.IsLaid := hts t₂ (by simp)
    -- the last expression is a part of the left operand
    obtain ⟨v, hv, hvu⟩ := List.mem_map.1 (subtrees_toPieces t₁ ▸ rest.mem_subtrees)
    have hlabel : v.label.toPiece = u.label.toPiece := by
      rw [← label_toPieces, ← label_toPieces, hvu, hU]
    have hfirst : v.label.first = u.label.first := congrArg Piece.first hlabel
    have hlast : v.label.last = u.label.last := congrArg Piece.last hlabel
    have hwithin := hlaid₁.subtree hv
    have hown : o' ∈ n.kind.ownTokens := by
      rw [show n.kind = .binary o' from kind]
      exact List.mem_singleton_self _
    obtain ⟨hlow, hhigh, hbeside⟩ := hn.own hown
    have hbeside₁ := hbeside t₁.label.toPiece (by simp)
    have hne : u ≠ .node n [t₁, t₂] := by
      rintro rfl
      simp only [Rose.label_node] at hfirst hlast
      omega
    have hplace := (hlaid.beside (.inl hu) hne).2
    have hu₁ : u ∈ t₁.subtrees := (hplace t₁ (by simp)).resolve_right (by
      simp only [Apart]
      omega)
    have hapart : t₁.label.last < t₂.label.first := by
      have hpairwise := List.pairwise_map.1 (List.pairwise_map.1 hn.pairwise)
      exact (List.pairwise_cons.1 hpairwise).1 t₂ (by simp)
    have hu₂ : u ∉ t₂.subtrees := fun hmem => by
      have := hlaid₂.subtree hmem
      omega
    have hsub {w : SyntaxTree} (ht : t₁ = w ∨ t₂ = w) :
        ∀ x ∈ w.subtrees, x ∈ (Rose.node n [t₁, t₂]).subtrees := fun x hx =>
      Rose.mem_subtrees_node.2 (.inl ⟨w, by rcases ht with rfl | rfl <;> simp, hx⟩)
    have hroot : n.id ≠ u.label.id := fun h =>
      hne (hid _ (Rose.self_mem_subtrees _) h).symm
    have hkinds : p'.kind = n.kind := kind'.trans (Eq.symm kind)
    rw [PieceTree.written_node, writtenWith_node, if_neg hroot, hkinds, List.map_cons,
      List.map_singleton, List.map_cons, List.map_singleton,
      ih hlaid₁ (fun x hx => hid x (hsub (.inl rfl) x hx)) hu₁ rfl,
      writtenWith_of_forall fun x hx h => hu₂ (hid x (hsub (.inr rfl) x hx) h ▸ hx), ← written_eq]

end SourceCode

end Mend
