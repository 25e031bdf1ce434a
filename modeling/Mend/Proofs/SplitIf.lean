import Mend.Proofs.OfferedFixes
import Mend.Proofs.SplitText
import Mend.Proofs.SplitTrees

/-!
# Splitting an `if` statement keeps its parts

The fix that splits an `if` statement at an operator of its condition makes two statements of it.
The text that it makes is read, and its tree is the one there was, except that the two statements
stand for the one.  Their conditions are the operands before the operator and those after it, and
their branches are those of the old statement.

There is one exception.  A second statement that is put after the first one begins with `else`.
When the old statement has no other branch and its branch ends open, that `else` goes to a statement
in the branch.

## Main definitions

* `SourceCode.nestedFor`, `SourceCode.ladderFor` — the two statements for `&&` and for `||`.
* `SourceCode.IsReadWith` — how a text is read in which another tree stands for a node.

## Main results

* `SourceCode.exists_split` — what a text with the words of two statements is read as.
* `Query.splitIf_exchanges_statement` — **the fix exchanges one statement for two.**
* `Query.exists_else_of_inner_statement` — an `else` that goes to a statement in the branch.
-/

namespace Mend

/-! ### Where the parts of a statement lie -/

/-- The tokens at both ends of a tree that covers some tokens. -/
theorem PieceTree.Covers.exists_ends {t : PieceTree} {i : Nat} {ts as : List Token}
    (us vs : List Token) (h : t.Covers i as.length) (hts : ts = us ++ (as ++ vs))
    (hi : i = us.length) : ∃ x ∈ as.head?, ∃ y ∈ as.getLast?,
      ts[t.label.first]? = some x ∧ ts[t.label.last]? = some y := by
  have hpos := h.pos
  have hne : as ≠ [] := List.ne_nil_of_length_pos hpos
  have hfirst := h.first_eq
  have hlast := h.last_eq
  refine ⟨as.head hne, List.head?_eq_some_head hne, as.getLast hne,
    List.getLast?_eq_some_getLast hne, ?_, ?_⟩
  · refine getElem?_behind us (as.tail ++ vs) ?_ (hfirst.trans hi)
    rw [hts, ← List.cons_append, List.cons_head_tail]
  · refine getElem?_behind (us ++ as.dropLast) vs ?_ ?_
    · rw [hts, List.append_assoc, ← List.singleton_append, ← List.append_assoc as.dropLast,
        List.dropLast_append_getLast]
    · rw [List.length_append, List.length_dropLast]
      omega

namespace SourceCode

open PieceTree SyntaxTree

variable {c : SourceCode} {t : Text}

/-- A tree begins and ends with the tokens at its ends. -/
theorem exists_ends {tree : SyntaxTree} {i : Nat} {as : List Token} (us vs : List Token)
    (h : tree.toPieces.Covers i as.length) (hts : c.tokens.toList = us ++ (as ++ vs))
    (hi : i = us.length) : ∃ x ∈ as.head?, ∃ y ∈ as.getLast?,
      c.spanOf tree = ⟨x.span.start, y.span.stop⟩ := by
  obtain ⟨x, hx, y, hy, hfirst, hlast⟩ := h.exists_ends us vs hts hi
  rw [label_toPieces] at hfirst hlast
  refine ⟨x, hx, y, hy, ?_⟩
  have hstart : c.startOf tree = x.span.start :=
    congrArg Span.start (tokenSpan_of_getElem? hfirst)
  have hstop : c.stopOf tree = y.span.stop := congrArg Span.stop (tokenSpan_of_getElem? hlast)
  rw [← hstart, ← hstop]
  rfl

variable {old condition branch u l r : SyntaxTree} {other : Option SyntaxTree} {k : TokenKind}
  {keyword lparen rparen operator q : Nat} {elseToken : Option Nat}

/-- The two statements, one inside the other, that are written for one whose condition is cut. -/
def nestedFor (c : SourceCode) (condition branch u l r : SyntaxTree) : WrittenTree :=
  .branching (c.written l)
    (.braced (.branching (c.writtenWith u (c.written r) condition) (c.written branch) none)) none

/-- The two statements, one after the other, that are written for one whose condition is cut. -/
def ladderFor (c : SourceCode) (condition branch : SyntaxTree) (other : Option SyntaxTree)
    (u l r : SyntaxTree) : WrittenTree :=
  .branching (c.written l) (c.written branch)
    (some (.branching (c.writtenWith u (c.written r) condition) (c.written branch)
      (other.map c.written)))

/-- A text has some words, and it is read as another text, except that another tree stands for a
node of that. -/
def IsReadWith (c : SourceCode) (t : Text) (words : List (TokenKind × String)) (old : SyntaxTree)
    (new : WrittenTree) : Prop :=
  ∃ code, ofText t = .ok code ∧ code.tokens.toList.map Token.word = words ∧
    code.written code.tree = c.writtenWith old new c.tree

/-- An `if` statement has one branch or two. -/
theorem exists_other_branch {rest : List SyntaxTree} (hc : ofText t = .ok c)
    (hmem : old ∈ c.tree.subtrees)
    (hkind : old.label.kind = .ifStatement keyword lparen rparen elseToken)
    (hchildren : old.children = condition :: branch :: rest) :
    ∃ o : Option SyntaxTree, rest = o.toList ∧ o.isSome = elseToken.isSome := by
  obtain ⟨L, p, -, hp, hceq⟩ := ofText_eq_ok_iff.1 hc
  have htree : c.tree = ofPieces p := by rw [hceq]
  have hmemp : old.toPieces ∈ p.subtrees :=
    toPieces_ofPieces p ▸ toPieces_mem_subtrees (htree ▸ hmem)
  obtain ⟨c', b', o', ho', hsome⟩ :=
    exists_branches hp hmemp (by rw [label_toPieces]; exact hkind)
  rw [children_toPieces, hchildren, List.map_cons, List.map_cons, List.cons.injEq,
    List.cons.injEq] at ho'
  obtain ⟨-, -, hrest⟩ := ho'
  cases o' with
  | none =>
    obtain rfl := List.map_eq_nil_iff.1 hrest
    exact ⟨none, rfl, hsome⟩
  | some o' =>
    obtain ⟨o, rfl, -⟩ := List.map_eq_singleton_iff.1 hrest
    exact ⟨some o, rfl, hsome⟩

/-- **What a text with the words of two statements is read as**, when they stand for a statement
whose condition is cut at an operator. -/
theorem exists_split (hc : ofText t = .ok c) (hmem : old ∈ c.tree.subtrees)
    (hkind : old.label.kind = .ifStatement keyword lparen rparen elseToken)
    (hchildren : old.children = condition :: branch :: other.toList)
    (hchain : condition.toPieces.OperandChain c.kindOf? k u.toPieces) (hu : u ∈ condition.subtrees)
    (hukind : u.label.kind = .binary operator) (hparts : u.children = [l, r])
    (hop : c.kindOf? operator = some k) (hq : k.precedence? = some q) :
    ∃ T x, IsSplit c.tokens.toList T k old.toPieces l.toPieces x branch.toPieces
        (other.map toPieces) ∧
      x.label.first = r.label.first ∧
      ∀ t' L', Lexed.ofText t' = .ok L' →
        (other = none → L'.tokens.map Token.word = T.nestedWords →
          c.IsReadWith t' T.nestedWords old (c.nestedFor condition branch u l r)) ∧
        ((other = none → branch.toPieces.endsOpen = false) →
          L'.tokens.map Token.word = T.ladderWords →
            c.IsReadWith t' T.ladderWords old (c.ladderFor condition branch other u l r)) := by
  obtain ⟨L, p, hL, hp, hceq⟩ := ofText_eq_ok_iff.1 hc
  have htokens : c.tokens.toList = L.tokens := by rw [hceq]
  have htree : c.tree = ofPieces p := by rw [hceq]
  have hmemp : old.toPieces ∈ p.subtrees :=
    toPieces_ofPieces p ▸ toPieces_mem_subtrees (htree ▸ hmem)
  have hkindOf : c.kindOf? = fun i => L.tokens[i]?.map (·.kind) := by
    funext i
    rw [kindOf?, ← Array.getElem?_toList, htokens]
  rw [hkindOf] at hchain hop
  have hkey : old.label.kind.ifKeyword? = some keyword := congrArg NodeKind.ifKeyword? hkind
  have hparts' : u.toPieces.children = [l.toPieces, r.toPieces] := by simp [hparts]
  have hchildren' : old.toPieces.children =
      condition.toPieces :: branch.toPieces :: (other.map toPieces).toList := by
    rw [children_toPieces, hchildren]
    cases other <;> rfl
  obtain ⟨T, x, hsplit, hrest, hx, hlength, -, hread⟩ :=
    exists_isSplit hp hmemp (by rw [label_toPieces]; exact hkey) hchildren' hchain
      (by simpa using hukind) hparts' hop hq
  have hT := hsplit.tokens_eq
  rw [← htokens] at hsplit
  -- the keywords are spelled as they are put into the text
  have hword : T.keyword.word = (.kwIf, "if") :=
    Lexed.word_of_keyword hL (by simp [hT, SplitTokens.tokens, SplitTokens.onward]) hsplit.keyword
      rfl (by decide)
  have helse : ∀ _ ∈ other.map toPieces,
      (T.after.map Token.word).head? = some (.kwElse, "else") := by
    intro o ho
    obtain ⟨-, e, he, hekind⟩ := hsplit.other o ho
    have hein : e ∈ L.tokens := by
      simp [hT, SplitTokens.tokens, SplitTokens.onward, List.mem_of_mem_head? he]
    rw [List.head?_map, he, Option.map_some,
      Lexed.word_of_keyword (s := "else") hL hein hekind rfl (by decide)]
  -- the parts are laid out
  have hlaid := (isLaid_of_ofTokens_eq_ok hp).1
  have hold := hlaid.of_mem hmemp
  have hpart {v : SyntaxTree} (hv : v ∈ old.children) : v.toPieces.IsLaid :=
    hold.of_mem (toPieces_mem_subtrees
      (Rose.mem_subtrees_of_mem_children (Rose.self_mem_subtrees old) hv))
  have hbranch : branch.toPieces.IsLaid := hpart (by simp [hchildren])
  have hcondition : condition.toPieces.IsLaid := hpart (by simp [hchildren])
  have hl : l.toPieces.IsLaid :=
    hcondition.of_mem
      (toPieces_mem_subtrees (Rose.mem_subtrees_of_mem_children hu (by simp [hparts])))
  have hother : ∀ o ∈ other.map toPieces, o.IsLaid := by
    rintro o ho
    obtain ⟨v, hv, rfl⟩ := Option.map_eq_some_iff.1 ho
    exact hpart (by simp [hchildren, hv])
  -- what is left of the condition
  have hcmem : condition ∈ c.tree.subtrees :=
    Rose.mem_subtrees_of_mem_children hmem (by simp [hchildren])
  have hxw : x.written c.word? = c.writtenWith u (c.written r) condition := by
    refine written_of_isRest hrest (fun v hv => ?_) (fun v hv => ?_) hu hukind
    · exact (htree ▸ isLaid_ofPieces hlaid : c.tree.IsLaid) v (Rose.subtrees_subset hcmem hv)
    · exact eq_of_id_eq_of_ofText hc (Rose.subtrees_subset hcmem hu)
        (Rose.subtrees_subset hcmem hv)
  have hword? : ((T.tokens.map Token.word)[·]?) = c.word? := by
    funext i
    rw [word?_eq, hsplit.tokens_eq]
  have hsplitT := hsplit.tokens_eq ▸ hsplit
  refine ⟨T, x, hsplit, hrest.first_eq.trans (by rw [label_toPieces]), fun t' L' hL' =>
    ⟨fun hnone hwords => ?_, fun hopen hwords => ?_⟩⟩
  · have hparse := (hread hword L'.tokens t'.length).1 (by rw [hnone]; rfl) hwords
    refine ⟨_, ofText_eq_ok_iff.2 ⟨L', _, hL', hparse, rfl⟩, by simpa using hwords, ?_⟩
    have hwritten := hsplitT.written_nested hl hx hbranch
    simp only [hword?, hlength, hxw, ← written_eq] at hwritten
    rw [nestedFor, ← hwritten]
    subst hlength
    refine written_split hlaid htree hmem hsplit hkey (by simpa using hwords) rfl (fun m => ?_) rfl
    rw [← T.getElem?_nestedWords m]
    congr 1
    omega
  · have hparse := (hread hword L'.tokens t'.length).2 (fun h => hopen (by simpa using h)) hwords
    refine ⟨_, ofText_eq_ok_iff.2 ⟨L', _, hL', hparse, rfl⟩, by simpa using hwords, ?_⟩
    have hwritten := hsplitT.written_ladder hl hx hbranch hother helse
    simp only [hword?, hlength, hxw, ← written_eq, Option.map_map, Function.comp_def] at hwritten
    rw [ladderFor, ← hwritten]
    subst hlength
    refine written_split hlaid htree hmem hsplit hkey (by simpa using hwords) rfl (fun m => ?_) rfl
    rw [← T.getElem?_ladderWords m]
    congr 1
    omega

/-- Where the parts of a statement begin and end. -/
theorem exists_split_ends {T : SplitTokens} {x : PieceTree} {o : Option PieceTree}
    (h : IsSplit c.tokens.toList T k old.toPieces l.toPieces x branch.toPieces o)
    (hkind : old.label.kind = .ifStatement keyword lparen rparen elseToken)
    (hx : x.label.first = r.label.first) :
    ∃ a ∈ T.left.head?, ∃ b ∈ T.left.getLast?, ∃ d ∈ T.right.head?, ∃ e ∈ T.branch.getLast?,
      c.startOf old = T.keyword.span.start ∧ c.spanOf l = ⟨a.span.start, b.span.stop⟩ ∧
      c.startOf r = d.span.start ∧ c.tokenSpan rparen = T.rparen.span ∧
      c.stopOf branch = e.span.stop := by
  have hT := h.tokens_eq
  rw [SplitTokens.tokens, SplitTokens.onward] at hT
  obtain ⟨a, ha, b, hb, hl⟩ := exists_ends (c := c) (T.before ++ [T.keyword, T.lparen])
    (T.operator :: (T.right ++ T.rparen :: (T.branch ++ T.after))) h.left (by simp [hT]) (by simp)
  obtain ⟨d, hd, _, -, hdfirst, -⟩ := PieceTree.Covers.exists_ends
    (T.before ++ T.keyword :: T.lparen :: (T.left ++ [T.operator]))
    (T.rparen :: (T.branch ++ T.after)) h.right
    (show c.tokens.toList = _ by simp [hT]) (by simp; omega)
  obtain ⟨_, -, e, he, hbranch⟩ := exists_ends (c := c)
    (T.before ++ T.keyword :: T.lparen :: (T.left ++ T.operator :: (T.right ++ [T.rparen])))
    T.after h.branch (by simp [hT]) (by simp; omega)
  have hkeyword : c.tokens.toList[old.label.first]? = some T.keyword :=
    getElem?_behind T.before _ hT (by simpa using h.first_eq)
  obtain ⟨elseToken', hkind'⟩ := h.kind_eq
  rw [label_toPieces] at hkind'
  obtain ⟨-, -, hrparen, -⟩ := NodeKind.ifStatement.inj (hkind.symm.trans hkind')
  have hparen : c.tokens.toList[rparen]? = some T.rparen := by
    refine getElem?_behind (T.before ++ T.keyword :: T.lparen :: (T.left ++ T.operator :: T.right))
      (T.branch ++ T.after) (by simp [hT]) ?_
    simp
    omega
  refine ⟨a, ha, b, hb, d, hd, e, he, congrArg Span.start (tokenSpan_of_getElem? hkeyword), hl, ?_,
    tokenSpan_of_getElem? hparen, congrArg Span.stop hbranch⟩
  rw [hx] at hdfirst
  exact congrArg Span.start (tokenSpan_of_getElem? hdfirst)

end SourceCode

/-! ### The fix -/

namespace Query

open SourceCode PieceTree SyntaxTree Change Scrap

variable {q : Query} {p : SplitPoint} {hasElse : Bool} {seen : Option TokenKind}

/-- All operators up to the one that is found are of one kind, and both operands are those of the
last expression. -/
theorem exists_operandChain {ts : List (SyntaxTree × Nat)}
    (h : q.splitPoint? hasElse seen ts = some p)
    (hchain : (ts.map Prod.fst).IsChain fun u v => v ∈ u.children) :
    ∃ (k : TokenKind) (u : SyntaxTree) (operator : Nat), (∀ k' ∈ seen, k = k') ∧
      (seen = none → k = .ampAmp ∧ hasElse = false ∨ k = .pipePipe) ∧ p.isAnd = (k == .ampAmp) ∧
      u.label.kind = .binary operator ∧ u.children = [p.left, p.right] ∧
      q.file.kindOf? operator = some k ∧ q.isOnToken operator = true ∧
      ∀ t ∈ (ts.map Prod.fst).head?, u ∈ t.subtrees ∧
        t.toPieces.OperandChain q.file.kindOf? k u.toPieces := by
  induction ts generalizing seen with
  | nil => cases h
  | cons n ts ih =>
    obtain ⟨u, depth⟩ := n
    unfold splitPoint? at h
    split at h
    next operator left right hkind hchildren =>
      split at h
      next => cases h
      next k hk =>
        dsimp only at h
        obtain ⟨hsuits, h⟩ := Option.ite_none_left_eq_some.1 h
        replace hsuits : (∀ k' ∈ seen, k = k') ∧
            (seen = none → k = .ampAmp ∧ hasElse = false ∨ k = .pipePipe) := by
          cases seen with
          | none => exact ⟨by simp, fun _ => by simpa [or_iff_not_imp_left, not_and_or] using hsuits⟩
          | some k' => exact ⟨by simpa using hsuits, by simp⟩
        split at h
        next hon =>
          -- the query is about this operator
          cases h
          refine ⟨k, u, operator, hsuits.1, hsuits.2, rfl, hkind, hchildren, hk, hon, ?_⟩
          rintro _ ⟨⟩
          exact ⟨Rose.self_mem_subtrees u, .refl _⟩
        next =>
          obtain ⟨hchild, hchain⟩ := List.isChain_cons.1 hchain
          obtain ⟨k', v, operator', hseen, -, hand, hkind', hchildren', hk', hon', hhead⟩ :=
            ih h hchain
          obtain rfl : k' = k := hseen k rfl
          refine ⟨k', v, operator', hsuits.1, hsuits.2, hand, hkind', hchildren', hk', hon', ?_⟩
          rintro _ ⟨⟩
          cases ts with
          | nil => cases h
          | cons n ts =>
            obtain ⟨hv, hchain⟩ := hhead n.1 rfl
            have hchild : n.1 ∈ u.children := hchild n.1 rfl
            exact ⟨Rose.subtrees_subset (Rose.mem_subtrees_of_mem_children
                (Rose.self_mem_subtrees u) hchild) hv,
              .step (by rw [label_toPieces]; exact hkind)
                (by rw [children_toPieces]; exact List.mem_map_of_mem hchild) hk hchain⟩
    next => cases h

/-- **The fix exchanges one `if` statement for two.**  The text that it makes is read, and its tree
is written as before, but for the two statements in place of the one.  For `&&` the second statement
stands in braces in the first one, and for `||` it is the other branch of it; that is left open when
there is one branch and it ends open. -/
theorem splitIf_exchanges_statement {x : Fix} (hx : x ∈ q.fixes) (hkind : x.kind = .splitIf) :
    ∃ (t condition branch u l r : SyntaxTree) (other : Option SyntaxTree) (depth operator : Nat)
      (k : TokenKind) (T : SplitTokens) (y : PieceTree) (changes : ChangeSet) (text : Text),
      (q.outward.find? fun n => n.1.label.kind.isIf) = some (t, depth) ∧
      t.children = condition :: branch :: other.toList ∧
      u ∈ condition.subtrees ∧ u.label.kind = .binary operator ∧ u.children = [l, r] ∧
      q.file.kindOf? operator = some k ∧ q.isOnToken operator = true ∧
      IsSplit q.file.tokens.toList T k t.toPieces l.toPieces y branch.toPieces
        (other.map toPieces) ∧ y.label.first = r.label.first ∧
      x.patch = .ok (NameMap.empty.insert q.file.path
        { changes, reindent := [q.file.spanOf t] }) ∧
      changes.applyTo q.file.text = .ok text ∧
      ((k = .ampAmp ∧ other = none ∧ q.file.IsReadWith text T.nestedWords t
          (q.file.nestedFor condition branch u l r)) ∨
        k = .pipePipe ∧ ((other = none → branch.toPieces.endsOpen = false) →
          q.file.IsReadWith text T.ladderWords t
            (q.file.ladderFor condition branch other u l r))) := by
  have hproposed := (exists_of_mem_fixes hx).1
  rw [hkind] at hproposed
  obtain ⟨t, depth, keyword, lparen, rparen, elseToken, condition, branch, rest, p, hfind, hif,
    hchildren, hp, hproposal⟩ := exists_of_mem_splitIf hproposed
  have ht := List.mem_of_find?_eq_some hfind
  have hmem := mem_subtrees_of_mem_outward ht
  have hreading := q.file.isReading
  obtain ⟨other, rfl, hother⟩ := exists_other_branch hreading hmem hif hchildren
  obtain ⟨below, hbelow, hchain⟩ := exists_below ht (by rw [hif]; rfl) hchildren hp
  obtain ⟨k, u, operator, -, hk, hand, hukind, hparts, hop, hon, hhead⟩ :=
    exists_operandChain hp (hbelow ▸ hchain)
  obtain ⟨hu, hoperands⟩ := hhead condition (by rw [hbelow]; rfl)
  replace hk := hk rfl
  obtain ⟨level, hlevel⟩ : ∃ level, k.precedence? = some level := by
    rcases hk with ⟨rfl, -⟩ | rfl
    · exact ⟨_, rfl⟩
    · exact ⟨_, rfl⟩
  -- the statement among the tokens, and among the pieces of the text
  obtain ⟨T, y, hsplit, hy, hread⟩ :=
    exists_split hreading hmem hif hchildren hoperands hu hukind hparts hop hlevel
  obtain ⟨a, ha, b, hb, d, hd, e, he, hstart, hl, hr, hrp, hbstop⟩ :=
    exists_split_ends hsplit hif hy
  obtain ⟨L, pieces, hL, -, hceq⟩ := ofText_eq_ok_iff.1 hreading
  have htokens : L.tokens = T.tokens := by
    rw [← hsplit.tokens_eq, hceq]
  obtain ⟨P, hP⟩ := SplitPieces.exists_spells hL htokens hsplit.keyword hsplit.lparen hsplit.rparen
    (List.ne_nil_of_length_pos hsplit.left.pos) (List.ne_nil_of_length_pos hsplit.right.pos)
    (List.ne_nil_of_length_pos hsplit.branch.pos)
  have hlstop : q.file.stopOf p.left = b.span.stop := congrArg Span.stop hl
  -- the changes
  have horder := split_order ht hif hchildren hp
  have hfit : Fit (if p.isAnd then q.splitAnd t p else q.splitOr rparen branch p)
      q.file.text.length := by
    split
    · exact fit_splitAnd hmem horder
    · exact fit_splitOr hmem horder
  obtain ⟨changes, hchanges, happly⟩ := ChangeSet.exists_applyTo_eq_weave hfit
  refine ⟨t, condition, branch, u, p.left, p.right, other, depth, operator, k, T, y, changes, _,
    hfind, hchildren, hu, hukind, hparts, hop, hon, hsplit, hy, ?_, happly, ?_⟩
  · rw [hproposal, patch_propose, Patch.ofChanges, hchanges]
  rcases hk with ⟨rfl, hnone⟩ | rfl
  · obtain rfl : other = none := by simpa [hnone] using hother
    obtain ⟨L', hL', hwords⟩ := Lexed.exists_ofText_splitAnd hP ha hb hd he
    have hstop : q.file.stopOf t = e.span.stop := by
      have hlast := hsplit.last_eq rfl
      rw [label_toPieces, label_toPieces] at hlast
      rw [← hbstop, stopOf, stopOf]
      exact congrArg _ hlast
    refine .inl ⟨rfl, rfl, (hread _ L' ?_).1 rfl hwords⟩
    rw [if_pos (by rw [hand]; rfl), splitAnd, hl, hstart, hr, hstop, hlstop]
    exact hL'
  · let separator : Scrap := if branch.label.kind.isBlock then space else lineBreak
    have hseparator : separator = space ∨ separator = lineBreak := ite_eq_or_eq _ _ _
    have htext : (if branch.label.kind.isBlock then " " else "\n").toList = separator.text := by
      dsimp only [separator]
      split <;> rfl
    obtain ⟨L', hL', hwords⟩ := Lexed.exists_ofText_splitOr hP hseparator hb hd he
    refine .inr ⟨rfl, fun hopen => (hread _ L' ?_).2 hopen hwords⟩
    have hparen : q.file.tokenStart rparen = T.rparen.span.start := congrArg Span.start hrp
    have hparen' : q.file.tokenStop rparen = T.rparen.span.stop := congrArg Span.stop hrp
    rw [if_neg (by rw [hand]; decide), splitOr, hbstop, hr, hlstop, hparen, hparen', htext]
    exact hL'

/-- Of `if(a||b)c();` the fix makes `if(a)c();` and, behind an `else`, `if (b)c();`, and so it is
read. -/
theorem splitIf_exchanges_statement_of_call :
    let t : Text := "void f()\x7bif(a||b)c();\x7d".toList
    let split : Text := "void f()\x7bif(a)c();\nelse if (b)c();\x7d".toList
    ∃ f, ParsedFile.parse "a.cpp" 0 t = .ok f ∧
      let q : Query := ⟨Snapshot.add .empty f, f, {}, 14, none⟩
      ∃ x ∈ q.fixes, x.kind = .splitIf ∧ ∃ p changes, x.patch = .ok p ∧
        (p.find? "a.cpp").map (·.changes) = some changes ∧ changes.applyTo t = .ok split ∧
        ∃ T old condition branch u l r, f.IsReadWith split (SplitTokens.ladderWords T) old
          (f.ladderFor condition branch none u l r) := by
  intro t split
  let textOf (x : Fix) : Option Text := x.patch.toOption.bind fun p =>
    ((p.find? "a.cpp").map (·.changes)).bind fun c => (c.applyTo t).toOption
  have hread : (ParsedFile.parse "a.cpp" 0 t).map (fun f => (f.path, f.text)) =
      .ok ("a.cpp", t) := by decide +kernel
  have hoffered : (ParsedFile.parse "a.cpp" 0 t).map (fun f =>
      ((Query.mk (Snapshot.add .empty f) f {} 14 none).fixes.filter (·.kind = .splitIf)).map textOf)
        = .ok [some split] := by decide +kernel
  -- there is no `&&`, the statement has one branch, and that does not end open
  have hshape : (ParsedFile.parse "a.cpp" 0 t).map (fun f => (f.tokens.any (·.kind == .ampAmp),
      f.tree.subtrees.all fun s => !s.label.kind.isIf || (s.children.length == 2 &&
        s.children.all fun b => !(toPieces b).endsOpen))) = .ok (false, true) := by decide +kernel
  rcases hparse : ParsedFile.parse "a.cpp" 0 t with e | f
  · rw [hparse] at hread
    cases hread
  rw [hparse] at hread hoffered hshape
  obtain ⟨hpath, htext⟩ : f.path = "a.cpp" ∧ f.text = t := by simpa [Except.map] using hread
  refine ⟨f, rfl, ?_⟩
  intro q
  obtain ⟨x, hfixes, hx⟩ := List.map_eq_singleton_iff.1 (Except.ok.inj hoffered)
  obtain ⟨hmem, hkind⟩ := List.mem_filter.1 (hfixes ▸ List.mem_singleton_self x)
  replace hkind : x.kind = .splitIf := of_decide_eq_true hkind
  obtain ⟨old, condition, branch, u, l, r, other, depth, operator, k, T, y, changes, text, hfind,
    hchildren, -, -, -, hop, -, -, -, hpatch, happly, hcases⟩ :=
      splitIf_exchanges_statement hmem hkind
  obtain ⟨hnone, hall⟩ := Prod.mk.inj (Except.ok.inj hshape)
  -- the statement is the only one
  have hold : old ∈ f.tree.subtrees :=
    mem_subtrees_of_mem_outward (List.mem_of_find?_eq_some hfind)
  have hif : old.label.kind.isIf = true := by simpa using List.find?_some hfind
  have hparts := List.all_eq_true.1 hall old hold
  rw [hif, hchildren] at hparts
  obtain rfl : other = none := by
    cases other with
    | none => rfl
    | some o => simp at hparts
  have hopen : branch.toPieces.endsOpen = false := by
    simp at hparts
    exact hparts.2
  have hbars : k ≠ .ampAmp := by
    rintro rfl
    obtain ⟨tok, htok, hk⟩ := Option.map_eq_some_iff.1 hop
    exact Array.any_eq_false'.1 hnone tok (Array.mem_of_getElem? htok) (beq_iff_eq.2 hk)
  obtain ⟨rfl, hread'⟩ := (hcases.resolve_left fun h => hbars h.1)
  have hfound (c : FileChange) : (NameMap.empty.insert q.file.path c).find? "a.cpp" = some c :=
    hpath ▸ NameMap.find?_insert_self _ _ _
  -- the text is the one that was computed
  rw [show q.file.text = t from htext] at happly
  obtain rfl : text = split := by
    simpa [textOf, hpatch, Except.toOption, hfound, happly, q] using hx
  exact ⟨x, hmem, hkind, _, changes, hpatch, by rw [hfound, Option.map_some], happly, T, old,
    condition, branch, u, l, r, hread' fun _ => hopen⟩

/-- The branch of `if(a||b)if(c)d();` ends open, and the `else` that the fix puts behind it goes to
the `if` statement in the branch. -/
theorem exists_else_of_inner_statement :
    let t : Text := "void f()\x7bif(a||b)if(c)d();\x7d".toList
    let split : Text := "void f()\x7bif(a)if(c)d();\nelse if (b)if(c)d();\x7d".toList
    ∃ f, ParsedFile.parse "a.cpp" 0 t = .ok f ∧
      let q : Query := ⟨Snapshot.add .empty f, f, {}, 14, none⟩
      (∃ x ∈ q.fixes, x.kind = .splitIf ∧ ∃ p changes, x.patch = .ok p ∧
        (p.find? "a.cpp").map (·.changes) = some changes ∧ changes.applyTo t = .ok split) ∧
      ∃ code, ofText split = .ok code ∧
        (∀ s ∈ code.tree.subtrees, s.label.kind.ifKeyword? = some 5 → s.children.length = 2) ∧
        ∃ s ∈ code.tree.subtrees, s.label.kind.ifKeyword? = some 9 ∧ s.children.length = 3 := by
  intro t split
  obtain ⟨f, hparse, x, hmem, hkind, hx⟩ : ∃ f, ParsedFile.parse "a.cpp" 0 t = .ok f ∧
      ∃ x ∈ (⟨Snapshot.add .empty f, f, {}, 14, none⟩ : Query).fixes, x.kind = .splitIf ∧
        x.patch.map (fun p => (p.find? "a.cpp").map fun c => c.changes.applyTo t) =
          .ok (some (.ok split)) :=
    exists_of_map_decide (by decide +kernel)
  refine ⟨f, hparse, ⟨x, hmem, hkind, ?_⟩, exists_of_map_decide (by decide +kernel)⟩
  rcases hpatch : x.patch with e | p
  · rw [hpatch] at hx
    cases hx
  rw [hpatch] at hx
  obtain ⟨c, hc, happly⟩ := Option.map_eq_some_iff.1 (Except.ok.inj hx)
  exact ⟨p, c.changes, rfl, by rw [hc, Option.map_some], happly⟩

end Query

end Mend
