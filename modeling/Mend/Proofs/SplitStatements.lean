import Mend.Proofs.SplitConditions
import Mend.Proofs.WrittenTrees

/-!
# Files with a split statement

The tokens of an `if` statement whose condition is cut at an operator fall into those before the
operator and those after it, those of the branch, and what comes before and after the statement.
They are all that is needed to write the two statements that can stand for it.  The file with either
of them is read as before, but for the two statements in place of the one.

## Main definitions

* `SplitTokens` — the tokens of a file around an operator in the condition of an `if` statement.
* `SplitTokens.nestedWords`, `SplitTokens.ladderWords` — the words with two statements for one.
* `PieceTree.IsSplit` — where the parts of the statement lie.

## Main results

* `PieceTree.ofTokens_of_isStatement` — a file with other tokens for those of an `if` statement.
* `PieceTree.exists_branches` — an `if` statement of a file has a condition and one or two branches.
* `PieceTree.exists_isCut` — an `if` statement of a file was read over the parts of its condition.
* `PieceTree.exists_isSplit` — **a file with two statements for one is read with the tree of both in
  place of the one.**
-/

namespace Mend

/-- The tokens of a file around an operator in the condition of an `if` statement. -/
structure SplitTokens where
  /-- Those before the statement. -/
  before : List Token
  /-- Its keyword. -/
  keyword : Token
  /-- The parenthesis before the condition. -/
  lparen : Token
  /-- The operands before the operator. -/
  left : List Token
  /-- The operator. -/
  operator : Token
  /-- The operands after the operator. -/
  right : List Token
  /-- The parenthesis after the condition. -/
  rparen : Token
  /-- The branch. -/
  branch : List Token
  /-- Those after the branch, among them the ones of another branch. -/
  after : List Token

/-- The words before a branch, when those of the condition are known. -/
def ifWords (condition : List (TokenKind × String)) : List (TokenKind × String) :=
  (.kwIf, "if") :: (.lParen, "(") :: (condition ++ [(.rParen, ")")])

namespace SplitTokens

variable (T : SplitTokens)

/-- Those from the keyword on. -/
def onward : List Token :=
  T.keyword :: T.lparen :: (T.left ++ T.operator :: (T.right ++ T.rparen :: (T.branch ++ T.after)))

/-- All of the tokens. -/
def tokens : List Token := T.before ++ T.onward

/-- The words with the second statement in braces as the branch of the first one. -/
def nestedWords : List (TokenKind × String) :=
  T.before.map Token.word ++ (ifWords (T.left.map Token.word) ++ (.lBrace, "\x7b") ::
    (ifWords (T.right.map Token.word) ++ (T.branch.map Token.word ++ (.rBrace, "\x7d") ::
      T.after.map Token.word)))

/-- The words with the second statement as the other branch of the first one. -/
def ladderWords : List (TokenKind × String) :=
  T.before.map Token.word ++ (ifWords (T.left.map Token.word) ++ (T.branch.map Token.word ++
    (.kwElse, "else") :: (ifWords (T.right.map Token.word) ++ (T.branch.map Token.word ++
      T.after.map Token.word))))

end SplitTokens

namespace PieceTree

open Parse TokenStream

variable {ts : List Token} {T : SplitTokens} {k : TokenKind} {t old c u l r x b : PieceTree}
  {other : Option PieceTree} {length length' : Nat}

/-- The parts of an `if` statement whose condition is cut at an operator lie where their tokens
are. -/
structure IsSplit (ts : List Token) (T : SplitTokens) (k : TokenKind) (old l x b : PieceTree)
    (other : Option PieceTree) : Prop where
  /-- The tokens. -/
  tokens_eq : ts = T.tokens
  /-- The statement begins with its keyword. -/
  keyword : T.keyword.kind = .kwIf
  /-- A parenthesis comes next. -/
  lparen : T.lparen.kind = .lParen
  /-- The operator is one of those that join the operands. -/
  operator : T.operator.kind = k
  /-- Another parenthesis comes after the condition. -/
  rparen : T.rparen.kind = .rParen
  /-- The keyword and the parentheses are those of the statement. -/
  kind_eq : ∃ elseToken, old.label.kind = .ifStatement T.before.length (T.before.length + 1)
    (T.before.length + 3 + T.left.length + T.right.length) elseToken
  /-- The statement begins behind what is before it. -/
  first_eq : old.label.first = T.before.length
  /-- What is before the operator is its left operand. -/
  left : l.Covers (T.before.length + 2) T.left.length
  /-- What is after the operator are operands, too. -/
  right : x.Covers (T.before.length + 3 + T.left.length) T.right.length
  /-- The branch. -/
  branch : b.Covers (T.before.length + 4 + T.left.length + T.right.length) T.branch.length
  /-- The statement ends with it, or further on. -/
  last_le : b.label.last ≤ old.label.last
  /-- When there is no other branch, the statement ends with this one. -/
  last_eq : other = none → old.label.last = b.label.last
  /-- The other branch begins behind a keyword. -/
  other : ∀ o ∈ other, o.label.first = b.label.last + 2 ∧ ∃ e ∈ T.after.head?, e.kind = .kwElse

open Twin in
/-- **A file with other tokens for those of an `if` statement** is read with another tree for it,
when these tokens are read as that tree. -/
theorem ofTokens_of_isStatement {pre pre' rest us post : List Token} {ki ki' : Token} {n n' d : Nat}
    {new : PieceTree} {e : TokenStream} (ht : ofTokens (pre ++ ki :: rest) length = .ok t)
    (hmem : old ∈ t.subtrees)
    (hold : (Grammar.forTokens n).statement.Yields ⟨ki :: rest, pre.length, length⟩ old e)
    (hpre : List.Forall₂ Token.Same pre pre') (hki : ki.kind = .kwIf) (hsame : ki.Same ki')
    (hpost : List.Forall₂ Token.Same e.rest post)
    (hnew : IsStatement n' pre.length (ki' :: us) post new)
    (hlength : pre.length + (us.length + 1) = e.position + d) (length' : Nat) :
    ofTokens (pre' ++ ki' :: (us ++ post)) length' =
      .ok (t.exchange (fun p => p.kind.ifKeyword? == some pre.length) (pushed pre.length d)
        new) := by
  let S : Site :=
    { position := pre.length
      tokens := ki :: rest
      tokens' := ki' :: (us ++ post)
      textLength := length
      textLength' := length'
      nonempty := List.cons_ne_nil _ _
      alike := .stop _ _ hsame (by simp [hki, TokenKind.endsLook]) }
  obtain ⟨-, hkey, -⟩ := statement_of_kwIf (s := S.start) (congrArg some hki) hold
  obtain ⟨e', hnew, hrest, hposition⟩ := hnew S.start' rfl rfl
  refine ofTokens_exchange_statement (S := S) (D := n') hpre rfl ht hmem hkey fun m e₁ h => ?_
  obtain ⟨-, rfl⟩ := statement_unique h hold
  refine ⟨e', statement_yields_of_le (Nat.le_add_left _ _) hnew, hrest ▸ hpost, ?_⟩
  rw [hposition, ← hlength, List.length_cons]

open Twin in
/-- An `if` statement of a file was read from its keyword on. -/
theorem exists_statement_at {keyword : Nat} (ht : ofTokens ts length = .ok t)
    (hmem : old ∈ t.subtrees) (hkey : old.label.kind.ifKeyword? = some keyword) :
    ∃ pre rest n e, ts = pre ++ rest ∧ pre.length = keyword ∧
      next? ⟨rest, pre.length, length⟩ = some .kwIf ∧
      (Grammar.forTokens n).statement.Yields ⟨rest, pre.length, length⟩ old e := by
  obtain ⟨e₀, he₀⟩ := ofTokens_eq_ok_iff.1 ht
  obtain ⟨hlaid, -, -, hlast⟩ := isLaid_of_ofTokens_eq_ok ht
  have hwithin := hlaid.within hmem
  have hbounds := (hlaid.of_mem hmem).ifKeyword?_bounds hkey
  -- the tokens from the keyword on
  obtain ⟨pre, rest, rfl, rfl⟩ : ∃ pre rest, ts = pre ++ rest ∧ pre.length = keyword :=
    ⟨ts.take keyword, ts.drop keyword, (List.take_append_drop _ _).symm,
      List.length_take_of_le (by omega)⟩
  have hnonempty : rest ≠ [] := by
    rintro rfl
    rw [List.append_nil] at hlast
    omega
  let S : Site :=
    { position := pre.length
      tokens := rest
      tokens' := rest
      textLength := length
      textLength' := length
      nonempty := hnonempty
      alike := .of_forall₂ (List.forall₂_same.2 fun _ _ => ⟨rfl, rfl⟩) }
  have hahead : S.IsAhead ⟨pre ++ rest, 0, length⟩ ⟨pre ++ rest, 0, length⟩ :=
    ⟨⟨pre, pre, rfl, rfl, List.forall₂_same.2 fun _ _ => ⟨rfl, rfl⟩, Nat.zero_add _⟩, rfl, rfl,
      rfl⟩
  obtain ⟨n, e, h⟩ := exists_statement_yields hahead he₀ hmem hkey
  exact ⟨pre, rest, _, e, rfl, rfl, next?_of_ifKeyword? hahead he₀ hmem hkey, h⟩

/-- What an `if` statement is read as has a condition and a branch, and another branch behind a
keyword. -/
theorem branches_ensures_children {g : Grammar} {s : TokenStream} {keyword lparen rparen : Nat} :
    (branches g keyword lparen rparen c).Ensures s fun t _ => ∃ b o e,
      t.children = c :: b :: Option.toList o ∧
      t.label.kind = .ifStatement keyword lparen rparen e ∧ o.isSome = e.isSome := by
  intro t e h
  rcases branches_yields_iff.1 h with h | ⟨h, -⟩
  · obtain ⟨b, m, o, -, -, -, rfl⟩ := twoBranches_yields_iff.1 h
    exact ⟨b, some o, some m.position, rfl, rfl, rfl⟩
  · obtain ⟨b, -, rfl⟩ := oneBranch_yields_iff.1 h
    exact ⟨b, none, none, rfl, rfl, rfl⟩

/-- **An `if` statement of a file has a condition and one or two branches.** -/
theorem exists_branches {keyword lparen rparen : Nat} {elseToken : Option Nat}
    (ht : ofTokens ts length = .ok t) (hmem : old ∈ t.subtrees)
    (hkind : old.label.kind = .ifStatement keyword lparen rparen elseToken) :
    ∃ c b o, old.children = c :: b :: Option.toList o ∧ o.isSome = elseToken.isSome := by
  obtain ⟨pre, rest, n, e, -, -, hif, h⟩ :=
    exists_statement_at ht hmem (congrArg NodeKind.ifKeyword? hkind)
  cases n with
  | zero => exact (fail_ensures (Q := fun _ _ => False) _ old e h).elim
  | succ n =>
    obtain ⟨c, m, -, -, -, h⟩ := (statement_yields_iff_of_kwIf hif).1 h
    obtain ⟨b, o, elseToken', hchildren, hkind', ho⟩ := branches_ensures_children old e h
    obtain ⟨-, -, -, rfl⟩ := NodeKind.ifStatement.inj (hkind.symm.trans hkind')
    exact ⟨c, b, o, hchildren, ho⟩

/-- **An `if` statement of a file was read over the parts of its condition**, when that is a chain
of operands. -/
theorem exists_isCut {keyword o q : Nat} (ht : ofTokens ts length = .ok t)
    (hmem : old ∈ t.subtrees) (hkey : old.label.kind.ifKeyword? = some keyword)
    (hc : old.children.head? = some c)
    (hchain : c.OperandChain (fun i => ts[i]?.map (·.kind)) k u)
    (hkind : u.label.kind = .binary o) (hparts : u.children = [l, r])
    (ho : ts[o]?.map (·.kind) = some k) (hq : k.precedence? = some q) :
    ∃ pre n n₀ x ki lp op rp ls rs m e, pre.length = keyword ∧
      ts = pre ++ ki :: lp :: (ls ++ op :: (rs ++ rp :: m.rest)) ∧
      (Grammar.forTokens n).statement.Yields
        ⟨ki :: lp :: (ls ++ op :: (rs ++ rp :: m.rest)), pre.length, length⟩ old e ∧
      IsCut n₀ ⟨ki :: lp :: (ls ++ op :: (rs ++ rp :: m.rest)), pre.length, length⟩ old c l x k
        ki lp op rp ls rs m e ∧
      IsRest u r c x ∧ o = pre.length + 2 + ls.length := by
  obtain ⟨pre, rest, n, e, rfl, rfl, hif, h⟩ := exists_statement_at ht hmem hkey
  have hfound : TokenKind.FoundAt (fun i => (pre ++ rest)[i]?.map (·.kind)) pre.length
      (rest.map (·.kind)) := by
    intro j _
    dsimp only
    rw [List.getElem?_append_right (Nat.le_add_right _ _), Nat.add_sub_cancel_left,
      List.getElem?_map]
  obtain ⟨n₀, x, ki, lp, op, rp, ls, rs, m, rfl, hcut, hrest, hposition⟩ :=
    exists_cut hif h hc hfound hchain hkind hparts ho hq
  obtain rfl : rest = _ := hcut.rest
  exact ⟨pre, _, n₀, x, ki, lp, op, rp, ls, rs, m, e, rfl, rfl, h, hcut, hrest, hposition⟩

/-! ### Words -/

/-- The tokens of a condition and the keyword before it, when their words are known. -/
theorem exists_of_ifWords {ws vs : List (TokenKind × String)}
    (h : ts.map Token.word = ifWords ws ++ vs) : ∃ ki lp cs rp us,
      ts = ki :: lp :: (cs ++ rp :: us) ∧ ki.word = (.kwIf, "if") ∧ lp.kind = .lParen ∧
      cs.map Token.word = ws ∧ rp.kind = .rParen ∧ us.map Token.word = vs := by
  rw [ifWords, List.cons_append, List.cons_append, List.append_assoc] at h
  obtain ⟨ki, us, rfl, hki, h⟩ := List.map_eq_cons_iff.1 h
  obtain ⟨lp, us, rfl, hlp, h⟩ := List.map_eq_cons_iff.1 h
  obtain ⟨cs, us, rfl, hcs, h⟩ := List.map_eq_append_iff.1 h
  obtain ⟨rp, us, rfl, hrp, h⟩ := List.map_eq_cons_iff.1 h
  exact ⟨ki, lp, cs, rp, us, rfl, hki, congrArg Prod.fst hlp, hcs, congrArg Prod.fst hrp, h⟩

section

/- An `if` statement that was read, with the parts of its condition. -/
variable {n n₀ i j j' : Nat} {s m e : TokenStream} {ts' : List Token}

/-- **The words with one statement inside the other are read like that.** -/
theorem ofTokens_of_nestedWords (ht : ofTokens T.tokens length = .ok t) (hmem : old ∈ t.subtrees)
    (hold : (Grammar.forTokens n).statement.Yields
      ⟨T.onward, T.before.length, length⟩ old e)
    (hkeyword : T.keyword.word = (.kwIf, "if"))
    (hl : Phrase.Derives (.binary 1) j (T.left.map (·.kind)) [l])
    (hx : Phrase.Derives (.binary 1) j' (T.right.map (·.kind)) [x])
    (hb : (Grammar.forTokens n₀).statement.Yields s b e) (hbs : s.rest = T.branch ++ e.rest)
    (hafter : e.rest = T.after) (hnext : e.next? ≠ some .kwElse)
    (hposition : e.position =
      T.before.length + 4 + T.left.length + T.right.length + T.branch.length)
    (hwords : ts'.map Token.word = T.nestedWords) :
    ofTokens ts' length' =
      .ok (t.exchange (fun p => p.kind.ifKeyword? == some T.before.length)
        (Twin.pushed T.before.length 4)
        (nested T.before.length T.left.length T.right.length l x b)) := by
  obtain ⟨pre, us, rfl, hpre, hus⟩ := List.map_eq_append_iff.1 hwords
  have hpre := forall₂_same_of_map_word hpre
  obtain ⟨ki₁, lp₁, ls, rp₁, us, rfl, hki₁, hlp₁, hls, hrp₁, hus⟩ := exists_of_ifWords hus
  obtain ⟨lb, us, rfl, hlb, hus⟩ := List.map_eq_cons_iff.1 hus
  obtain ⟨ki₂, lp₂, rs, rp₂, us, rfl, hki₂, hlp₂, hrs, hrp₂, hus⟩ := exists_of_ifWords hus
  obtain ⟨bs, us, rfl, hbs', hus⟩ := List.map_eq_append_iff.1 hus
  obtain ⟨rb, post, rfl, hrb, hpost⟩ := List.map_eq_cons_iff.1 hus
  have hsame := same_of_word_eq (hki₁.trans hkeyword.symm)
  have hls := forall₂_same_of_map_word hls
  have hrs := forall₂_same_of_map_word hrs
  have hbs' := forall₂_same_of_map_word hbs'
  have hpost := forall₂_same_of_map_word hpost
  have hnew := isStatement_nested (i := T.before.length) hl hx hb hbs hnext
    (congrArg Prod.fst hki₁) hlp₁ hrp₁ (congrArg Prod.fst hlb) (congrArg Prod.fst hki₂) hlp₂ hrp₂
    (congrArg Prod.fst hrb) hls hrs hbs' (hafter ▸ hpost) rfl (Nat.le_refl _)
  rw [← hls.length_eq, ← hrs.length_eq] at hnew
  have hexchange := ofTokens_of_isStatement (d := 4) ht hmem hold hpre
    (congrArg Prod.fst hkeyword) hsame (hafter ▸ hpost) hnew (by
      have hlengths := And.intro hls.length_eq hrs.length_eq
      have hlength := hbs'.length_eq
      simp
      omega) length'
  simpa using hexchange

/-- **The words with one statement after the other are read like that**, unless the branch ends
open. -/
theorem ofTokens_of_ladderWords (ht : ofTokens T.tokens length = .ok t) (hmem : old ∈ t.subtrees)
    (hold : (Grammar.forTokens n).statement.Yields ⟨T.onward, T.before.length, length⟩ old e)
    (hkeyword : T.keyword.word = (.kwIf, "if"))
    (hl : Phrase.Derives (.binary 1) j (T.left.map (·.kind)) [l])
    (hx : Phrase.Derives (.binary 1) j' (T.right.map (·.kind)) [x])
    (hb : (Grammar.forTokens n₀).statement.Yields s b e) (hbs : s.rest = T.branch ++ e.rest)
    (hafter : e.rest = T.after) (hnext : e.next? ≠ some .kwElse) (hopen : b.endsOpen = false)
    (hposition : e.position =
      T.before.length + 4 + T.left.length + T.right.length + T.branch.length)
    (hwords : ts'.map Token.word = T.ladderWords) :
    ofTokens ts' length' =
      .ok (t.exchange (fun p => p.kind.ifKeyword? == some T.before.length)
        (Twin.pushed T.before.length (T.branch.length + 3))
        (ladder T.before.length T.left.length T.right.length T.branch.length l x b none)) := by
  obtain ⟨pre, us, rfl, hpre, hus⟩ := List.map_eq_append_iff.1 hwords
  obtain ⟨ki₁, lp₁, ls, rp₁, us, rfl, hki₁, hlp₁, hls, hrp₁, hus⟩ := exists_of_ifWords hus
  obtain ⟨bs₁, us, rfl, hbs₁, hus⟩ := List.map_eq_append_iff.1 hus
  obtain ⟨el, us, rfl, hel, hus⟩ := List.map_eq_cons_iff.1 hus
  obtain ⟨ki₂, lp₂, rs, rp₂, us, rfl, hki₂, hlp₂, hrs, hrp₂, hus⟩ := exists_of_ifWords hus
  obtain ⟨bs₂, post, rfl, hbs₂, hpost⟩ := List.map_eq_append_iff.1 hus
  have hsame := same_of_word_eq (hki₁.trans hkeyword.symm)
  have hpre := forall₂_same_of_map_word hpre
  have hls := forall₂_same_of_map_word hls
  have hrs := forall₂_same_of_map_word hrs
  have hbs₁ := forall₂_same_of_map_word hbs₁
  have hbs₂ := forall₂_same_of_map_word hbs₂
  have hpost := forall₂_same_of_map_word hpost
  have hnew := isStatement_ladder (i := T.before.length) hl hx hb hbs hnext hopen
    (congrArg Prod.fst hki₁) hlp₁ hrp₁ (congrArg Prod.fst hel) (congrArg Prod.fst hki₂) hlp₂ hrp₂
    hls hrs hbs₁ hbs₂ (hafter ▸ hpost) rfl (Nat.le_refl _)
  rw [← hls.length_eq, ← hrs.length_eq, ← hbs₁.length_eq] at hnew
  have hexchange := ofTokens_of_isStatement (d := T.branch.length + 3) ht hmem hold hpre
    (congrArg Prod.fst hkeyword) hsame (hafter ▸ hpost) hnew (by
      have hlengths := And.intro hls.length_eq hrs.length_eq
      have hlengths' := And.intro hbs₁.length_eq hbs₂.length_eq
      simp
      omega) length'
  simpa using hexchange

/-- **So are they when there is another branch.** -/
theorem ofTokens_of_ladderWords_else {o : PieceTree} {os : List Token}
    (ht : ofTokens T.tokens length = .ok t) (hmem : old ∈ t.subtrees)
    (hold : (Grammar.forTokens n).statement.Yields ⟨T.onward, T.before.length, length⟩ old e)
    (hkeyword : T.keyword.word = (.kwIf, "if"))
    (hl : Phrase.Derives (.binary 1) j (T.left.map (·.kind)) [l])
    (hx : Phrase.Derives (.binary 1) j' (T.right.map (·.kind)) [x])
    (hb : (Grammar.forTokens n₀).statement.Yields s b m) (hbs : s.rest = T.branch ++ m.rest)
    (hafter : m.rest = T.after) (hnext : m.next? = some .kwElse)
    (ho : (Grammar.forTokens n₀).statement.Yields m.tail o e) (hos : m.tail.rest = os ++ e.rest)
    (hposition : e.position =
      T.before.length + 5 + T.left.length + T.right.length + T.branch.length + os.length)
    (hwords : ts'.map Token.word = T.ladderWords) :
    ofTokens ts' length' =
      .ok (t.exchange (fun p => p.kind.ifKeyword? == some T.before.length)
        (Twin.pushed T.before.length (T.branch.length + 3))
        (ladder T.before.length T.left.length T.right.length T.branch.length l x b (some o))) := by
  obtain ⟨elseToken, hrest, helse, -⟩ := exists_rest hnext
  rw [SplitTokens.ladderWords, ← hafter, hrest, hos, List.map_cons, List.map_append] at hwords
  obtain ⟨pre, us, rfl, hpre, hus⟩ := List.map_eq_append_iff.1 hwords
  obtain ⟨ki₁, lp₁, ls, rp₁, us, rfl, hki₁, hlp₁, hls, hrp₁, hus⟩ := exists_of_ifWords hus
  obtain ⟨bs₁, us, rfl, hbs₁, hus⟩ := List.map_eq_append_iff.1 hus
  obtain ⟨el₁, us, rfl, hel₁, hus⟩ := List.map_eq_cons_iff.1 hus
  obtain ⟨ki₂, lp₂, rs, rp₂, us, rfl, hki₂, hlp₂, hrs, hrp₂, hus⟩ := exists_of_ifWords hus
  obtain ⟨bs₂, us, rfl, hbs₂, hus⟩ := List.map_eq_append_iff.1 hus
  obtain ⟨el₂, us, rfl, hel₂, hus⟩ := List.map_eq_cons_iff.1 hus
  obtain ⟨os', post, rfl, hos', hpost⟩ := List.map_eq_append_iff.1 hus
  have hsame := same_of_word_eq (hki₁.trans hkeyword.symm)
  have hpre := forall₂_same_of_map_word hpre
  have hls := forall₂_same_of_map_word hls
  have hrs := forall₂_same_of_map_word hrs
  have hbs₁ := forall₂_same_of_map_word hbs₁
  have hbs₂ := forall₂_same_of_map_word hbs₂
  have hos' := forall₂_same_of_map_word hos'
  have hpost := forall₂_same_of_map_word hpost
  have hnew := isStatement_ladder_else (i := T.before.length) hl hx hb hbs hnext ho hos
    (congrArg Prod.fst hki₁) hlp₁ hrp₁ (congrArg Prod.fst hel₁) (congrArg Prod.fst hki₂) hlp₂ hrp₂
    ((congrArg Prod.fst hel₂).trans helse) hls hrs hbs₁ hbs₂ hos' hpost rfl (Nat.le_refl _)
  rw [← hls.length_eq, ← hrs.length_eq, ← hbs₁.length_eq] at hnew
  have hexchange := ofTokens_of_isStatement (d := T.branch.length + 3) ht hmem hold hpre
    (congrArg Prod.fst hkeyword) hsame hpost hnew (by
      have hlengths := And.intro hls.length_eq hrs.length_eq
      have hlengths' := And.intro hbs₁.length_eq hbs₂.length_eq
      have hlength := hos'.length_eq
      simp
      omega) length'
  simpa using hexchange

end

open Twin in
/-- **A file with two statements for one is read with the tree of both in place of the one.**  The
condition is cut at an operator.  The second statement can always stand in the first one, when there
is one branch; and it can stand behind it, unless there is one branch and that ends open. -/
theorem exists_isSplit {keyword o q : Nat} (ht : ofTokens ts length = .ok t)
    (hmem : old ∈ t.subtrees) (hkey : old.label.kind.ifKeyword? = some keyword)
    (hchildren : old.children = c :: b :: other.toList)
    (hchain : c.OperandChain (fun i => ts[i]?.map (·.kind)) k u)
    (hkind : u.label.kind = .binary o) (hparts : u.children = [l, r])
    (ho : ts[o]?.map (·.kind) = some k) (hq : k.precedence? = some q) :
    ∃ T x, IsSplit ts T k old l x b other ∧ IsRest u r c x ∧ x.IsLaid ∧
      T.before.length = keyword ∧ o = keyword + 2 + T.left.length ∧
      (T.keyword.word = (.kwIf, "if") → ∀ ts' length',
        (other = none → ts'.map Token.word = T.nestedWords → ofTokens ts' length' =
          .ok (t.exchange (fun p => p.kind.ifKeyword? == some keyword) (pushed keyword 4)
            (nested keyword T.left.length T.right.length l x b))) ∧
        ((other = none → b.endsOpen = false) → ts'.map Token.word = T.ladderWords →
          ofTokens ts' length' =
            .ok (t.exchange (fun p => p.kind.ifKeyword? == some keyword)
              (pushed keyword (T.branch.length + 3))
              (ladder keyword T.left.length T.right.length T.branch.length l x b other)))) := by
  obtain ⟨pre, n, n₀, x, ki, lp, op, rp, ls, rs, m, e, rfl, rfl, hold, hcut, hrest, hposition⟩ :=
    exists_isCut ht hmem hkey (by rw [hchildren]; rfl) hchain hkind hparts ho hq
  have hm := hcut.position
  dsimp only at hm
  obtain ⟨hreads, -⟩ := (Grammar.isSound_forTokens n).statement _ old e hold
  have hlast := hreads.last_eq
  cases other with
  | none =>
    obtain ⟨hb, hnext⟩ := yields_of_one_branch hcut.branches hchildren
    obtain ⟨bs, hbs, hcovers, he⟩ := exists_tokens hb
    rw [hbs] at hold ht ⊢
    let T : SplitTokens := ⟨pre, ki, lp, ls, op, rs, rp, bs, e.rest⟩
    refine ⟨T, x, ?_, hrest, isLaid_of_derives hcut.right, rfl, hposition,
      fun hword ts' length' => ⟨fun _ hwords => ?_, fun hopen hwords => ?_⟩⟩
    · have hend := hcovers.last_eq
      exact
        { tokens_eq := rfl
          keyword := hcut.keyword
          lparen := hcut.lparen
          operator := hcut.operator
          rparen := hcut.rparen
          kind_eq := branches_ensures_kind _ _ hcut.branches
          first_eq := hreads.first_eq
          left := by simpa using hcut.left.covers
          right := by simpa using hcut.right.covers
          branch := hm ▸ hcovers
          last_le := by omega
          last_eq := fun _ => by omega
          other := nofun }
    · exact ofTokens_of_nestedWords (T := T) ht hmem hold hword hcut.left hcut.right hb hbs rfl
        hnext (by dsimp only [T]; omega) hwords
    · exact ofTokens_of_ladderWords (T := T) ht hmem hold hword hcut.left hcut.right hb hbs rfl
        hnext (hopen rfl) (by dsimp only [T]; omega) hwords
  | some o =>
    obtain ⟨m', hb, hnext, ho'⟩ := yields_of_two_branches hcut.branches hchildren
    obtain ⟨bs, hbs, hcovers, he⟩ := exists_tokens hb
    obtain ⟨os, hos, hcovers', hend⟩ := exists_tokens ho'
    obtain ⟨e', hafter, hkind, htail⟩ := exists_rest hnext
    rw [hbs] at hold ht ⊢
    let T : SplitTokens := ⟨pre, ki, lp, ls, op, rs, rp, bs, m'.rest⟩
    refine ⟨T, x, ?_, hrest, isLaid_of_derives hcut.right, rfl, hposition,
      fun hword ts' length' => ⟨nofun, fun _ hwords => ?_⟩⟩
    · have hend := hcovers.last_eq
      have hend' := hcovers'.last_eq
      exact
        { tokens_eq := rfl
          keyword := hcut.keyword
          lparen := hcut.lparen
          operator := hcut.operator
          rparen := hcut.rparen
          kind_eq := branches_ensures_kind _ _ hcut.branches
          first_eq := hreads.first_eq
          left := by simpa using hcut.left.covers
          right := by simpa using hcut.right.covers
          branch := hm ▸ hcovers
          last_le := by omega
          last_eq := nofun
          other := by
            rintro _ ⟨⟩
            exact ⟨by rw [hcovers'.first_eq]; omega, e', congrArg List.head? hafter, hkind⟩ }
    · exact ofTokens_of_ladderWords_else (T := T) ht hmem hold hword hcut.left hcut.right hb hbs rfl
        hnext ho' hos (by dsimp only [T]; omega) hwords

end PieceTree

end Mend
