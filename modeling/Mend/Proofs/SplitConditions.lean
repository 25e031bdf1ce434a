import Mend.Proofs.ReplacedStatement
import Mend.Proofs.OperandChains

/-!
# Statements with a split condition

An `if` statement whose condition is a chain of operands can be written as two: with the operands
before some operator in the condition of one and those after it in the condition of the other.  The
two are one inside the other, or one after the other, and then the branch is written twice.  The
parser takes the tokens for what they are meant to be, unless a branch that ends open takes the
`else` that is put after it.

Statements that end open never stand before an `else` in what was read, since they would have taken
it.

## Main definitions

* `PieceTree.Covers` — a tree over some number of tokens from a position on.
* `PieceTree.ifTree`, `PieceTree.inBraces` — the trees of statements.
* `PieceTree.nested`, `PieceTree.ladder` — the two statements, one inside the other and one after
  the other.
* `Parse.TakesElse` — a parser that leaves no `else` behind what would take it.

## Main results

* `Parse.takesElse_forTokens` — **a statement that ends open is not followed by an `else`.**
* `Parse.exists_cut` — an `if` statement was read over the parts of its condition.
* `Parse.IsStatement.of_yields` — a statement is read again on its tokens.
* `Parse.isStatement_nested`, `Parse.isStatement_ladder`, `Parse.isStatement_ladder_else` — **both
  statements are read**, one inside the other and one after the other.
-/

namespace Mend

open Phrase TokenStream

/-! ### Trees of statements -/

namespace PieceTree

variable {t : PieceTree} {i j n : Nat}

/-- A tree covers some tokens, the first of which is at a position. -/
structure Covers (t : PieceTree) (i n : Nat) : Prop where
  /-- There are such tokens. -/
  pos : 0 < n
  /-- The first one. -/
  first_eq : t.label.first = i
  /-- The last one. -/
  last_eq : t.label.last + 1 = i + n

/-- At another position a tree covers as many tokens. -/
theorem Covers.placed (h : t.Covers i n) (j : Nat) : (t.placed j).Covers j n := by
  obtain ⟨⟨kind, first, last⟩, cs⟩ := t
  obtain ⟨hn, rfl, hlast⟩ := h
  dsimp only [Rose.label] at hlast
  refine ⟨hn, ?_, ?_⟩
  · rw [PieceTree.placed, moved_node]
    dsimp only [Rose.label]
    omega
  · rw [PieceTree.placed, moved_node]
    dsimp only [Rose.label]
    omega

/-- An `if` statement that begins at a position, with a condition, a branch and, if there is one,
another branch. -/
def ifTree (i : Nat) (c b : PieceTree) (other : Option PieceTree) : PieceTree :=
  .node ⟨.ifStatement i (i + 1) (c.label.last + 1) (other.map fun _ => b.label.last + 1), i,
    (other.getD b).label.last⟩ (c :: b :: other.toList)

/-- A block with one statement. -/
def inBraces (i : Nat) (t : PieceTree) : PieceTree :=
  .node ⟨.block i (t.label.last + 1), i, t.label.last + 1⟩ [t]

/-- An `if` statement, in braces, as the branch of another one.  There are `n` tokens in the first
condition and `m` in the second one. -/
def nested (i n m : Nat) (l x b : PieceTree) : PieceTree :=
  ifTree i (l.placed (i + 2)) (inBraces (i + 3 + n)
    (ifTree (i + 4 + n) (x.placed (i + 6 + n)) (b.placed (i + 7 + n + m)) none)) none

/-- An `if` statement as the other branch of another one, both with the same branch of `k` tokens.
It can have another branch of its own. -/
def ladder (i n m k : Nat) (l x b : PieceTree) (other : Option PieceTree) : PieceTree :=
  ifTree i (l.placed (i + 2)) (b.placed (i + 3 + n))
    (some (ifTree (i + 4 + n + k) (x.placed (i + 6 + n + k)) (b.placed (i + 7 + n + k + m))
      (other.map fun o => o.placed (i + 8 + n + k + m + k))))

end PieceTree

/-- The tree of an expression covers its word. -/
theorem Phrase.Derives.last_eq {c : Category} {i : Nat} {w : List TokenKind} {es : List PieceTree}
    (h : Derives c i w es) : ∀ e ∈ es.head?, c ≠ .arguments → c ≠ .furtherArguments →
      e.label.last + 1 = i + w.length := by
  have hspan {kind : NodeKind} {i : Nat} {w : List TokenKind} {cs : List PieceTree} (hw : w ≠ []) :
      (PieceTree.spanning kind i w cs).label.last + 1 = i + w.length := by
    have hpos := List.length_pos_iff.2 hw
    rw [PieceTree.label_spanning]
    dsimp only
    omega
  induction h with
  | value _ ih | operand _ ih | tighter _ _ ih | bare _ ih | alone _ ih =>
    exact fun e he _ _ => ih e he (by simp) (by simp)
  | noArguments | someArguments => exact fun e he hc _ => absurd rfl hc
  | noMore | more => exact fun e he _ hc => absurd rfl hc
  | name _ hname =>
    rintro e ⟨⟩ - -
    cases hname with
    | bare name => cases name <;> exact hspan (by simp)
    | qualified _ _ name =>
      refine hspan ?_
      cases name <;> simp
    | global => exact hspan (by simp)
  | _ =>
    rintro e ⟨⟩ - -
    exact hspan (by simp)

theorem Phrase.Derives.covers {p i : Nat} {w : List TokenKind} {e : PieceTree}
    (h : Derives (.binary p) i w [e]) : e.Covers i w.length where
  pos := by
    obtain ⟨k, v, rfl, -⟩ := h.exists_head_eq (by simp) (by simp)
    exact Nat.succ_pos _
  first_eq := h.first_eq (by simp)
  last_eq := h.last_eq e rfl (by simp) (by simp)

namespace Parse

open PieceTree (ifTree inBraces nested ladder IsRest)

variable {α : Type} {g : Grammar} {p : Parse PieceTree} {s s' m e : TokenStream} {n : Nat}
  {t b c : PieceTree}

/-- What was read covers the tokens that were taken. -/
theorem covers_of_reads (h : s.Reads t e) (hn : e.position = s.position + n) :
    t.Covers s.position n where
  pos := by
    have hle := (h.isLaid t t.self_mem_subtrees).first_le_last
    have hfirst := h.first_eq
    have hlast := h.last_eq
    omega
  first_eq := h.first_eq
  last_eq := h.last_eq.trans hn

/-! ### Statements that end open -/

/-- A parser leaves no `else` behind a statement that would take it. -/
def TakesElse (p : Parse PieceTree) : Prop :=
  ∀ s, p.Ensures s fun t e => t.endsOpen = true → e.next? ≠ some .kwElse

namespace TakesElse

theorem of_bind {q : Parse α} {f : α → Parse PieceTree} (h : ∀ x, TakesElse (f x)) :
    TakesElse (q >>= f) := by
  intro s t e ht
  obtain ⟨x, m, -, ht⟩ := Yields.of_bind ht
  exact h x m t e ht

/-- A node that takes no `else`. -/
theorem close {kind : NodeKind} {first : Nat} {cs : List PieceTree}
    (hkind : ∀ last, kind.endsOpen last = false) : TakesElse (close kind first cs) := by
  rintro s t e ht hopen
  cases ht
  rw [PieceTree.endsOpen_node, hkind] at hopen
  cases hopen

/-- A node that takes an `else` only if its last part does. -/
theorem close_last (hp : TakesElse p) {kind : NodeKind} {first : Nat} (cs : List PieceTree)
    (hkind : kind.endsOpen false = false) :
    TakesElse (p >>= fun t => Parse.close kind first (cs ++ [t])) := by
  intro s t e ht hopen
  obtain ⟨x, m, hx, hclose⟩ := Yields.of_bind ht
  cases hclose
  refine hp s x _ hx ?_
  rw [PieceTree.endsOpen_node, List.getLast?_concat, Option.any_some] at hopen
  by_contra hx
  rw [Bool.not_eq_true] at hx
  rw [hx, hkind] at hopen
  cases hopen

theorem fail (what : Expectation) : TakesElse (fail what) := fun _ => fail_ensures what

theorem branches (hg : TakesElse g.statement) {keyword lparen rparen : Nat} {c : PieceTree} :
    TakesElse (branches g keyword lparen rparen c) := by
  have htwo : TakesElse (twoBranches g keyword lparen rparen c) :=
    .of_bind fun b => .of_bind fun i => hg.close_last [c, b] rfl
  intro s t e ht
  rcases branches_yields_iff.1 ht with ht | ⟨-, hnext⟩
  · exact htwo s t e ht
  · exact fun _ => hnext

theorem block : TakesElse (block g) :=
  .of_bind fun _ => .of_bind fun _ => .of_bind fun _ => .of_bind fun _ => .close fun _ => rfl

theorem whileStatement (hg : TakesElse g.statement) : TakesElse (whileStatement g) :=
  .of_bind fun _ => .of_bind fun c => hg.close_last [c.2.1] rfl

theorem switchStatement (hg : TakesElse g.statement) : TakesElse (switchStatement g) :=
  .of_bind fun _ => .of_bind fun c => hg.close_last [c.2.1] rfl

theorem forStatement (hg : TakesElse g.statement) : TakesElse (forStatement g) := by
  have hend {keyword lparen : Nat} {initial : PieceTree} (condition : Option PieceTree) :
      TakesElse (do
        let semicolon ← expect .semicolon
        let expression ← expressionBefore? g .rParen
        let rparen ← expect .rParen
        let body ← g.statement
        Parse.close (.forStatement keyword lparen semicolon rparen condition.isSome) keyword
          (initial :: (condition.toList ++ expression.toList ++ [body]))) := by
    refine .of_bind fun semicolon => .of_bind fun expression => .of_bind fun rparen => ?_
    exact hg.close_last (initial :: (condition.toList ++ expression.toList)) rfl
  refine .of_bind fun _ => .of_bind fun _ => .of_bind fun _ => ?_
  split <;> refine .of_bind fun initial => .of_bind fun _ => ?_ <;> split
  case isTrue.isTrue | isFalse.isTrue => exact hend none
  case isTrue.isFalse | isFalse.isFalse => exact .of_bind fun c => hend (some c)

/-- A statement leaves no `else` behind what would take it, when the statements in it do not. -/
theorem statement (hg : TakesElse g.statement) : TakesElse (statement g) := by
  refine .of_bind fun k => ?_
  split
  case h_1 => exact .fail _
  case h_2 => exact block
  case h_3 => exact .of_bind fun _ => .of_bind fun _ => hg.branches
  case h_4 => exact hg.whileStatement
  case h_5 =>
    refine .of_bind fun _ => .of_bind fun _ => .of_bind fun _ => .of_bind fun _ => ?_
    exact .of_bind fun _ => .of_bind fun _ => .of_bind fun _ => .close fun _ => rfl
  case h_6 => exact hg.forStatement
  case h_7 => exact hg.switchStatement
  case h_8 => exact .of_bind fun _ => .of_bind fun _ => .of_bind fun _ => .close fun _ => rfl
  case h_9 | h_10 | h_11 => exact .of_bind fun _ => .of_bind fun _ => .close fun _ => rfl
  case h_12 => exact .of_bind fun _ => .of_bind fun _ => .of_bind fun _ => .close fun _ => rfl
  case h_13 =>
    refine .of_bind fun _ => ?_
    split
    · exact .of_bind fun _ => .of_bind fun _ => .close fun _ => rfl
    · exact .of_bind fun _ => .of_bind fun _ => .of_bind fun _ => .close fun _ => rfl

end TakesElse

/-- **A statement that ends open is not followed by an `else`**, since it would have taken it. -/
theorem takesElse_forTokens (n : Nat) : TakesElse (Grammar.forTokens n).statement := by
  induction n with
  | zero => exact .fail _
  | succ n ih => exact ih.statement

/-! ### Statements on other tokens -/

theorem tail_of_rest {x : Token} {r : List Token} (h : s.rest = x :: r) :
    s.next? = some x.kind ∧ s.tail.rest = r ∧ s.tail.position = s.position + 1 := by
  obtain ⟨rest, i, k⟩ := s
  obtain rfl : rest = x :: r := h
  exact ⟨rfl, rfl, rfl⟩

theorem consumes_of_rest {w r : List Token} (h : s.rest = w ++ r) :
    s.Consumes (w.map (·.kind)) ⟨r, s.position + w.length, s.textLength⟩ :=
  ⟨w, h, rfl, by rw [List.length_map], rfl⟩

/-- The tree of a word is laid out, since it is read on tokens of such kinds. -/
theorem isLaid_of_derives {i : Nat} {w : List TokenKind} {e : PieceTree}
    (h : Derives (.binary 1) i w [e]) : e.IsLaid := by
  let token (k : TokenKind) : Token := ⟨k, ⟨0, 0⟩, ""⟩
  let s : TokenStream := ⟨w.map token ++ [token .rParen], i, 0⟩
  have hconsumes := consumes_of_rest (s := s) (w := w.map token) (r := [token .rParen]) rfl
  have hkinds : (w.map token).map (·.kind) = w := by
    rw [List.map_map]
    exact List.map_id w
  rw [hkinds] at hconsumes
  have hyields := condition_yields (Grammar.readsPhrases_forTokens s.rest.length) (Nat.le_refl _)
    hconsumes h rfl
  exact (condition_ensures (Grammar.isSound_forTokens _) e _ hyields).isLaid

/-- The tokens of a list, the first of which is at a position, are read as a statement when others
come after them. -/
def IsStatement (n i : Nat) (ts r : List Token) (t : PieceTree) : Prop :=
  ∀ s : TokenStream, s.rest = ts ++ r → s.position = i →
    ∃ e, (Grammar.forTokens n).statement.Yields s t e ∧ e.rest = r ∧ e.position = i + ts.length

variable {i n' : Nat} {ts us r : List Token}

namespace IsStatement

theorem mono (h : IsStatement n i ts r t) (hn : n ≤ n') : IsStatement n' i ts r t := by
  intro s hs hi
  obtain ⟨e, ht, hrest, hposition⟩ := h s hs hi
  exact ⟨e, statement_yields_of_le hn ht, hrest, hposition⟩

theorem of_eq {i' : Nat} (h : IsStatement n i ts r t) (hi : i = i') : IsStatement n i' ts r t :=
  hi ▸ h

/-- A statement covers its tokens. -/
theorem covers (h : IsStatement n i ts r t) : t.Covers i ts.length := by
  obtain ⟨e, ht, -, hposition⟩ := h ⟨ts ++ r, i, 0⟩ rfl rfl
  obtain ⟨hreads, -⟩ := (Grammar.isSound_forTokens n).statement _ t e ht
  exact covers_of_reads hreads hposition

/-- **A statement is read again on its tokens**, wherever they lie, unless it ends open and an
`else` comes after it. -/
theorem of_yields (h : (Grammar.forTokens n).statement.Yields s t e) (hts : s.rest = ts ++ e.rest)
    (hsame : List.Forall₂ Token.Same ts us)
    (hopen : t.endsOpen = true → r.head?.any (·.kind == .kwElse) = false) (d : Nat) :
    IsStatement (n + d) i us r (t.placed i) := by
  intro s' hs' hi
  have hshift : s'.position = Twin.shift s.position i s.position := by
    rw [Twin.shift, Nat.sub_self, Nat.zero_add, hi]
  obtain ⟨e', ht', hrest, hposition⟩ := (alike_forTokens s.position i n d).statement.follows
    h hts hsame hs' (Nat.le_refl _) hshift hopen
  obtain ⟨hreads, -⟩ := (Grammar.isSound_forTokens n).statement s t e h
  have htotal := hreads.takes.total_eq
  simp only [TokenStream.total, hts, List.length_append] at htotal
  refine ⟨e', ?_, hrest, ?_⟩
  · rw [PieceTree.placed, hreads.first_eq]
    exact ht'
  · rw [hposition, Twin.shift, ← hsame.length_eq]
    omega

/-- A block of one statement. -/
theorem block {lb rb : Token} (hlb : lb.kind = .lBrace) (hrb : rb.kind = .rBrace)
    (hts : (ts ++ rb :: r).head?.any (·.kind != .rBrace) = true)
    (h : IsStatement n (i + 1) ts (rb :: r) t) :
    IsStatement (n + 1) i (lb :: (ts ++ [rb])) r (inBraces i t) := by
  intro s hs hi
  rw [List.cons_append, List.append_assoc, List.singleton_append] at hs
  obtain ⟨hopen, htail, hposition⟩ := tail_of_rest hs
  obtain ⟨m, ht, hrest, hm⟩ := h s.tail htail (by rw [hposition, hi])
  obtain ⟨hclose, hend, hlast⟩ := tail_of_rest hrest
  rw [hlb] at hopen
  rw [hrb] at hclose
  have hm' : m.position = s.tail.position + ts.length := by rw [hm, hposition, hi]
  have hmore : s.tail.isBefore .rBrace = true := by
    rw [isBefore, next?, Option.any_map, htail]
    exact hts
  have hstop : m.isBefore .rBrace = false := by
    rw [isBefore, hclose]
    rfl
  have hitems : (collectWhile (·.isBefore .rBrace) (Grammar.forTokens n).statement).Yields s.tail
      [t] m := by
    refine .get_bind (items_yields_cons hmore ht ?_ (fun k _ => items_yields_nil hstop k)
      (Nat.le_refl _))
    have hpos : ts ≠ [] := by
      rintro rfl
      simp [hrb] at hts
    have hlength := List.length_pos_iff.2 hpos
    rw [htail, hrest, List.length_append]
    omega
  refine ⟨m.tail, ?_, hend, ?_⟩
  · refine (peek_yields s).bind ?_
    rw [hopen]
    refine .get_bind <| (expect_yields hopen).bind <| hitems.bind <| (expect_yields hclose).bind ?_
    have hcovers := h.covers.last_eq
    have hend : t.label.last + 1 = m.position := by omega
    have hmax : max s.position (m.tail.position - 1) = m.position := by omega
    rw [inBraces, ← hi, hend]
    exact congrArg (fun last => Except.ok (Rose.node (Piece.mk _ _ last) _, m.tail)) hmax
  · rw [hlast, hm]
    simp
    omega

/-- An `if` statement with operands in its condition is read when its branches are. -/
theorem of_branches {ki lp rp : Token} {cs bs : List Token} (hki : ki.kind = .kwIf)
    (hlp : lp.kind = .lParen) (hrp : rp.kind = .rParen)
    (hc : Derives (.binary 1) (i + 2) (cs.map (·.kind)) [c])
    (hn : (ki :: lp :: (cs ++ rp :: bs) ++ r).length ≤ n)
    (h : ∀ m : TokenStream, m.rest = bs ++ r → m.position = i + 3 + cs.length →
      ∃ e, (branches (Grammar.forTokens n) i (i + 1) (i + 2 + cs.length) c).Yields m t e ∧
        e.rest = r ∧ e.position = i + 3 + cs.length + bs.length) :
    IsStatement (n + 1) i (ki :: lp :: (cs ++ rp :: bs)) r t := by
  intro s hs hi
  simp only [List.cons_append, List.append_assoc] at hs
  obtain ⟨hif, hrest, hposition⟩ := tail_of_rest hs
  obtain ⟨hopen, hrest', hposition'⟩ := tail_of_rest hrest
  obtain rfl : i = s.position := hi.symm
  have hstart : s.tail.tail.position = s.position + 2 := by rw [hposition', hposition]
  have hconsumes := consumes_of_rest hrest'
  rw [hstart] at hconsumes
  obtain ⟨hclose, hend, hlast⟩ := tail_of_rest (s := ⟨rp :: (bs ++ r),
    s.position + 2 + cs.length, s.tail.tail.textLength⟩) rfl
  obtain ⟨e, he, hafter, hposition''⟩ := h _ hend (by rw [hlast, Nat.add_right_comm])
  refine ⟨e, ?_, hafter, ?_⟩
  · refine (statement_yields_iff_of_kwIf (hif.trans (congrArg some hki))).2
      ⟨c, _, hopen.trans (congrArg some hlp), ?_, hclose.trans (congrArg some hrp), ?_⟩
    · refine condition_yields (Grammar.readsPhrases_forTokens n) ?_ hconsumes (hstart ▸ hc)
        (hclose.trans (congrArg some hrp))
      rw [hrest']
      simp only [List.length_append, List.length_cons] at hn ⊢
      omega
    · rw [hposition]
      exact he
  · rw [hposition'']
    simp only [List.length_append, List.length_cons]
    omega

/-- An `if` statement with one branch. -/
theorem one_branch {ki lp rp : Token} {cs bs : List Token} (hki : ki.kind = .kwIf)
    (hlp : lp.kind = .lParen) (hrp : rp.kind = .rParen)
    (hc : Derives (.binary 1) (i + 2) (cs.map (·.kind)) [c])
    (hn : (ki :: lp :: (cs ++ rp :: bs) ++ r).length ≤ n)
    (hb : IsStatement n (i + 3 + cs.length) bs r b)
    (hr : r.head?.any (·.kind == .kwElse) = false) :
    IsStatement (n + 1) i (ki :: lp :: (cs ++ rp :: bs)) r (ifTree i c b none) := by
  have hcond := hc.covers.last_eq
  have hbranch := hb.covers
  rw [List.length_map] at hcond
  refine of_branches hki hlp hrp hc hn fun m hm hi => ?_
  obtain ⟨e, hb, hrest, hposition⟩ := hb m hm hi
  refine ⟨e, branches_yields_iff.2 (.inr ⟨oneBranch_yields_iff.2 ⟨b, hb, ?_⟩, ?_⟩), hrest,
    hposition⟩
  · have hlast := hbranch.last_eq
    have hmax : max i (e.position - 1) = b.label.last := by omega
    rw [ifTree, hcond, Option.getD_none, hmax]
    rfl
  · rw [next?, hrest]
    intro hnext
    obtain ⟨x, hx, hk⟩ := Option.map_eq_some_iff.1 hnext
    simp [hx, hk] at hr

/-- An `if` statement with two branches. -/
theorem two_branches {ki lp rp el : Token} {cs bs es : List Token} {o : PieceTree}
    (hki : ki.kind = .kwIf) (hlp : lp.kind = .lParen) (hrp : rp.kind = .rParen)
    (hel : el.kind = .kwElse) (hc : Derives (.binary 1) (i + 2) (cs.map (·.kind)) [c])
    (hn : (ki :: lp :: (cs ++ rp :: (bs ++ el :: es)) ++ r).length ≤ n)
    (hb : IsStatement n (i + 3 + cs.length) bs (el :: (es ++ r)) b)
    (ho : IsStatement n (i + 3 + cs.length + bs.length + 1) es r o) :
    IsStatement (n + 1) i (ki :: lp :: (cs ++ rp :: (bs ++ el :: es))) r
      (ifTree i c b (some o)) := by
  have hcond := hc.covers.last_eq
  have hbranch := hb.covers.last_eq
  have hother := ho.covers
  rw [List.length_map] at hcond
  refine of_branches hki hlp hrp hc hn fun m hm hi => ?_
  rw [List.append_assoc, List.cons_append] at hm
  obtain ⟨m', hb, hrest, hposition⟩ := hb m hm hi
  obtain ⟨helse, hrest', hposition'⟩ := tail_of_rest hrest
  obtain ⟨e, ho, hrest'', hposition''⟩ := ho m'.tail hrest' (by rw [hposition', hposition])
  refine ⟨e, branches_yields_iff.2 (.inl (twoBranches_yields_iff.2 ⟨b, m', o, hb,
    helse.trans (congrArg some hel), ho, ?_⟩)), hrest'', ?_⟩
  · have hlast := hother.last_eq
    have hmax : max i (e.position - 1) = o.label.last := by omega
    rw [ifTree, hcond, Option.getD_some, hposition, hmax, ← hbranch]
    rfl
  · rw [hposition'']
    simp only [List.length_append, List.length_cons]
    omega

end IsStatement

/-! ### Cutting a condition -/

/-- An `if` statement was read whose condition is cut at an operator: the tokens, with what is read
from the operands before the operator and from those after it. -/
structure IsCut (n : Nat) (s : TokenStream) (t c l x : PieceTree) (k : TokenKind)
    (ki lp op rp : Token) (ls rs : List Token) (m e : TokenStream) : Prop where
  /-- The tokens up to the branches. -/
  rest : s.rest = ki :: lp :: (ls ++ op :: (rs ++ rp :: m.rest))
  /-- The first token is the keyword. -/
  keyword : ki.kind = .kwIf
  /-- The condition stands in parentheses. -/
  lparen : lp.kind = .lParen
  /-- The condition stands in parentheses. -/
  rparen : rp.kind = .rParen
  /-- The operator is one of those that join the operands. -/
  operator : op.kind = k
  /-- The operands before the operator. -/
  left : Derives (.binary 1) (s.position + 2) (ls.map (·.kind)) [l]
  /-- The operands after the operator. -/
  right : Derives (.binary 1) (s.position + 3 + ls.length) (rs.map (·.kind)) [x]
  /-- The branches come next. -/
  position : m.position = s.position + 4 + ls.length + rs.length
  /-- They were read there. -/
  branches : (branches (Grammar.forTokens n) s.position (s.position + 1)
    (s.position + 3 + ls.length + rs.length) c).Yields m t e

/-- The next token is the first one of those that are left. -/
theorem exists_rest {k : TokenKind} (h : s.next? = some k) :
    ∃ x, s.rest = x :: s.tail.rest ∧ x.kind = k ∧ s.tail.position = s.position + 1 := by
  obtain ⟨x, hx, hk⟩ := Option.map_eq_some_iff.1 h
  obtain ⟨r, hr⟩ := List.head?_eq_some_iff.1 hx
  obtain ⟨-, htail, hposition⟩ := tail_of_rest hr
  exact ⟨x, by rw [hr, htail], hk, hposition⟩

/-- A binary expression in a condition was read as an expression. -/
theorem assignment_of_condition (h : (condition g).Yields s c m)
    (hc : c.label.kind.isBinary = true) : (assignment g).Yields s c m := by
  have hpromise : (condition g).Ensures s fun c m =>
      c.label.kind.isBinary = true → (assignment g).Yields s c m := by
    refine .get_bind (.ite (fun _ => ?_) fun _ c m h _ => h)
    intro c m h hc
    obtain ⟨first, _, -, h⟩ := Yields.of_bind h
    obtain ⟨found, _, -, h⟩ := Yields.of_bind h
    obtain ⟨declared, _, -, h⟩ := Yields.of_bind h
    cases h
    cases hc
  exact hpromise c m h hc

/-- The first part of an `if` statement is its condition. -/
theorem head?_children_of_branches {keyword lparen rparen : Nat}
    (h : (branches g keyword lparen rparen c).Yields s t e) : t.children.head? = some c := by
  rcases branches_yields_iff.1 h with h | ⟨h, -⟩
  · obtain ⟨b, m, o, -, -, -, rfl⟩ := twoBranches_yields_iff.1 h
    rfl
  · obtain ⟨b, -, rfl⟩ := oneBranch_yields_iff.1 h
    rfl

/-- **An `if` statement was read over the parts of its condition**, when that is a chain of
operands. -/
theorem exists_cut {f : Nat → Option TokenKind} {k : TokenKind} {u l r : PieceTree} {o q : Nat}
    (hs : s.next? = some .kwIf) (h : (Grammar.forTokens n).statement.Yields s t e)
    (hc : t.children.head? = some c) (hf : TokenKind.FoundAt f s.position (s.rest.map (·.kind)))
    (hchain : c.OperandChain f k u) (hkind : u.label.kind = .binary o)
    (hparts : u.children = [l, r]) (ho : f o = some k) (hq : k.precedence? = some q) :
    ∃ n₀ x ki lp op rp ls rs m, n = n₀ + 1 ∧ IsCut n₀ s t c l x k ki lp op rp ls rs m e ∧
      IsRest u r c x ∧ o = s.position + 2 + ls.length := by
  cases n with
  | zero => exact (fail_ensures (Q := fun _ _ => False) _ t e h).elim
  | succ n =>
    obtain ⟨c', m, hopen, hcondition, hclose, hbranches⟩ := (statement_yields_iff_of_kwIf hs).1 h
    obtain rfl : c' = c :=
      Option.some.inj ((head?_children_of_branches hbranches).symm.trans hc)
    have hbinary : c'.label.kind.isBinary = true := by
      obtain ⟨o', ho', -⟩ := hchain.exists_operator hkind ho
      rw [ho']
      rfl
    have hassignment := assignment_of_condition hcondition hbinary
    obtain ⟨⟨w, hw, he⟩, -⟩ := Grammar.followsRules_forTokens (n + 1) _ c' m hassignment
    obtain ⟨ki, hki, hif, hposition⟩ := exists_rest hs
    obtain ⟨lp, hlp, hlparen, hposition'⟩ := exists_rest hopen
    obtain ⟨rp, hrp, hrparen, hposition''⟩ := exists_rest hclose
    have hstart : s.tail.tail.position = s.position + 2 := by rw [hposition', hposition]
    have hend := hw.position_eq
    obtain ⟨ts, hts, rfl, -⟩ := hw
    rw [hki, hlp, hts] at hf
    simp only [List.map_cons, List.map_append] at hf
    rw [hstart] at he
    have hfound := hf.tail.tail.left
    have hgroups := (he.groupsByLevel hfound c' (List.mem_singleton_self c')).1
    obtain ⟨v, v', x, hv, rfl, hl, hx, hrest⟩ :=
      he.cut (by simp) (by simp) hfound (hchain.leftChain hgroups hkind ho hq) hq hkind hparts ho
    -- the tokens before the operator, and those after it
    obtain ⟨ls, us, rfl, rfl, hus⟩ := List.map_eq_append_iff.1 hv
    obtain ⟨op, rs, rfl, hop, rfl⟩ := List.map_eq_cons_iff.1 hus
    simp only [List.map_append, List.map_cons, List.length_append, List.length_cons,
      List.length_map] at hend hx ⊢
    rw [hposition, hend, hstart] at hbranches
    have hbound := TokenKind.precedence?_bounds hq
    refine ⟨n, x, ki, lp, op, rp, ls, rs, m.tail, rfl, ?_, hrest, rfl⟩
    exact
      { rest := by rw [hki, hlp, hts, hrp]; simp
        keyword := hif
        lparen := hlparen
        rparen := hrparen
        operator := hop
        left := hl.looser (by omega)
        right := by
          rw [Nat.add_right_comm _ 1]
          exact hx.looser (by omega)
        position := by rw [hposition'', hend, hstart]; omega
        branches := by
          convert hbranches using 2
          omega }

/-! ### Two statements for one -/

/-- The same tokens have the same kinds. -/
theorem head?_any_of_same (h : List.Forall₂ Token.Same ts us) (p : TokenKind → Bool) :
    us.head?.any (fun x => p x.kind) = ts.head?.any fun x => p x.kind := by
  cases h with
  | nil => rfl
  | cons hsame _ => simp [hsame.1]

/-- What does not come next in one run does not come next in the other one. -/
theorem head?_any_of_next?_ne {k : TokenKind} (hnext : s.next? ≠ some k)
    (hr : List.Forall₂ Token.Same s.rest r) : r.head?.any (·.kind == k) = false := by
  rw [head?_any_of_same hr (· == k)]
  rw [next?] at hnext
  cases hhead : s.rest.head? with
  | none => rfl
  | some y => simpa [hhead] using hnext

/-- When there is one branch, it was read and no `else` comes next. -/
theorem yields_of_one_branch {keyword lparen rparen : Nat}
    (h : (branches g keyword lparen rparen c).Yields s t e) (ht : t.children = [c, b]) :
    g.statement.Yields s b e ∧ e.next? ≠ some .kwElse := by
  rcases branches_yields_iff.1 h with h | ⟨h, hnext⟩
  · obtain ⟨b₁, m₁, o, -, -, -, rfl⟩ := twoBranches_yields_iff.1 h
    cases ht
  · obtain ⟨b₁, hb, rfl⟩ := oneBranch_yields_iff.1 h
    cases ht
    exact ⟨hb, hnext⟩

/-- When there are two branches, they were read with an `else` between them. -/
theorem yields_of_two_branches {keyword lparen rparen : Nat} {o : PieceTree}
    (h : (branches g keyword lparen rparen c).Yields s t e) (ht : t.children = [c, b, o]) :
    ∃ m, g.statement.Yields s b m ∧ m.next? = some .kwElse ∧ g.statement.Yields m.tail o e := by
  rcases branches_yields_iff.1 h with h | ⟨h, hnext⟩
  · obtain ⟨b₁, m₁, o₁, hb, hm, ho, rfl⟩ := twoBranches_yields_iff.1 h
    cases ht
    exact ⟨m₁, hb, hm, ho⟩
  · obtain ⟨b₁, hb, rfl⟩ := oneBranch_yields_iff.1 h
    cases ht

/-- A statement was read on tokens. -/
theorem exists_tokens (h : (Grammar.forTokens n).statement.Yields s t e) :
    ∃ ts, s.rest = ts ++ e.rest ∧ t.Covers s.position ts.length ∧
      e.position = s.position + ts.length := by
  obtain ⟨⟨ts, hts⟩, htotal⟩ := Twin.suffix_of_matches
    (fun r k => (Twin.couples_of_swap_eq_none (σ := .within r k) rfl n 0).statement []) s t e h
  obtain ⟨hreads, -⟩ := (Grammar.isSound_forTokens n).statement s t e h
  have hposition : e.position = s.position + ts.length := by
    simp only [TokenStream.total, ← hts, List.length_append] at htotal
    omega
  exact ⟨ts, hts.symm, covers_of_reads hreads hposition, hposition⟩

section

/- The operands before an operator and those after it, with a branch. -/
variable {l x : PieceTree} {ls rs bs ls' rs' bs' bs'' : List Token} {j j' : Nat}
  {ki₁ lp₁ rp₁ ki₂ lp₂ rp₂ : Token}

/-- **One statement is read inside another one.** -/
theorem isStatement_nested (hl : Derives (.binary 1) j (ls.map (·.kind)) [l])
    (hx : Derives (.binary 1) j' (rs.map (·.kind)) [x])
    (hb : (Grammar.forTokens n).statement.Yields s b e) (hbs : s.rest = bs ++ e.rest)
    (hnext : e.next? ≠ some .kwElse) {lb rb : Token} (hki₁ : ki₁.kind = .kwIf)
    (hlp₁ : lp₁.kind = .lParen) (hrp₁ : rp₁.kind = .rParen) (hlb : lb.kind = .lBrace)
    (hki₂ : ki₂.kind = .kwIf) (hlp₂ : lp₂.kind = .lParen) (hrp₂ : rp₂.kind = .rParen)
    (hrb : rb.kind = .rBrace) (hls : List.Forall₂ Token.Same ls ls')
    (hrs : List.Forall₂ Token.Same rs rs') (hbs' : List.Forall₂ Token.Same bs bs')
    (hr : List.Forall₂ Token.Same e.rest r)
    (hts : ts = ki₁ :: lp₁ :: (ls' ++ rp₁ :: lb :: (ki₂ :: lp₂ :: (rs' ++ rp₂ :: bs') ++ [rb])))
    (hn : n + 3 + (ts ++ r).length ≤ n') :
    IsStatement n' i ts r (nested i ls'.length rs'.length l x b) := by
  subst hts
  simp only [List.length_append, List.length_cons, List.length_nil] at hn
  obtain ⟨d, rfl⟩ : ∃ d, n' = n + d + 3 := ⟨n' - n - 3, by omega⟩
  have hc := hl.placed (i + 2)
  have hc' := hx.placed (i + 6 + ls'.length)
  rw [← map_kind_of_same hls] at hc
  rw [← map_kind_of_same hrs] at hc'
  -- from the branch outwards
  have hbranch := IsStatement.of_yields hb hbs hbs' (r := rb :: r)
    (i := i + 7 + ls'.length + rs'.length) (fun _ => by simp [hrb]) d
  have hinner := IsStatement.one_branch (i := i + 4 + ls'.length) hki₂ hlp₂ hrp₂
    (by rwa [Nat.add_right_comm _ _ 2]) (by simp; omega) (hbranch.of_eq (by omega))
    (by simp [hrb])
  have hblock := IsStatement.block (i := i + 3 + ls'.length) hlb hrb (by simp [hki₂])
    (hinner.of_eq (by omega))
  exact IsStatement.one_branch hki₁ hlp₁ hrp₁ hc (by simp; omega) hblock
    (head?_any_of_next?_ne hnext hr)

/-- The first of two statements after each other is read when the second one is, unless its branch
ends open. -/
theorem isStatement_first (hl : Derives (.binary 1) j (ls.map (·.kind)) [l])
    (hb : (Grammar.forTokens n).statement.Yields s b m) (hbs : s.rest = bs ++ m.rest)
    (hopen : b.endsOpen = false) {el : Token} (hki₁ : ki₁.kind = .kwIf)
    (hlp₁ : lp₁.kind = .lParen) (hrp₁ : rp₁.kind = .rParen) (hel : el.kind = .kwElse)
    (hls : List.Forall₂ Token.Same ls ls') (hbs' : List.Forall₂ Token.Same bs bs') {d : Nat}
    (hts : ts = ki₁ :: lp₁ :: (ls' ++ rp₁ :: (bs' ++ el :: us))) (hn : (ts ++ r).length ≤ d)
    {i' : PieceTree} (hi' : IsStatement (n + d + 1) (i + 4 + ls'.length + bs'.length) us r i') :
    IsStatement (n + d + 2) i ts r
      (ifTree i (l.placed (i + 2)) (b.placed (i + 3 + ls'.length)) (some i')) := by
  subst hts
  have hc := hl.placed (i + 2)
  rw [← map_kind_of_same hls] at hc
  have hbranch := IsStatement.of_yields hb hbs hbs' (r := el :: (us ++ r))
    (i := i + 3 + ls'.length) (by simp [hopen]) d
  exact IsStatement.two_branches hki₁ hlp₁ hrp₁ hel hc
    (Nat.le_trans hn (by omega)) (hbranch.mono (Nat.le_succ _))
    (hi'.of_eq (by omega))

/-- **One statement is read after another one**, as its other branch, unless the branch ends
open. -/
theorem isStatement_ladder (hl : Derives (.binary 1) j (ls.map (·.kind)) [l])
    (hx : Derives (.binary 1) j' (rs.map (·.kind)) [x])
    (hb : (Grammar.forTokens n).statement.Yields s b e) (hbs : s.rest = bs ++ e.rest)
    (hnext : e.next? ≠ some .kwElse) (hopen : b.endsOpen = false) {el : Token}
    (hki₁ : ki₁.kind = .kwIf) (hlp₁ : lp₁.kind = .lParen) (hrp₁ : rp₁.kind = .rParen)
    (hel : el.kind = .kwElse) (hki₂ : ki₂.kind = .kwIf) (hlp₂ : lp₂.kind = .lParen)
    (hrp₂ : rp₂.kind = .rParen) (hls : List.Forall₂ Token.Same ls ls')
    (hrs : List.Forall₂ Token.Same rs rs') (hbs' : List.Forall₂ Token.Same bs bs')
    (hbs'' : List.Forall₂ Token.Same bs bs'') (hr : List.Forall₂ Token.Same e.rest r)
    (hts : ts = ki₁ :: lp₁ :: (ls' ++ rp₁ :: (bs' ++ el :: ki₂ :: lp₂ :: (rs' ++ rp₂ :: bs''))))
    (hn : n + 3 + (ts ++ r).length ≤ n') :
    IsStatement n' i ts r (ladder i ls'.length rs'.length bs'.length l x b none) := by
  obtain ⟨d, rfl⟩ : ∃ d, n' = n + d + 3 := ⟨n' - n - 3, by omega⟩
  have hd : (ts ++ r).length ≤ d := by omega
  have hc := hx.placed (i + 6 + ls'.length + bs'.length)
  rw [← map_kind_of_same hrs] at hc
  have hbranch := IsStatement.of_yields hb hbs hbs'' (r := r)
    (i := i + 7 + ls'.length + bs'.length + rs'.length) (by simp [hopen]) d
  have hinner := IsStatement.one_branch (i := i + 4 + ls'.length + bs'.length) hki₂ hlp₂ hrp₂
    (by convert hc using 1; omega) (by subst hts; simp at hd ⊢; omega)
    (hbranch.of_eq (by omega)) (head?_any_of_next?_ne hnext hr)
  exact (isStatement_first hl hb hbs hopen hki₁ hlp₁ hrp₁ hel hls hbs' hts hd hinner).mono
    (Nat.le_succ _)

/-- **So it is when there is another branch**, which goes with the second statement.  Neither branch
can end open then. -/
theorem isStatement_ladder_else (hl : Derives (.binary 1) j (ls.map (·.kind)) [l])
    (hx : Derives (.binary 1) j' (rs.map (·.kind)) [x])
    (hb : (Grammar.forTokens n).statement.Yields s b m) (hbs : s.rest = bs ++ m.rest)
    (hm : m.next? = some .kwElse) {o : PieceTree} {os os' : List Token}
    (ho : (Grammar.forTokens n).statement.Yields m.tail o e) (hos : m.tail.rest = os ++ e.rest)
    {el₁ el₂ : Token} (hki₁ : ki₁.kind = .kwIf) (hlp₁ : lp₁.kind = .lParen)
    (hrp₁ : rp₁.kind = .rParen) (hel₁ : el₁.kind = .kwElse) (hki₂ : ki₂.kind = .kwIf)
    (hlp₂ : lp₂.kind = .lParen) (hrp₂ : rp₂.kind = .rParen) (hel₂ : el₂.kind = .kwElse)
    (hls : List.Forall₂ Token.Same ls ls') (hrs : List.Forall₂ Token.Same rs rs')
    (hbs' : List.Forall₂ Token.Same bs bs') (hbs'' : List.Forall₂ Token.Same bs bs'')
    (hos' : List.Forall₂ Token.Same os os') (hr : List.Forall₂ Token.Same e.rest r)
    (hts : ts = ki₁ :: lp₁ :: (ls' ++ rp₁ :: (bs' ++ el₁ :: ki₂ :: lp₂ ::
      (rs' ++ rp₂ :: (bs'' ++ el₂ :: os')))))
    (hn : n + 3 + (ts ++ r).length ≤ n') :
    IsStatement n' i ts r (ladder i ls'.length rs'.length bs'.length l x b (some o)) := by
  obtain ⟨d, rfl⟩ : ∃ d, n' = n + d + 3 := ⟨n' - n - 3, by omega⟩
  have hd : (ts ++ r).length ≤ d := by omega
  have hopen : b.endsOpen = false := by
    by_contra hopen
    exact takesElse_forTokens n s b m hb (Bool.not_eq_false _ ▸ hopen) hm
  have hlength : bs''.length = bs'.length := hbs''.length_eq.symm.trans hbs'.length_eq
  have hc := hx.placed (i + 6 + ls'.length + bs'.length)
  rw [← map_kind_of_same hrs] at hc
  have hbranch := IsStatement.of_yields hb hbs hbs'' (r := el₂ :: (os' ++ r))
    (i := i + 7 + ls'.length + bs'.length + rs'.length) (by simp [hopen]) d
  have hother := IsStatement.of_yields ho hos hos' (r := r)
    (i := i + 8 + ls'.length + bs'.length + rs'.length + bs'.length)
    (fun h => head?_any_of_next?_ne (takesElse_forTokens n _ o e ho h) hr) d
  have hinner := IsStatement.two_branches (i := i + 4 + ls'.length + bs'.length) hki₂ hlp₂ hrp₂
    hel₂ (by convert hc using 1; omega) (by subst hts; simp at hd ⊢; omega)
    (hbranch.of_eq (by omega)) (hother.of_eq (by omega))
  exact (isStatement_first hl hb hbs hopen hki₁ hlp₁ hrp₁ hel₁ hls hbs' hts hd hinner).mono
    (Nat.le_succ _)

end

end Parse

end Mend
