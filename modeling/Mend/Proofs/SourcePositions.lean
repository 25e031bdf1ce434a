import Mend.Proofs.ArenaTrees
import Mend.Snapshot.ParsedFile

/-!
# Where tokens and nodes lie

The pieces into which a text is split follow each other, so its tokens do.  A node covers a run of
tokens, and the order of its tokens and children carries over from positions among the tokens to
offsets in the text.

## Main definitions

* `Span.InOrder` — spans that follow each other.
* `SourceCode.IsOrdered` — the tokens of a text follow each other, and its tree is laid out.
* `SourceCode.layoutSpans` — where the tokens and the children of a node lie, in order.

## Main results

* `Lexeme.inOrder_splitFrom` — the pieces of a text follow each other.
* `SourceCode.ofText_eq_ok_iff` — what is read from a text are its tokens and the tree of those.
* `SourceCode.isOrdered_of_ofText_eq_ok` — what is read from a text is in order.
* `SourceCode.IsOrdered.node` — **the tokens and children of a node follow each other within it.**
-/

namespace Mend

namespace Span

/-! ### Spans that follow each other -/

/-- Spans that follow each other between two offsets.  They may touch, and text may be left out. -/
def InOrder (lo : Nat) : List Span → Nat → Prop
  | [], hi => lo ≤ hi
  | s :: ss, hi => lo ≤ s.start ∧ s.start ≤ s.stop ∧ InOrder s.stop ss hi

variable {lo hi : Nat} {s : Span} {ss us : List Span}

@[simp] theorem inOrder_nil : InOrder lo [] hi ↔ lo ≤ hi := Iff.rfl

@[simp] theorem inOrder_cons : InOrder lo (s :: ss) hi ↔
    lo ≤ s.start ∧ s.start ≤ s.stop ∧ InOrder s.stop ss hi := Iff.rfl

namespace InOrder

protected theorem le (h : InOrder lo ss hi) : lo ≤ hi := by
  induction ss generalizing lo with
  | nil => exact h
  | cons s ss ih =>
    obtain ⟨hlo, hs, hrest⟩ := h
    have := ih hrest
    omega

/-- Spans stay in order when the first offset moves to the front. -/
protected theorem mono {lo' : Nat} (h : InOrder lo ss hi) (hlo : lo' ≤ lo) :
    InOrder lo' ss hi := by
  cases ss with
  | nil => exact Nat.le_trans hlo h
  | cons s ss => exact ⟨Nat.le_trans hlo h.1, h.2⟩

/-- Of spans in order some may be left out. -/
protected theorem sublist (h : InOrder lo ss hi) (hsub : us.Sublist ss) : InOrder lo us hi := by
  induction hsub generalizing lo with
  | slnil => exact h
  | cons s _ ih => exact (ih h.2.2).mono (Nat.le_trans h.1 h.2.1)
  | cons_cons s _ ih => exact ⟨h.1, h.2.1, ih h.2.2⟩

/-- A span in order lies between the offsets. -/
protected theorem of_mem (h : InOrder lo ss hi) (hs : s ∈ ss) :
    lo ≤ s.start ∧ s.start ≤ s.stop ∧ s.stop ≤ hi := by
  have hone : InOrder lo [s] hi := h.sublist (List.singleton_sublist.2 hs)
  exact hone

/-- Of two spans in order, the first one stops before the other one starts. -/
protected theorem pairwise (h : InOrder lo ss hi) : ss.Pairwise fun s u => s.stop ≤ u.start := by
  induction ss generalizing lo with
  | nil => exact .nil
  | cons s ss ih => exact List.pairwise_cons.2 ⟨fun u hu => (h.2.2.of_mem hu).1, ih h.2.2⟩

end InOrder

end Span

/-! ### Tokens -/

namespace Lexeme

/-- Where a piece lies. -/
def span (l : Lexeme) : Span := ⟨l.start, l.start + l.text.length⟩

/-- **The pieces of a text follow each other.**  Each of them begins where the one before it
stops. -/
theorem inOrder_splitFrom {b : Bool} {o : Nat} {t : Text} {ls : List Lexeme}
    (h : splitFrom b o t = .ok ls) : Span.InOrder o (ls.map span) (o + t.length) := by
  fun_induction splitFrom b o t generalizing ls with
  | case1 =>
    cases h
    exact Nat.le_refl _
  | case2 | case3 | case4 => cases h
  | case5 _ o c rest _ n _ text _ hrest =>
    rename_i ih
    cases h
    -- the rest of the text is split from where the piece stops
    have hlength : o + text.length + (rest.drop n).length = o + (c :: rest).length := by
      simp only [text, List.length_cons, List.length_take, List.length_drop]
      omega
    exact ⟨Nat.le_refl o, Nat.le_add_right _ _, hlength ▸ ih hrest⟩

/-- A token lies where its piece does, and is spelled as long as it is. -/
theorem span_of_token?_eq_some {l : Lexeme} {t : Token} (h : l.token? = some t) :
    t.span = l.span ∧ t.spelling.toList.length = t.span.length := by
  unfold token? at h
  split at h
  next =>
    cases h
    simp [span, Span.length]
  next => cases h

/-- The tokens among pieces lie where some of the pieces do. -/
theorem sublist_span_token? (ls : List Lexeme) :
    ((ls.filterMap token?).map Token.span).Sublist (ls.map span) := by
  induction ls with
  | nil => exact .slnil
  | cons l ls ih =>
    cases hl : l.token? with
    | none =>
      rw [List.filterMap_cons_none hl]
      exact ih.cons _
    | some t =>
      rw [List.filterMap_cons_some hl, List.map_cons, (span_of_token?_eq_some hl).1]
      exact ih.cons_cons _

end Lexeme

/-- **The tokens of a text follow each other in it.** -/
theorem Lexed.inOrder_tokens {t : Text} {lexed : Lexed} (h : ofText t = .ok lexed) :
    Span.InOrder 0 (lexed.tokens.map Token.span) t.length := by
  rw [ofText] at h
  split at h
  next pieces hpieces =>
    cases h
    have horder := Lexeme.inOrder_splitFrom hpieces
    rw [Nat.zero_add] at horder
    exact horder.sublist (Lexeme.sublist_span_token? pieces)
  next => cases h

namespace SourceCode

/-- What has been read is in order. -/
structure IsOrdered (c : SourceCode) : Prop where
  /-- The tokens follow each other in the text. -/
  tokens : Span.InOrder 0 (c.tokens.toList.map Token.span) c.text.length
  /-- A token is spelled with as many characters as it covers. -/
  spelled : ∀ t ∈ c.tokens.toList, t.spelling.toList.length = t.span.length
  /-- The nodes are laid out. -/
  tree : c.tree.IsLaid

/-- A text is read as its tokens and the tree that is read from them without an arena. -/
theorem ofText_eq (t : Text) : ofText t =
    match Lexed.ofText t with
    | .error e => .error e
    | .ok lexed =>
      match PieceTree.ofTokens lexed.tokens t.length with
      | .error e => .error e
      | .ok tree => .ok ⟨t, lexed.tokens.toArray, lexed.includes, .ofPieces tree⟩ := by
  rw [ofText]
  cases Lexed.ofText t with
  | error e => rfl
  | ok L =>
    simp only
    cases h : PieceTree.ofTokens L.tokens t.length with
    | error e => rw [Ast.ofTokens_eq_error h]
    | ok p =>
      obtain ⟨a, ha, htree⟩ := Ast.exists_tree_eq_of_ofTokens h
      simp only [ha, htree]

/-- What is read from a text are its tokens and the tree of those. -/
theorem ofText_eq_ok_iff {t : Text} {c : SourceCode} : ofText t = .ok c ↔
    ∃ L p, Lexed.ofText t = .ok L ∧ PieceTree.ofTokens L.tokens t.length = .ok p ∧
      c = ⟨t, L.tokens.toArray, L.includes, .ofPieces p⟩ := by
  rw [ofText_eq]
  constructor
  · intro h
    split at h
    next => cases h
    next L hL =>
      split at h
      next => cases h
      next p hp =>
        cases h
        exact ⟨L, p, hL, hp, rfl⟩
  · rintro ⟨L, p, hL, hp, rfl⟩
    simp only [hL, hp]

/-- Nodes of a reading with the same number are the same. -/
theorem eq_of_id_eq_of_ofText {t : Text} {c : SourceCode} (hc : ofText t = .ok c)
    {old u : SyntaxTree} (hold : old ∈ c.tree.subtrees) (hu : u ∈ c.tree.subtrees)
    (hid : u.label.id = old.label.id) : u = old := by
  obtain ⟨L, p, -, -, rfl⟩ := ofText_eq_ok_iff.1 hc
  exact SyntaxTree.eq_of_id_eq hold hu hid

/-- **What is read from a text is in order.** -/
theorem isOrdered_of_ofText_eq_ok {t : Text} {c : SourceCode} (h : ofText t = .ok c) :
    c.IsOrdered := by
  obtain ⟨L, p, hlexed, htree, rfl⟩ := ofText_eq_ok_iff.1 h
  refine ⟨Lexed.inOrder_tokens hlexed, fun token htoken => ?_,
    SyntaxTree.isLaid_ofPieces (PieceTree.isLaid_of_ofTokens_eq_ok htree).1⟩
  rw [Lexed.ofText] at hlexed
  split at hlexed
  next pieces _ =>
    cases hlexed
    obtain ⟨l, -, hl⟩ := List.mem_filterMap.1 htoken
    exact (Lexeme.span_of_token?_eq_some hl).2
  next => cases hlexed

/-! Tokens and nodes lie between their ends. -/

@[simp] theorem start_tokenSpan (c : SourceCode) (i : Nat) :
    (c.tokenSpan i).start = c.tokenStart i := rfl

@[simp] theorem stop_tokenSpan (c : SourceCode) (i : Nat) :
    (c.tokenSpan i).stop = c.tokenStop i := rfl

@[simp] theorem start_spanOf (c : SourceCode) (t : SyntaxTree) :
    (c.spanOf t).start = c.startOf t := rfl

@[simp] theorem stop_spanOf (c : SourceCode) (t : SyntaxTree) :
    (c.spanOf t).stop = c.stopOf t := rfl

variable {c : SourceCode} {i j : Nat}

/-- Where a token lies, if there is one. -/
theorem tokenSpan_eq (c : SourceCode) (i : Nat) :
    c.tokenSpan i = ((c.tokens.toList.map Token.span)[i]?).getD (.point c.text.length) := by
  rw [List.getElem?_map, Array.getElem?_toList, tokenSpan, tokenStart, tokenStop]
  cases c.tokens[i]? <;> rfl

namespace IsOrdered

/-- A token lies in the text. -/
theorem tokenSpan (h : c.IsOrdered) (i : Nat) :
    c.tokenStart i ≤ c.tokenStop i ∧ c.tokenStop i ≤ c.text.length := by
  show (c.tokenSpan i).start ≤ (c.tokenSpan i).stop ∧ (c.tokenSpan i).stop ≤ c.text.length
  rw [tokenSpan_eq]
  cases hi : (c.tokens.toList.map Token.span)[i]? with
  | none => exact ⟨Nat.le_refl _, Nat.le_refl _⟩
  | some s => exact (h.tokens.of_mem (List.mem_of_getElem? hi)).2

/-- A token stops before a later one starts. -/
theorem tokenStop_le_tokenStart (h : c.IsOrdered) (hij : i < j) :
    c.tokenStop i ≤ c.tokenStart j := by
  show (c.tokenSpan i).stop ≤ (c.tokenSpan j).start
  rw [tokenSpan_eq c j]
  cases hj : (c.tokens.toList.map Token.span)[j]? with
  -- where there is no later token, the text ends
  | none => exact (h.tokenSpan i).2
  | some s =>
    obtain ⟨hjlt, hj⟩ := List.getElem?_eq_some_iff.1 hj
    rw [tokenSpan_eq, List.getElem?_eq_getElem (Nat.lt_trans hij hjlt), ← hj]
    exact List.pairwise_iff_getElem.1 h.tokens.pairwise i j _ hjlt hij

theorem tokenStart_mono (h : c.IsOrdered) (hij : i ≤ j) : c.tokenStart i ≤ c.tokenStart j := by
  rcases Nat.eq_or_lt_of_le hij with rfl | hlt
  · exact Nat.le_refl _
  · exact Nat.le_trans (h.tokenSpan i).1 (h.tokenStop_le_tokenStart hlt)

theorem tokenStop_mono (h : c.IsOrdered) (hij : i ≤ j) : c.tokenStop i ≤ c.tokenStop j := by
  rcases Nat.eq_or_lt_of_le hij with rfl | hlt
  · exact Nat.le_refl _
  · exact Nat.le_trans (h.tokenStop_le_tokenStart hlt) (h.tokenSpan j).1

/-- A token stops where its spelling ends. -/
theorem tokenStart_add_length (h : c.IsOrdered) (i : Nat) :
    c.tokenStart i + (c.spelling i).toList.length = c.tokenStop i := by
  have hlies := (h.tokenSpan i).1
  rw [tokenStart, tokenStop, spelling] at *
  cases hi : c.tokens[i]? with
  | none => simp
  | some t =>
    rw [hi] at hlies
    have hlength := h.spelled t (by
      rw [← Array.getElem?_toList] at hi
      exact List.mem_of_getElem? hi)
    simp only [Span.length, Token.start, Token.stop] at hlength hlies ⊢
    omega

end IsOrdered

/-! ### Nodes -/

/-- Where the tokens of a run lie. -/
def runSpan (c : SourceCode) (r : TokenRun) : Span := ⟨c.tokenStart r.first, c.tokenStop r.last⟩

@[simp] theorem runSpan_single (c : SourceCode) (i : Nat) :
    c.runSpan (.single i) = c.tokenSpan i := rfl

@[simp] theorem runSpan_run (c : SourceCode) (t : SyntaxTree) :
    c.runSpan t.label.toPiece.run = c.spanOf t := rfl

/-- Where the tokens and the children of a node lie, in the order of its kind. -/
def layoutSpans (c : SourceCode) (t : SyntaxTree) : List Span :=
  (t.label.toPiece.layout (t.children.map fun u => u.label.toPiece)).map c.runSpan

variable {t u v : SyntaxTree}

namespace IsOrdered

/-- Runs that follow each other lie in order. -/
theorem inOrder_runSpan (h : c.IsOrdered) {o lo hi : Nat} {rs : List TokenRun}
    (hrs : TokenRun.InOrder lo rs (hi + 1)) (ho : o ≤ c.tokenStart lo) (hhi : o ≤ c.tokenStop hi) :
    Span.InOrder o (rs.map c.runSpan) (c.tokenStop hi) := by
  induction rs generalizing o lo with
  | nil => exact hhi
  | cons r rs ih =>
    obtain ⟨hlo, hr, hrest⟩ := hrs
    have hlast : r.last ≤ hi := Nat.le_of_succ_le_succ hrest.le
    have hstart := h.tokenStart_mono hlo
    refine ⟨Nat.le_trans ho hstart, ?_, ?_⟩
    · exact Nat.le_trans (h.tokenStart_mono hr) (h.tokenSpan r.last).1
    · exact ih hrest (h.tokenStop_le_tokenStart (Nat.lt_succ_self _)) (h.tokenStop_mono hlast)

/-- **The tokens and children of a node follow each other within it.** -/
theorem node (h : c.IsOrdered) (hu : u ∈ c.tree.subtrees) :
    Span.InOrder (c.startOf u) (c.layoutSpans u) (c.stopOf u) := by
  have hlaid : u.label.toPiece.IsLaid ((u.children.map Rose.label).map Node.toPiece) := h.tree u hu
  rw [List.map_map] at hlaid
  refine h.inOrder_runSpan hlaid.inOrder (Nat.le_refl _) ?_
  exact Nat.le_trans (h.tokenStart_mono hlaid.first_le_last) (h.tokenSpan _).1

/-- The children of a node follow each other within it. -/
theorem children (h : c.IsOrdered) (hu : u ∈ c.tree.subtrees) :
    Span.InOrder (c.startOf u) (u.children.map c.spanOf) (c.stopOf u) := by
  refine (h.node hu).sublist ?_
  rw [layoutSpans, Piece.layout]
  have hruns := (TokenRun.sublist_interleave
    (u.label.toPiece.kind.slots ((u.children.map fun v => v.label.toPiece).map Piece.kind))
    ((u.children.map fun v => v.label.toPiece).map Piece.run)).map c.runSpan
  rw [List.map_map, List.map_map] at hruns
  exact hruns

/-- A node below another one lies within it. -/
theorem subtree (h : c.IsOrdered) (hu : u ∈ c.tree.subtrees) (hv : v ∈ u.subtrees) :
    c.startOf u ≤ c.startOf v ∧ c.startOf v ≤ c.stopOf v ∧ c.stopOf v ≤ c.stopOf u := by
  have hlaid : u.IsLaid := fun w hw => h.tree w (Rose.subtrees_subset hu hw)
  obtain ⟨hfirst, hrun, hlast⟩ := hlaid.subtree hv
  exact ⟨h.tokenStart_mono hfirst,
    Nat.le_trans (h.tokenStart_mono hrun) (h.tokenSpan _).1, h.tokenStop_mono hlast⟩

/-- Two operands stand around their operator. -/
theorem binary (h : c.IsOrdered) (ht : t ∈ c.tree.subtrees) {operator : Nat}
    (hkind : t.label.kind = .binary operator) (hchildren : t.children = [u, v]) :
    Span.InOrder (c.startOf t) [c.spanOf u, c.tokenSpan operator, c.spanOf v] (c.stopOf t) := by
  have hnode := h.node ht
  simpa [layoutSpans, Piece.layout, NodeKind.slots, TokenRun.interleave, hkind, hchildren]
    using hnode

/-- A node lies in the text. -/
theorem spanOf (h : c.IsOrdered) (hu : u ∈ c.tree.subtrees) :
    c.startOf u ≤ c.stopOf u ∧ c.stopOf u ≤ c.text.length :=
  ⟨(h.subtree hu u.self_mem_subtrees).2.1, (h.tokenSpan _).2⟩

end IsOrdered

end SourceCode

/-- A file that has been read is in order. -/
theorem ParsedFile.isOrdered (f : ParsedFile) : f.IsOrdered :=
  SourceCode.isOrdered_of_ofText_eq_ok f.isReading

end Mend
