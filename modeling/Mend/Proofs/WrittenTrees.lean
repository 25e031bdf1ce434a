import Mend.Proofs.ExchangedNode
import Mend.Proofs.LexemeChains
import Mend.Proofs.OwnTokens

/-!
# Trees as they are written

The nodes of a syntax tree refer to tokens by their positions, and those change when tokens come and
go before them.  Here a tree is told without positions: what each node is, with the words of its own
tokens.  A node that is exchanged for another one shows in it as that node alone.

A meaning of trees gives each of them a value that depends on what its root is and on the values
below it.  When a node is exchanged for one with the same value, the value of the tree stays.

## Main definitions

* `Wording`, `WrittenTree` — nodes with their words, and trees of those.
* `SourceCode.written` — a tree of a text as it is written there.
* `SourceCode.writtenWith` — the same, with another tree in place of one node.
* `WrittenTree.value` — the value of a tree.

## Main results

* `SourceCode.written_exchange` — **a tree with one node exchanged is written as before, except for
  this node.**
* `WrittenTree.value_writtenWith` — a node of the same value keeps the value of the tree.
-/

namespace Mend

/-- Tokens with the same word are the same, up to their places. -/
theorem same_of_word_eq {t t' : Token} (h : t'.word = t.word) : t.Same t' :=
  ⟨congrArg Prod.fst h, congrArg Prod.snd h⟩

/-- Tokens with the same words are the same, up to their places. -/
theorem forall₂_same_of_map_word {ts ts' : List Token}
    (h : ts'.map Token.word = ts.map Token.word) : List.Forall₂ Token.Same ts ts' := by
  induction ts generalizing ts' with
  | nil =>
    obtain rfl := List.map_eq_nil_iff.1 h
    exact .nil
  | cons t ts ih =>
    obtain ⟨t', ts', rfl, ht, hts⟩ := List.map_eq_cons_iff.1 h
    exact .cons (same_of_word_eq ht) (ih hts)

/-- What a node is, and the words of its own tokens, wherever they stand. -/
structure Wording where
  /-- What it is, with no positions. -/
  kind : NodeKind
  /-- The words of its own tokens, in the order of its kind. -/
  words : List (Option (TokenKind × String))
  deriving DecidableEq, Repr

/-- A tree without positions. -/
abbrev WrittenTree := Rose Wording

/-- A node without positions, when the words at positions are known. -/
def NodeKind.wording (word? : Nat → Option (TokenKind × String)) (k : NodeKind) : Wording :=
  ⟨k.moved fun _ => 0, k.ownTokens.map word?⟩

/-- A node that is known by one token has the word of this token. -/
theorem wording_unary {word? : Nat → Option (TokenKind × String)} {i : Nat}
    {w : TokenKind × String} (h : word? i = some w) :
    (NodeKind.unary i).wording word? = ⟨.unary 0, [some w]⟩ :=
  congrArg (fun w => Wording.mk _ [w]) h

theorem wording_binary {word? : Nat → Option (TokenKind × String)} {i : Nat}
    {w : TokenKind × String} (h : word? i = some w) :
    (NodeKind.binary i).wording word? = ⟨.binary 0, [some w]⟩ :=
  congrArg (fun w => Wording.mk _ [w]) h

/-- Parentheses have the words of both. -/
theorem wording_nested {word? : Nat → Option (TokenKind × String)} {i j : Nat}
    {v w : TokenKind × String} (hi : word? i = some v) (hj : word? j = some w) :
    (NodeKind.nested i j).wording word? = ⟨.nested 0 0, [some v, some w]⟩ :=
  congrArg₂ (fun v w => Wording.mk _ [v, w]) hi hj

theorem NodeKind.ownTokens_moved (f : Nat → Nat) (k : NodeKind) :
    (k.moved f).ownTokens = k.ownTokens.map f := by
  cases k <;> simp [moved, ownTokens, slots, Option.toList_map]

/-- A node whose own tokens lie at other positions, where the same words are, is written as
before. -/
theorem NodeKind.wording_moved {word? word?' : Nat → Option (TokenKind × String)} {f : Nat → Nat}
    {k : NodeKind} (h : ∀ i ∈ k.ownTokens, word?' (f i) = word? i) :
    (k.moved f).wording word?' = k.wording word? := by
  have hkind : (k.moved f).moved (fun _ => 0) = k.moved fun _ => 0 := by
    cases k <;> simp [moved, Function.comp_def]
  rw [wording, wording, hkind, ownTokens_moved, List.map_map]
  exact congrArg (Wording.mk _) (List.map_congr_left h)

/-! ### Trees -/

namespace PieceTree

variable {word? word?' : Nat → Option (TokenKind × String)} {f : Nat → Nat} {t : PieceTree}

/-- A tree as it is written, when the words at positions are known. -/
def written (word? : Nat → Option (TokenKind × String)) : PieceTree → WrittenTree :=
  Rose.fold fun p cs => .node (p.kind.wording word?) (cs.map (·.2))

theorem written_node (p : Piece) (cs : List PieceTree) :
    written word? (.node p cs) = .node (p.kind.wording word?) (cs.map (written word?)) := by
  rw [written, Rose.fold_node, List.map_map]
  rfl

/-- A tree at other positions, where the same words are, is written as before. -/
theorem written_moved
    (h : ∀ u ∈ t.subtrees, ∀ i ∈ u.label.kind.ownTokens, word?' (f i) = word? i) :
    (t.moved f).written word?' = t.written word? := by
  induction t using Rose.induct with
  | h p cs ih =>
    have hp : (p.kind.moved f).wording word?' = p.kind.wording word? :=
      NodeKind.wording_moved (h _ (Rose.self_mem_subtrees _))
    have hcs : cs.map (written word?' ∘ moved f) = cs.map (written word?) :=
      List.map_congr_left fun c hc => ih c hc fun u hu =>
        h u (Rose.mem_subtrees_node.2 (.inl ⟨c, hc, hu⟩))
    rw [moved_node, written_node, written_node, List.map_map, hp, hcs]

end PieceTree

namespace SyntaxTree

/-- A tree without its numbers. -/
def toPieces : SyntaxTree → PieceTree := Rose.fold fun n cs => .node n.toPiece (cs.map (·.2))

theorem toPieces_node (n : Node) (ts : List SyntaxTree) :
    toPieces (.node n ts) = .node n.toPiece (ts.map toPieces) := by
  rw [toPieces, Rose.fold_node, List.map_map]
  rfl

theorem toPieces_mapNumbered (t : PieceTree) (n : Nat) :
    toPieces (t.mapNumbered (fun n p => ({ p with id := n } : Node)) n).1 = t := by
  induction t using Rose.induct generalizing n with
  | h p cs ih =>
    have hcs (n : Nat) (cs : List PieceTree) (ih : ∀ c ∈ cs, ∀ n, toPieces
        (c.mapNumbered (fun n p => ({ p with id := n } : Node)) n).1 = c) :
        (Rose.mapNumberedAll (fun n p => ({ p with id := n } : Node)) n cs).1.map toPieces =
          cs := by
      induction cs generalizing n with
      | nil => rfl
      | cons c cs ihs =>
        rw [Rose.mapNumberedAll, List.map_cons, ih c List.mem_cons_self,
          ihs _ fun c hc => ih c (List.mem_cons_of_mem _ hc)]
    rw [Rose.mapNumbered, toPieces_node, hcs n cs ih]

@[simp] theorem toPieces_ofPieces (t : PieceTree) : (ofPieces t).toPieces = t :=
  toPieces_mapNumbered t 0

@[simp] theorem label_toPieces (t : SyntaxTree) : t.toPieces.label = t.label.toPiece := by
  cases t
  rw [toPieces_node]
  rfl

@[simp] theorem children_toPieces (t : SyntaxTree) :
    t.toPieces.children = t.children.map toPieces := by
  cases t
  rw [toPieces_node]
  rfl

/-- The subtrees of a tree without its numbers are its subtrees without their numbers. -/
theorem subtrees_toPieces (t : SyntaxTree) : t.toPieces.subtrees = t.subtrees.map toPieces := by
  induction t using Rose.induct with
  | h n ts ih =>
    rw [toPieces_node, Rose.subtrees_node, Rose.subtrees_node, List.flatMap_map, List.map_append,
      List.map_flatMap, List.map_singleton, toPieces_node]
    exact congrArg (· ++ _) (List.flatMap_congr ih)

/-- Two trees cover different tokens, and one of them comes first. -/
def Apart (t u : SyntaxTree) : Prop :=
  t.label.last < u.label.first ∨ u.label.last < t.label.first

/-- **Beside a part of a tree lie the own tokens of the nodes above it, and their other children.**
-/
theorem IsLaid.beside {n : Node} {ts : List SyntaxTree} {u : SyntaxTree} (h : IsLaid (.node n ts))
    (hu : u ∈ (Rose.node n ts).subtrees ∨ Apart (.node n ts) u) (hne : u ≠ .node n ts) :
    (∀ i ∈ n.kind.ownTokens, i < u.label.first ∨ u.label.last < i) ∧
      ∀ c ∈ ts, u ∈ c.subtrees ∨ Apart c u := by
  obtain ⟨hn, hts⟩ := Rose.all_node.1 h
  replace hts : ∀ c ∈ ts, IsLaid c := hts
  have hchild {c : SyntaxTree} (hc : c ∈ ts) :
      c.label.toPiece ∈ (ts.map Rose.label).map Node.toPiece :=
    List.mem_map_of_mem (List.mem_map_of_mem hc)
  have hown {i : Nat} (hi : i ∈ n.kind.ownTokens) := hn.own hi
  rcases hu with hu | hu
  · obtain ⟨d, hd, hu⟩ := (Rose.mem_subtrees_node.1 hu).resolve_right hne
    have hwithin := (hts d hd).subtree hu
    refine ⟨fun i hi => ?_, fun c hc => ?_⟩
    · have := (hown hi).2.2 _ (hchild hd)
      omega
    · by_cases hcd : c = d
      · exact .inl (hcd ▸ hu)
      · have hpairwise := List.pairwise_map.1 (List.pairwise_map.1 hn.pairwise)
        have hsymm : Std.Symm Apart := ⟨fun _ _ h => Or.symm h⟩
        have hapart : Apart c d := (hpairwise.imp .inl).forall hc hd hcd
        simp only [Apart] at hapart ⊢
        omega
  · simp only [Apart, Rose.label_node] at hu
    refine ⟨fun i hi => ?_, fun c hc => .inr ?_⟩
    · have := hown hi
      omega
    · have := hn.within (hchild hc)
      simp only [Apart]
      omega

theorem toPieces_mem_subtrees {t u : SyntaxTree} (hu : u ∈ t.subtrees) :
    u.toPieces ∈ t.toPieces.subtrees := subtrees_toPieces t ▸ List.mem_map_of_mem hu

end SyntaxTree

namespace SourceCode

variable {c : SourceCode} {t old : SyntaxTree} {new : WrittenTree}

/-- A token lies where its position says. -/
theorem tokenSpan_of_getElem? {i : Nat} {tok : Token} (h : c.tokens.toList[i]? = some tok) :
    c.tokenSpan i = tok.span := by
  rw [tokenSpan_eq, List.getElem?_map, h]
  rfl

/-- The word of a token. -/
def word? (c : SourceCode) (i : Nat) : Option (TokenKind × String) := c.tokens[i]?.map Token.word

theorem word?_eq (c : SourceCode) (i : Nat) :
    c.word? i = (c.tokens.toList.map Token.word)[i]? := by
  rw [word?, List.getElem?_map, Array.getElem?_toList]

theorem word?_of_getElem? {i : Nat} {tok : Token} {w : TokenKind × String}
    (h : c.tokens.toList[i]? = some tok) (hw : tok.word = w) : c.word? i = some w := by
  rw [word?_eq, List.getElem?_map, h, Option.map_some, hw]

/-- A tree of a text as it is written there. -/
def written (c : SourceCode) : SyntaxTree → WrittenTree :=
  Rose.fold fun n cs => .node (n.kind.wording c.word?) (cs.map (·.2))

/-- A tree of a text as it is written there, with another tree in place of one node. -/
def writtenWith (c : SourceCode) (old : SyntaxTree) (new : WrittenTree) :
    SyntaxTree → WrittenTree :=
  Rose.fold fun n cs =>
    if n.id = old.label.id then new else .node (n.kind.wording c.word?) (cs.map (·.2))

theorem written_node (n : Node) (ts : List SyntaxTree) :
    c.written (.node n ts) = .node (n.kind.wording c.word?) (ts.map c.written) := by
  rw [written, Rose.fold_node, List.map_map]
  rfl

theorem writtenWith_node (n : Node) (ts : List SyntaxTree) :
    c.writtenWith old new (.node n ts) = if n.id = old.label.id then new
      else .node (n.kind.wording c.word?) (ts.map (c.writtenWith old new)) := by
  rw [writtenWith, Rose.fold_node, List.map_map]
  rfl

theorem written_eq_node (t : SyntaxTree) :
    c.written t = .node (t.label.kind.wording c.word?) (t.children.map c.written) := by
  cases t
  exact written_node _ _

theorem written_eq (t : SyntaxTree) : c.written t = t.toPieces.written c.word? := by
  induction t using Rose.induct with
  | h n ts ih =>
    rw [written_node, SyntaxTree.toPieces_node, PieceTree.written_node, List.map_map]
    exact congrArg _ (List.map_congr_left ih)

/-- **A tree with one node exchanged is written as before, except for this node**, when the words
outside of the node are the same ones.  The node is known by one of its own tokens. -/
theorem written_exchange {isOld : Piece → Bool} {f : Nat → Nat} {new : PieceTree}
    {word?' : Nat → Option (TokenKind × String)} (hlaid : t.IsLaid)
    (hid : ∀ u ∈ t.subtrees, u.label.id = old.label.id → u = old)
    (hold : isOld old.label.toPiece = true)
    (hown : ∀ p, isOld p = true →
      ∃ i ∈ p.kind.ownTokens, old.label.first ≤ i ∧ i ≤ old.label.last)
    (hplace : old ∈ t.subtrees ∨ t.Apart old)
    (hword : ∀ i, i < old.label.first ∨ old.label.last < i → word?' (f i) = c.word? i) :
    (t.toPieces.exchange isOld f new).written word?' =
      c.writtenWith old (new.written word?') t := by
  induction t using Rose.induct with
  | h n ts ih =>
    rw [SyntaxTree.toPieces_node, PieceTree.exchange_node, writtenWith_node]
    by_cases hnode : old = .node n ts
    · subst hnode
      rw [if_pos (show isOld n.toPiece = true from hold)]
      exact (if_pos rfl).symm
    · obtain ⟨hbeside, hchildren⟩ := hlaid.beside hplace hnode
      have hne : ¬isOld n.toPiece = true := by
        intro h
        obtain ⟨i, hi, hwithin⟩ := hown _ h
        have := hbeside i hi
        omega
      have hkind : (n.kind.moved f).wording word?' = n.kind.wording c.word? :=
        NodeKind.wording_moved fun i hi => hword i (hbeside i hi)
      have hne' : n.id ≠ old.label.id := fun h => hnode (hid _ (Rose.self_mem_subtrees _) h).symm
      rw [if_neg hne, if_neg hne', PieceTree.written_node, List.map_map, List.map_map, hkind]
      refine congrArg _ (List.map_congr_left fun u hu => ?_)
      exact ih u hu ((Rose.all_node.1 hlaid).2 u hu)
        (fun v hv => hid v (Rose.mem_subtrees_node.2 (.inl ⟨u, hu, hv⟩))) (hchildren u hu)

end SourceCode

/-! ### Values -/

namespace WrittenTree

variable {V : Type} {f : Wording → List V → V} {c : SourceCode} {t old : SyntaxTree}
  {new : WrittenTree}

/-- The value of a tree, from what its root is and from the values below it. -/
def value (f : Wording → List V → V) : WrittenTree → V := Rose.fold fun w cs => f w (cs.map (·.2))

theorem value_node (w : Wording) (cs : List WrittenTree) :
    value f (.node w cs) = f w (cs.map (value f)) := by
  rw [value, Rose.fold_node, List.map_map]
  rfl

/-- **A node of the same value keeps the value of the tree.** -/
theorem value_writtenWith (hold : ∀ u ∈ t.subtrees, u.label.id = old.label.id → u = old)
    (hnew : value f new = value f (c.written old)) :
    value f (c.writtenWith old new t) = value f (c.written t) := by
  induction t using Rose.induct with
  | h n ts ih =>
    rw [SourceCode.writtenWith_node]
    split
    next hid => rw [hnew, ← hold _ (Rose.self_mem_subtrees _) hid]
    next =>
      rw [SourceCode.written_node, value_node, value_node, List.map_map, List.map_map]
      refine congrArg _ (List.map_congr_left fun u hu => ?_)
      exact ih u hu fun v hv => hold v (Rose.mem_subtrees_node.2 (.inl ⟨u, hu, hv⟩))

end WrittenTree

end Mend
