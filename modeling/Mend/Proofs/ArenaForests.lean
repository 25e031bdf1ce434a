import Mend.Code.Arena.File
import Mend.Proofs.Subtrees

/-!
# Forests in an arena

While a file is read, the arena holds a *forest*: the trees of everything that has been read and
that no other node has taken as a child yet.  A node that is added takes the last few of those trees
as its children, and becomes the last tree itself.  So what an arena holds at a time is told by a
list of trees: its nodes are those of the trees, each one after its children, with the places of the
children and with the parent.

## Main definitions

* `Rose.withParents` — all subtrees, each with the label of the tree it is a child of.
* `Entry`, `AstNode.entry` — what an arena tells of a node.
* `Ast.Holds` — an arena holds the trees of a list.
* `idAfter`, `idsAfter` — the places of trees that are read after others.

## Main results

* `Ast.Holds.adopt` — the children of a new node learn who their parent is, and no other node
  changes.
* `Ast.Holds.add` — **a node that is added takes the last trees as its children**, and is the last
  tree after that.
-/

namespace Mend

/-! ### Subtrees with their parents -/

namespace Rose

variable {α : Type}

mutual

/-- All subtrees of a tree, each with the label of the tree that it is a child of.  For the tree
itself that label is given. -/
def withParents (parent : Option α) : Rose α → List (Rose α × Option α)
  | node a ts => withParentsAll (some a) ts ++ [(node a ts, parent)]

/-- All subtrees of the trees of a list, with the given label for the trees themselves. -/
def withParentsAll (parent : Option α) : List (Rose α) → List (Rose α × Option α)
  | [] => []
  | t :: ts => withParents parent t ++ withParentsAll parent ts

end

theorem withParentsAll_append (q : Option α) (ts us : List (Rose α)) :
    withParentsAll q (ts ++ us) = withParentsAll q ts ++ withParentsAll q us := by
  induction ts with
  | nil => rfl
  | cons t ts ih => rw [List.cons_append, withParentsAll, withParentsAll, ih, List.append_assoc]

/-- Without the parents, these are the subtrees. -/
theorem map_fst_withParents (q : Option α) (t : Rose α) :
    (withParents q t).map Prod.fst = t.subtrees := by
  induction t using Rose.rec
    (motive_2 := fun ts => ∀ q, (withParentsAll q ts).map Prod.fst = subtreesAll ts)
    generalizing q with
  | node a ts ih => rw [withParents, subtrees, List.map_append, ih]; rfl
  | nil => rfl
  | cons t ts ih ihs => rw [withParentsAll, subtreesAll, List.map_append, ih, ihs]

theorem map_fst_withParentsAll (q : Option α) (ts : List (Rose α)) :
    (withParentsAll q ts).map Prod.fst = subtreesAll ts := by
  induction ts with
  | nil => rfl
  | cons t ts ih => rw [withParentsAll, subtreesAll, List.map_append, map_fst_withParents, ih]

/-- A subtree that is not the tree itself is listed with the label of a tree that it is a child
of. -/
theorem exists_of_mem_withParents {q q' : Option α} {t u : Rose α}
    (h : (u, q') ∈ withParents q t) :
    (u = t ∧ q' = q) ∨ ∃ p ∈ t.subtrees, u ∈ p.children ∧ q' = some p.label := by
  induction t using Rose.rec
    (motive_2 := fun ts => ∀ q, (u, q') ∈ withParentsAll q ts →
      (u ∈ ts ∧ q' = q) ∨ ∃ p ∈ subtreesAll ts, u ∈ p.children ∧ q' = some p.label)
    generalizing q with
  | node a ts ih =>
    rw [withParents, List.mem_append, List.mem_singleton] at h
    rcases h with h | h
    · right
      rcases ih _ h with ⟨hu, hq⟩ | ⟨p, hp, hup, hq⟩
      · exact ⟨node a ts, self_mem_subtrees _, hu, hq⟩
      · exact ⟨p, List.mem_append_left _ hp, hup, hq⟩
    · exact .inl (Prod.mk.inj h)
  | nil => rename_i hmem; cases hmem
  | cons t ts ih ihs =>
    rename_i q hmem
    rw [withParentsAll, List.mem_append] at hmem
    rcases hmem with hmem | hmem
    · rcases ih hmem with ⟨rfl, hq⟩ | ⟨p, hp, hup, hq⟩
      · exact .inl ⟨List.mem_cons_self, hq⟩
      · exact .inr ⟨p, List.mem_append_left _ hp, hup, hq⟩
    · rcases ihs q hmem with ⟨hu, hq⟩ | ⟨p, hp, hup, hq⟩
      · exact .inl ⟨List.mem_cons_of_mem _ hu, hq⟩
      · exact .inr ⟨p, List.mem_append_right _ hp, hup, hq⟩

theorem mapNumberedAll_append {β : Type} (f : Nat → α → β) (n : Nat) (ts us : List (Rose α)) :
    mapNumberedAll f n (ts ++ us) =
      ((mapNumberedAll f n ts).1 ++ (mapNumberedAll f (mapNumberedAll f n ts).2 us).1,
        (mapNumberedAll f (mapNumberedAll f n ts).2 us).2) := by
  induction ts generalizing n with
  | nil => rfl
  | cons t ts ih => simp only [List.cons_append, mapNumberedAll, ih]

end Rose

/-! ### The places of trees -/

/-- A piece with the number that is its place. -/
def Piece.numbered (n : Nat) (p : Piece) : Node := { p with id := n }

namespace PieceTree

open Rose

/-- The trees of a list with their nodes numbered from `n` on. -/
def numberedFrom (n : Nat) (ts : List PieceTree) : List SyntaxTree :=
  (mapNumberedAll Piece.numbered n ts).1

/-- The first place that is free behind trees that begin at `n`. -/
def placeFrom (n : Nat) (ts : List PieceTree) : Nat := (mapNumberedAll Piece.numbered n ts).2

/-- The place of a tree that is read after others. -/
def idAfter (us : List PieceTree) (t : PieceTree) : NodeId :=
  (mapNumbered Piece.numbered (placeFrom 0 us) t).1.label.id

/-- The places of trees that are read after others. -/
def idsAfter (us : List PieceTree) : List PieceTree → List NodeId
  | [] => []
  | t :: ts => idAfter us t :: idsAfter (us ++ [t]) ts

variable {n : Nat} {us ts cs : List PieceTree} {t : PieceTree}

theorem numberedFrom_cons :
    numberedFrom n (t :: ts) =
      (mapNumbered Piece.numbered n t).1 ::
        numberedFrom (mapNumbered Piece.numbered n t).2 ts := rfl

theorem numberedFrom_append :
    numberedFrom n (us ++ ts) = numberedFrom n us ++ numberedFrom (placeFrom n us) ts := by
  rw [numberedFrom, mapNumberedAll_append]
  rfl

theorem placeFrom_append : placeFrom n (us ++ ts) = placeFrom (placeFrom n us) ts := by
  rw [placeFrom, mapNumberedAll_append]
  rfl

@[simp] theorem idsAfter_nil : idsAfter us [] = [] := rfl

@[simp] theorem idsAfter_cons :
    idsAfter us (t :: ts) = idAfter us t :: idsAfter (us ++ [t]) ts := rfl

@[simp] theorem idsAfter_append :
    idsAfter us (ts ++ cs) = idsAfter us ts ++ idsAfter (us ++ ts) cs := by
  induction ts generalizing us with
  | nil => simp
  | cons t ts ih => simp [ih]

@[simp] theorem isEmpty_idsAfter : (idsAfter us ts).isEmpty = ts.isEmpty := by
  cases ts <;> rfl

theorem idsAfter_toList (o : Option PieceTree) :
    idsAfter us o.toList = (o.map (idAfter us)).toList := by
  cases o <;> rfl

/-- A tree is placed behind its children. -/
theorem idAfter_node (p : Piece) : idAfter us (.node p cs) = placeFrom 0 (us ++ cs) := by
  rw [placeFrom_append]
  rfl

/-- The places of trees are the numbers of their nodes. -/
theorem map_id_numberedFrom :
    (numberedFrom (placeFrom 0 us) ts).map SyntaxTree.id = idsAfter us ts := by
  induction ts generalizing us with
  | nil => rfl
  | cons t ts ih =>
    have hplace : placeFrom 0 (us ++ [t]) = (mapNumbered Piece.numbered (placeFrom 0 us) t).2 := by
      rw [placeFrom_append]
      rfl
    rw [numberedFrom_cons, List.map_cons, idsAfter_cons, ← ih, hplace]
    rfl

end PieceTree

/-! ### What an arena holds -/

/-- What an arena tells of a node: what it is, and its links to other nodes. -/
structure Entry where
  /-- What the node is. -/
  piece : Piece
  /-- The places of its children. -/
  children : List NodeId
  /-- The place of its parent. -/
  parent : Option NodeId
  deriving DecidableEq, Repr

/-- What an arena tells of a node. -/
def AstNode.entry (n : AstNode) : Entry :=
  ⟨⟨n.form.kind, n.first, n.last⟩, n.form.children, n.parent⟩

/-- What is to be told of a subtree with the node that it is a child of. -/
def Entry.ofSubtree (u : SyntaxTree × Option Node) : Entry :=
  ⟨u.1.label.toPiece, u.1.children.map SyntaxTree.id, u.2.map Node.id⟩

namespace PieceTree

open Rose

/-- What is to be told of the nodes of trees that begin at `n`, when the trees have a parent. -/
def entriesFrom (q : Option Node) (n : Nat) (ts : List PieceTree) : List Entry :=
  (withParentsAll q (numberedFrom n ts)).map Entry.ofSubtree

variable {q : Option Node} {n : Nat} {us ts cs : List PieceTree}

@[simp] theorem entriesFrom_nil : entriesFrom q n [] = [] := rfl

theorem entriesFrom_append :
    entriesFrom q n (us ++ ts) = entriesFrom q n us ++ entriesFrom q (placeFrom n us) ts := by
  rw [entriesFrom, numberedFrom_append, withParentsAll_append, List.map_append]
  rfl

/-- The free place behind trees is behind as many places as the trees have nodes. -/
theorem placeFrom_eq (q : Option Node) (n : Nat) (ts : List PieceTree) :
    placeFrom n ts = n + (entriesFrom q n ts).length := by
  have hnumbered : IsNumbered Node.id n ((numberedFrom n ts).flatMap subtrees) (placeFrom n ts) :=
    isNumbered_mapNumberedAll_of (fun t _ => isNumbered_mapNumbered (fun _ _ => rfl) t) n
  rw [hnumbered.1, ← subtreesAll_eq_flatMap, ← map_fst_withParentsAll q, entriesFrom,
    List.length_map, List.length_map]

/-- A tree begins with the nodes of its children, and its own node comes right behind them. -/
theorem entriesFrom_cons (p : Piece) :
    entriesFrom q n (.node p cs :: ts) =
      entriesFrom (some (p.numbered (placeFrom n cs))) n cs ++
        ⟨p, (numberedFrom n cs).map SyntaxTree.id, q.map Node.id⟩ ::
          entriesFrom q (placeFrom n cs + 1) ts := by
  rw [entriesFrom, numberedFrom_cons, withParentsAll, List.map_append]
  simp only [mapNumbered, withParents, List.map_append, List.append_assoc]
  rfl

end PieceTree

namespace Ast

open Rose PieceTree

/-- An arena holds the trees of a list: its nodes are those of the trees, and no tree has a parent
yet. -/
def Holds (ts : List PieceTree) (a : Ast) : Prop :=
  a.nodes.toList.map AstNode.entry = entriesFrom none 0 ts

theorem holds_empty : Holds [] empty := rfl

variable {a : Ast} {us cs : List PieceTree} {t : PieceTree}

/-- The next node gets the first free place. -/
theorem Holds.size_eq (h : Holds us a) : a.nodes.size = placeFrom 0 us := by
  have hlength := congrArg List.length h
  rw [List.length_map, Array.length_toList] at hlength
  rw [placeFrom_eq none, hlength, Nat.zero_add]

/-- The change of a list at one place, seen through a function. -/
theorem map_modify_length {α β : Type} {f : α → β} (g : α → α) (g' : β → β)
    (hfg : ∀ x, f (g x) = g' (f x)) {l : List α} {pre post : List β} {y : β}
    (h : l.map f = pre ++ y :: post) :
    (l.modify pre.length g).map f = pre ++ g' y :: post := by
  obtain ⟨as, rest, rfl, rfl, hrest⟩ := List.map_eq_append_iff.1 h
  obtain ⟨x, bs, rfl, rfl, rfl⟩ := List.map_eq_cons_iff.1 hrest
  simp [List.modify_eq_take_drop, hfg]

/-- **The children of a new node learn who their parent is**, and no other node changes. -/
theorem map_entry_adopt (l : Node) (cs : List PieceTree) {nodes : Array AstNode} {pre : List Entry}
    (h : nodes.toList.map AstNode.entry = pre ++ entriesFrom none pre.length cs) :
    (adopt nodes l.id ((numberedFrom pre.length cs).map SyntaxTree.id)).toList.map AstNode.entry =
      pre ++ entriesFrom (some l) pre.length cs := by
  induction cs generalizing nodes pre with
  | nil => exact h
  | cons c cs ih =>
    obtain ⟨p, ks⟩ := c
    let below := entriesFrom (some (p.numbered (placeFrom pre.length ks))) pre.length ks
    let own : Entry := ⟨p, (numberedFrom pre.length ks).map SyntaxTree.id, some l.id⟩
    have hlength : (pre ++ below).length = placeFrom pre.length ks := by
      rw [List.length_append, placeFrom_eq (some (p.numbered (placeFrom pre.length ks)))]
    have hnext : (pre ++ below ++ [own]).length = placeFrom pre.length ks + 1 := by
      rw [List.length_append, hlength]
      rfl
    rw [entriesFrom_cons, ← List.append_assoc] at h
    -- the own node of the first tree is the one that is changed
    have hset := map_modify_length (fun n : AstNode => { n with parent := some l.id })
      (fun e => { e with parent := some l.id }) (fun _ => rfl) h
    rw [hlength, ← Array.toList_modify, ← hnext] at hset
    have hrest := ih (hset.trans (List.append_assoc (pre ++ below) [own] _).symm)
    rw [hnext] at hrest
    rw [entriesFrom_cons, ← List.append_assoc]
    exact hrest.trans (List.append_assoc _ _ _)

/-- **A node that is added takes the last trees as its children**, and is the last tree after
that. -/
theorem Holds.add {kind : NodeKind} {form : NodeForm} (h : Holds (us ++ cs) a)
    (hkind : form.kind = kind) (hchildren : form.children = idsAfter us cs) (first last : Nat) :
    (a.add form first last).1 = idAfter us (.node ⟨kind, first, max first last⟩ cs) ∧
      Holds (us ++ [.node ⟨kind, first, max first last⟩ cs]) (a.add form first last).2 := by
  have hsize := h.size_eq
  refine ⟨hsize.trans (idAfter_node _).symm, ?_⟩
  unfold Holds at h ⊢
  let pre := entriesFrom none 0 us
  have hlength : pre.length = placeFrom 0 us := by rw [placeFrom_eq none, Nat.zero_add]
  rw [entriesFrom_append, ← hlength] at h
  have hadopt := map_entry_adopt (Piece.numbered a.nodes.size ⟨kind, first, max first last⟩) cs h
  rw [hlength, map_id_numberedFrom, ← hchildren, hsize, placeFrom_append] at hadopt
  have hnew : AstNode.entry ⟨form, first, max last first, none⟩ = ⟨⟨kind, first, max first last⟩,
      (numberedFrom (placeFrom 0 us) cs).map SyntaxTree.id, none⟩ := by
    rw [AstNode.entry, hkind, hchildren, Nat.max_comm, map_id_numberedFrom]
  show ((adopt a.nodes a.nodes.size form.children).push _).toList.map AstNode.entry = _
  rw [Array.toList_push, List.map_append, hsize, placeFrom_append]
  refine (congrArg (· ++ _) hadopt).trans ?_
  rw [List.map_singleton, hnew, entriesFrom_append, entriesFrom_cons, List.append_assoc]
  rfl

/-! ### Looking at nodes -/

/-- The last node is that of the last tree. -/
theorem Holds.eq_concat (h : Holds (us ++ [t]) a) :
    ∃ es : List Entry, es.length = idAfter us t ∧
      a.nodes.toList.map AstNode.entry = es ++ [⟨t.label, idsAfter us t.children, none⟩] := by
  obtain ⟨p, cs⟩ := t
  refine ⟨entriesFrom none 0 us ++
    entriesFrom (some (p.numbered (placeFrom (placeFrom 0 us) cs))) (placeFrom 0 us) cs, ?_, ?_⟩
  · have hus := placeFrom_eq none 0 us
    have hcs := placeFrom_eq (some (p.numbered (placeFrom (placeFrom 0 us) cs))) (placeFrom 0 us) cs
    rw [idAfter_node, placeFrom_append, List.length_append]
    omega
  · rw [h, entriesFrom_append, entriesFrom_cons, map_id_numberedFrom, List.append_assoc]
    rfl

/-- The first token of the last tree. -/
theorem Holds.firstOf_idAfter (h : Holds (us ++ [t]) a) :
    a.firstOf (idAfter us t) = t.label.first := by
  obtain ⟨es, hlength, hentries⟩ := h.eq_concat
  have hlast : (a.nodes.toList.map AstNode.entry)[idAfter us t]? =
      some ⟨t.label, idsAfter us t.children, none⟩ := by
    rw [hentries, ← hlength, List.getElem?_concat_length]
  rw [List.getElem?_map, Array.getElem?_toList, Option.map_eq_some_iff] at hlast
  obtain ⟨n, hn, hentry⟩ := hlast
  rw [firstOf, hn]
  exact congrArg (fun e : Entry => e.piece.first) hentry

theorem size_adopt (nodes : Array AstNode) (id : NodeId) (cs : List NodeId) :
    (adopt nodes id cs).size = nodes.size := by
  induction cs generalizing nodes with
  | nil => rfl
  | cons c cs ih =>
    show (adopt (nodes.modify c _) id cs).size = nodes.size
    rw [ih, Array.size_modify]

/-- A node that was just added has the parameter list that it was added with. -/
theorem functionOf?_add (a : Ast) (form : NodeForm) (first last : Nat) :
    (a.add form first last).2.functionOf? (a.add form first last).1 = form.function? := by
  have hsize := (size_adopt a.nodes a.nodes.size form.children).symm
  show (((adopt a.nodes a.nodes.size form.children).push _)[a.nodes.size]?).bind _ = _
  rw [Array.getElem?_push, if_pos hsize]
  rfl

end Ast

end Mend
