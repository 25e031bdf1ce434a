import Mend.Proofs.ArenaParsers
import Mend.Proofs.SyntaxTrees

/-!
# The arena of a file

When a file has been read, the arena holds one tree, that of the file.  So the nodes of the arena
are the subtrees of that tree, each at the place that is its number, and the links between the nodes
are those of the tree: in both directions, for a node is told its parent when the node of the parent
is added.

## Main definitions

* `AstNode.IsOf` — a node of an arena is that of a subtree.
* `Ast.childNodes` — the nodes at the places of the children.
* `Ast.IsWellFormed` — the nodes of an arena are a tree over a number of tokens.

## Main results

* `Ast.Holds.tree_eq` — the tree below the root.
* `Ast.map_tree_ofTokens` — **a file is read with an arena as it is read without one.**
* `Ast.Holds.parent?_eq` — the parent that a node is told is the one that is found in the tree.
* `Ast.isWellFormed_of_ofTokens_eq_ok` — **the arena of a list of tokens is well-formed.**
-/

namespace Mend

/-- What is decided of a result holds of it. -/
theorem exists_of_map_decide {ε α : Type} {P : α → Prop} [DecidablePred P] {r : Except ε α}
    (h : r.map (fun a => decide (P a)) = .ok true) : ∃ a, r = .ok a ∧ P a := by
  cases r with
  | error e => cases h
  | ok a => exact ⟨a, rfl, of_decide_eq_true (Except.ok.inj h)⟩

/-- A node of an arena is that of a subtree. -/
structure AstNode.IsOf (n : AstNode) (u : SyntaxTree) : Prop where
  /-- It is the same, and covers the same tokens. -/
  piece_eq : n.entry.piece = u.label.toPiece
  /-- Its children are at the places that are their numbers. -/
  children_eq : n.form.children = u.children.map SyntaxTree.id

namespace Ast

open Rose PieceTree

/-! ### The tree below the root -/

/-- Children are found at their numbers. -/
theorem filterMap_getElem? {ts us : List SyntaxTree} (h : ∀ c ∈ us, ts[c.label.id]? = some c) :
    (us.map SyntaxTree.id).filterMap (ts[·]?) = us := by
  induction us with
  | nil => rfl
  | cons c us ih =>
    have hc : ts[c.id]? = some c := h c List.mem_cons_self
    rw [List.map_cons, List.filterMap_cons_some hc,
      ih fun d hd => h d (List.mem_cons_of_mem _ hd)]

/-- Trees that are numbered by their positions, each one after its children, are put together from
their nodes. -/
theorem trees_eq {ts : List SyntaxTree} {nodes : List AstNode}
    (hnodes : List.Forall₂ AstNode.IsOf nodes ts)
    (hts : ∀ (i : Nat) (u : SyntaxTree), ts[i]? = some u →
      u.label.id = i ∧ ∀ c ∈ u.children, c.label.id < i ∧ ts[c.label.id]? = some c) :
    trees nodes = ts.toArray := by
  -- the trees that are there already, and those to come
  have hfold (done rest : List SyntaxTree) (hdone : done ++ rest = ts) (nodes : List AstNode)
      (hnodes : List.Forall₂ AstNode.IsOf nodes rest) :
      nodes.foldl (fun ts n =>
        let label : Node := ⟨⟨n.form.kind, n.first, n.last⟩, ts.size⟩
        ts.push (.node label (n.form.children.filterMap (ts[·]?)))) done.toArray = ts.toArray := by
    induction rest generalizing done nodes with
    | nil =>
      cases hnodes
      rw [← hdone, List.append_nil]
      rfl
    | cons u rest ih =>
      obtain ⟨n, nodes, hn, hrest, rfl⟩ := List.forall₂_cons_right_iff.1 hnodes
      obtain ⟨hid, hchildren⟩ := hts done.length u (by simp [← hdone])
      have hfound : ∀ c ∈ u.children, done[c.label.id]? = some c := by
        intro c hc
        obtain ⟨hlt, hget⟩ := hchildren c hc
        rwa [← hdone, List.getElem?_append_left hlt] at hget
      have htree : Rose.node ⟨⟨n.form.kind, n.first, n.last⟩, done.length⟩
          (n.form.children.filterMap (done[·]?)) = u := by
        obtain ⟨⟨piece, id⟩, us⟩ := u
        rw [hn.children_eq, filterMap_getElem? hfound]
        have hpiece : _ = piece := hn.piece_eq
        have hid : id = done.length := hid
        rw [← hpiece, hid]
        rfl
      refine Eq.trans ?_ (ih (done ++ [u]) (by simp [hdone]) nodes hrest)
      rw [List.foldl_cons, ← htree]
      simp
  exact hfold [] ts rfl nodes hnodes

variable {a : Ast} {t : PieceTree}

/-- The nodes of an arena that holds one tree are its subtrees, with their parents. -/
theorem Holds.entries_eq (h : Holds [t] a) :
    a.nodes.toList.map AstNode.entry =
      (withParents none (SyntaxTree.ofPieces t)).map Entry.ofSubtree := by
  rw [← List.append_nil (withParents none (SyntaxTree.ofPieces t))]
  exact h

/-- The nodes of an arena that holds one tree are its subtrees. -/
theorem Holds.forall₂_isOf (h : Holds [t] a) :
    List.Forall₂ AstNode.IsOf a.nodes.toList (SyntaxTree.ofPieces t).subtrees := by
  have hentries : List.Forall₂ (fun n x => n.entry = Entry.ofSubtree x) a.nodes.toList
      (withParents none (SyntaxTree.ofPieces t)) := by
    refine List.forall₂_map_left_iff.1 (List.forall₂_map_right_iff.1 ?_)
    rw [h.entries_eq, List.forall₂_eq_eq_eq]
  rw [← map_fst_withParents none, List.forall₂_map_right_iff]
  exact hentries.imp fun n x hx => ⟨congrArg Entry.piece hx, congrArg Entry.children hx⟩

/-- The tree below the root. -/
theorem Holds.tree_eq (h : Holds [t] a) (hroot : a.root = some (idAfter [] t)) :
    a.tree = SyntaxTree.ofPieces t := by
  have htrees : trees a.nodes.toList = (SyntaxTree.ofPieces t).subtrees.toArray := by
    refine trees_eq h.forall₂_isOf fun i u hu => ?_
    have hid := SyntaxTree.id_eq_of_getElem?_subtrees hu
    have hmem := List.mem_of_getElem? hu
    refine ⟨hid, fun c hc => ⟨hid ▸ SyntaxTree.id_lt_of_mem_children hmem hc, ?_⟩⟩
    exact SyntaxTree.getElem?_subtrees_ofPieces (mem_subtrees_of_mem_children hmem hc)
  have hself : (SyntaxTree.ofPieces t).subtrees[idAfter [] t]? = some (SyntaxTree.ofPieces t) :=
    SyntaxTree.getElem?_subtrees_ofPieces (self_mem_subtrees _)
  rw [tree, hroot, htrees]
  simp [hself]

/-- What is read without an arena is the tree below the root of the arena. -/
theorem exists_tree_eq_of_ofTokens {tokens : List Token} {length : Nat}
    (h : PieceTree.ofTokens tokens length = .ok t) :
    ∃ a, ofTokens tokens length = .ok a ∧ a.tree = .ofPieces t := by
  have hfollows := ofTokens_follows tokens length
  rw [h] at hfollows
  obtain ⟨a, ha, hholds, hroot⟩ := hfollows
  exact ⟨a, ha, hholds.tree_eq hroot⟩

/-- The arena fails where the reading fails without one, with the same error. -/
theorem ofTokens_eq_error {tokens : List Token} {length : Nat} {e : SyntaxError}
    (h : PieceTree.ofTokens tokens length = .error e) : ofTokens tokens length = .error e := by
  have hfollows := ofTokens_follows tokens length
  rwa [h] at hfollows

/-- **A file is read with an arena as it is read without one**: the tree below the root of the arena
is the same, and so is the error. -/
theorem map_tree_ofTokens (tokens : List Token) (length : Nat) :
    (ofTokens tokens length).map tree =
      (PieceTree.ofTokens tokens length).map SyntaxTree.ofPieces := by
  cases h : PieceTree.ofTokens tokens length with
  | error e =>
    rw [ofTokens_eq_error h]
    rfl
  | ok t =>
    obtain ⟨a, ha, htree⟩ := exists_tree_eq_of_ofTokens h
    rw [ha]
    exact congrArg Except.ok htree

/-! ### Nodes and subtrees -/

/-- A node of the arena is that of the subtree with its number.  The root has no parent, and every
other node has the one that the subtree is a child of. -/
theorem Holds.exists_isOf {id : NodeId} {n : AstNode} (h : Holds [t] a)
    (hn : a.nodes[id]? = some n) :
    ∃ u ∈ (SyntaxTree.ofPieces t).subtrees, u.label.id = id ∧ n.IsOf u ∧
      (u = SyntaxTree.ofPieces t → n.parent = none) ∧
      ∀ p ∈ (SyntaxTree.ofPieces t).subtrees, u ∈ p.children → n.parent = some p.label.id := by
  have hentry : (a.nodes.toList.map AstNode.entry)[id]? = some n.entry := by
    rw [List.getElem?_map, Array.getElem?_toList, hn]
    rfl
  rw [h.entries_eq, List.getElem?_map, Option.map_eq_some_iff] at hentry
  obtain ⟨⟨u, q⟩, hx, hnx⟩ := hentry
  have hu : (SyntaxTree.ofPieces t).subtrees[id]? = some u := by
    rw [← map_fst_withParents none, List.getElem?_map, hx]
    rfl
  have hparent : n.parent = q.map Node.id := (congrArg Entry.parent hnx).symm
  refine ⟨u, List.mem_of_getElem? hu, SyntaxTree.id_eq_of_getElem?_subtrees hu,
    ⟨(congrArg Entry.piece hnx).symm, (congrArg Entry.children hnx).symm⟩, ?_⟩
  rcases exists_of_mem_withParents (List.mem_of_getElem? hx) with ⟨rfl, rfl⟩ | ⟨p, hp, hup, rfl⟩
  · exact ⟨fun _ => hparent,
      fun p hp hup => absurd rfl (SyntaxTree.ne_root_of_mem_children hp hup)⟩
  · refine ⟨fun hroot => absurd hroot (SyntaxTree.ne_root_of_mem_children hp hup),
      fun p' hp' hup' => ?_⟩
    rw [SyntaxTree.eq_of_mem_children hp' hp hup' hup]
    exact hparent

/-- There are as many nodes as subtrees. -/
theorem Holds.size_eq_length (h : Holds [t] a) :
    a.nodes.size = (SyntaxTree.ofPieces t).subtrees.length := by
  rw [← Array.length_toList]
  exact h.forall₂_isOf.length_eq

/-- The root is the last node. -/
theorem id_ofPieces_add_one (t : PieceTree) :
    (SyntaxTree.ofPieces t).label.id + 1 = (SyntaxTree.ofPieces t).subtrees.length := by
  have hlast := (SyntaxTree.ofPieces t).getLast?_subtrees
  rw [List.getLast?_eq_getElem?] at hlast
  have hlt := (List.getElem?_eq_some_iff.1 hlast).1
  rw [SyntaxTree.id_eq_of_getElem?_subtrees hlast]
  omega

/-- The node of a subtree is at its number. -/
theorem Holds.exists_node {u : SyntaxTree} (h : Holds [t] a)
    (hu : u ∈ (SyntaxTree.ofPieces t).subtrees) :
    ∃ n, a.nodes[u.label.id]? = some n ∧ n.IsOf u := by
  have hlt := (List.getElem?_eq_some_iff.1 (SyntaxTree.getElem?_subtrees_ofPieces hu)).1
  rw [← h.size_eq_length] at hlt
  have hn := Array.getElem?_eq_getElem hlt
  obtain ⟨v, hv, hid, hisOf, -⟩ := h.exists_isOf hn
  rw [SyntaxTree.eq_of_id_eq hu hv hid] at hisOf
  exact ⟨_, hn, hisOf⟩

/-- The links of a node to its children are those of the subtree. -/
theorem Holds.childrenOf_eq {u : SyntaxTree} (h : Holds [t] a)
    (hu : u ∈ (SyntaxTree.ofPieces t).subtrees) :
    a.childrenOf u.label.id = u.children.map SyntaxTree.id := by
  obtain ⟨n, hn, hisOf⟩ := h.exists_node hu
  rw [childrenOf, hn]
  exact hisOf.children_eq

/-- A link to a child is one from a subtree to its child. -/
theorem Holds.exists_of_mem_childrenOf {p c : NodeId} (h : Holds [t] a) (hc : c ∈ a.childrenOf p) :
    ∃ v ∈ (SyntaxTree.ofPieces t).subtrees, v.label.id = p ∧ ∃ u ∈ v.children, u.label.id = c := by
  cases hn : a.nodes[p]? with
  | none => simp [childrenOf, hn] at hc
  | some n =>
    obtain ⟨v, hv, hid, -⟩ := h.exists_isOf hn
    subst hid
    rw [h.childrenOf_eq hv] at hc
    obtain ⟨u, hu, rfl⟩ := List.mem_map.1 hc
    exact ⟨v, hv, rfl, u, hu, rfl⟩

/-- **The parent that a node is told is the one that is found by looking for its number.** -/
theorem Holds.parent?_eq {u : SyntaxTree} (h : Holds [t] a)
    (hu : u ∈ (SyntaxTree.ofPieces t).subtrees) :
    a.parent? u.label.id =
      (parentIn (fun s => s.label.id == u.label.id) (SyntaxTree.ofPieces t).subtrees).map
        SyntaxTree.id := by
  obtain ⟨n, hn, -⟩ := h.exists_node hu
  obtain ⟨v, hv, hid, -, hroot, hparent⟩ := h.exists_isOf hn
  obtain rfl := SyntaxTree.eq_of_id_eq hu hv hid
  rw [parent?, hn]
  by_cases hne : v = SyntaxTree.ofPieces t
  · -- no node has the root among its children
    refine (hroot hne).trans ?_
    rw [parentIn, List.find?_eq_none.2, Option.map_none]
    intro p hp hany
    obtain ⟨c, hc, hcid⟩ := List.any_eq_true.1 hany
    have hcv := SyntaxTree.eq_of_id_eq hv (mem_subtrees_of_mem_children hp hc) (eq_of_beq hcid)
    exact SyntaxTree.ne_root_of_mem_children hp hc (hcv.trans hne)
  · obtain ⟨p, hp, hvp⟩ := SyntaxTree.exists_parent hv hne
    rw [SyntaxTree.parentIn_of_mem_children hp hvp]
    exact hparent p hp hvp

/-! ### Well-formed arenas -/

/-- The nodes at the places of the children of a node. -/
def childNodes (a : Ast) (id : NodeId) : List AstNode := (a.childrenOf id).filterMap (a.nodes[·]?)

/-- The nodes of an arena are a tree over a number of tokens. -/
structure IsWellFormed (a : Ast) (tokenCount : Nat) : Prop where
  /-- The root is the file, and the last node.  It has no parent. -/
  root : ∃ r n, a.root = some r ∧ r + 1 = a.nodes.size ∧ a.nodes[r]? = some n ∧
    n.form.kind = .file ∧ n.parent = none
  /-- Children have been added before their parent. -/
  children_lt : ∀ p, ∀ c ∈ a.childrenOf p, c < p
  /-- Every node but the last one is a child once, of one node, and that is its parent. -/
  isChild : ∀ c, c + 1 < a.nodes.size → ∃ p, a.parent? c = some p ∧ c < p ∧ p < a.nodes.size ∧
    (a.childrenOf p).count c = 1 ∧ ∀ q, c ∈ a.childrenOf q → q = p
  /-- Every node is reached from the root by going down from child to child. -/
  isReached : ∀ r, a.root = some r → ∀ c < a.nodes.size,
    Relation.ReflTransGen (fun p c => c ∈ a.childrenOf p) r c
  /-- Unless there are no tokens, every node covers some of them, and its children follow each other
  within it. -/
  covers : 0 < tokenCount → ∀ id n, a.nodes[id]? = some n → n.first ≤ n.last ∧
    n.last < tokenCount ∧ (∀ c ∈ a.childNodes id, n.first ≤ c.first ∧ c.last ≤ n.last) ∧
    (a.childNodes id).Pairwise fun c d => c.last < d.first

/-- The node of the tree itself is the last one, and has no parent. -/
theorem Holds.exists_root (h : Holds [t] a) :
    ∃ n, a.nodes[idAfter [] t]? = some n ∧ idAfter [] t + 1 = a.nodes.size ∧
      n.form.kind = t.label.kind ∧ n.parent = none := by
  obtain ⟨n, hn, hisOf⟩ := h.exists_node (self_mem_subtrees (SyntaxTree.ofPieces t))
  obtain ⟨u, hu, hid, -, hparent, -⟩ := h.exists_isOf hn
  refine ⟨n, hn, ?_, ?_, hparent (SyntaxTree.eq_of_id_eq (self_mem_subtrees _) hu hid)⟩
  · rw [h.size_eq_length, ← id_ofPieces_add_one]
    rfl
  · rw [← SyntaxTree.toPiece_label_ofPieces]
    exact congrArg Piece.kind hisOf.piece_eq

/-- A node of a well-formed tree is a child once, of one node, and that is its parent. -/
theorem Holds.exists_parent? {c : NodeId} (h : Holds [t] a) (hc : c + 1 < a.nodes.size) :
    ∃ p, a.parent? c = some p ∧ c < p ∧ p < a.nodes.size ∧ (a.childrenOf p).count c = 1 ∧
      ∀ q, c ∈ a.childrenOf q → q = p := by
  have hn := Array.getElem?_eq_getElem (Nat.lt_of_succ_lt hc)
  obtain ⟨u, hu, rfl, -, -, hparent⟩ := h.exists_isOf hn
  have hne : u ≠ SyntaxTree.ofPieces t := by
    rintro rfl
    rw [id_ofPieces_add_one, h.size_eq_length] at hc
    exact Nat.lt_irrefl _ hc
  obtain ⟨p, hp, hup⟩ := SyntaxTree.exists_parent hu hne
  have hlt := (List.getElem?_eq_some_iff.1 (SyntaxTree.getElem?_subtrees_ofPieces hp)).1
  refine ⟨p.label.id, ?_, SyntaxTree.id_lt_of_mem_children hp hup, h.size_eq_length ▸ hlt, ?_,
    fun q hcq => ?_⟩
  · rw [parent?, hn]
    exact hparent p hp hup
  · rw [h.childrenOf_eq hp]
    refine List.count_eq_one_of_mem ?_ (List.mem_map_of_mem hup)
    refine List.Nodup.map_on (fun c hc d hd hid => ?_)
      (nodup_children (SyntaxTree.nodup_subtrees_ofPieces t) hp)
    exact SyntaxTree.eq_of_id_eq (mem_subtrees_of_mem_children hp hd)
      (mem_subtrees_of_mem_children hp hc) hid
  · obtain ⟨q, hq, rfl, v, hv, hid⟩ := h.exists_of_mem_childrenOf hcq
    obtain rfl : v = u := SyntaxTree.eq_of_id_eq hu (mem_subtrees_of_mem_children hq hv) hid
    rw [SyntaxTree.eq_of_mem_children hq hp hv hup]

/-- Going down in the tree is going down in the arena. -/
theorem Holds.reflTransGen {u : SyntaxTree} (h : Holds [t] a)
    (hu : u ∈ (SyntaxTree.ofPieces t).subtrees) :
    Relation.ReflTransGen (fun p c => c ∈ a.childrenOf p) (SyntaxTree.ofPieces t).label.id
      u.label.id := by
  induction mem_subtrees_iff_reflTransGen.1 hu with
  | refl => exact .refl
  | tail hp hc ih =>
    have hp := mem_subtrees_iff_reflTransGen.2 hp
    refine .tail (ih hp) ?_
    rw [h.childrenOf_eq hp]
    exact List.mem_map_of_mem hc

/-- The nodes at the places of the children are those of the children. -/
theorem Holds.map_piece_childNodes {u : SyntaxTree} (h : Holds [t] a)
    (hu : u ∈ (SyntaxTree.ofPieces t).subtrees) :
    (a.childNodes u.label.id).map (fun n => n.entry.piece) =
      u.children.map fun c => c.label.toPiece := by
  rw [childNodes, h.childrenOf_eq hu]
  have hmem : ∀ c ∈ u.children, c ∈ (SyntaxTree.ofPieces t).subtrees :=
    fun c hc => mem_subtrees_of_mem_children hu hc
  generalize u.children = us at hmem ⊢
  induction us with
  | nil => rfl
  | cons c us ih =>
    obtain ⟨hc, hus⟩ := List.forall_mem_cons.1 hmem
    obtain ⟨n, hn, hisOf⟩ := h.exists_node hc
    have hn : a.nodes[SyntaxTree.id c]? = some n := hn
    rw [List.map_cons, List.filterMap_cons_some hn, List.map_cons, List.map_cons, ih hus,
      hisOf.piece_eq]

/-- A node of a tree that is laid out covers tokens, and its children follow each other within
it. -/
theorem Holds.covers {id : NodeId} {n : AstNode} (h : Holds [t] a)
    (hlaid : (SyntaxTree.ofPieces t).IsLaid) (hn : a.nodes[id]? = some n) :
    n.first ≤ n.last ∧ n.last ≤ t.label.last ∧
      (∀ c ∈ a.childNodes id, n.first ≤ c.first ∧ c.last ≤ n.last) ∧
      (a.childNodes id).Pairwise fun c d => c.last < d.first := by
  obtain ⟨u, hu, rfl, hisOf, -⟩ := h.exists_isOf hn
  have hfirst : n.first = u.label.first := congrArg Piece.first hisOf.piece_eq
  have hlast : n.last = u.label.last := congrArg Piece.last hisOf.piece_eq
  have hroot : (SyntaxTree.ofPieces t).label.last = t.label.last :=
    congrArg Piece.last (SyntaxTree.toPiece_label_ofPieces t)
  have hpieces := h.map_piece_childNodes hu
  obtain ⟨hrun, hwithin, hpairwise⟩ := hlaid.children hu
  rw [hfirst, hlast]
  refine ⟨hrun, hroot ▸ (hlaid.subtree hu).2.2, fun c hc => ?_, ?_⟩
  · have hmem : c.entry.piece ∈ u.children.map fun c => c.label.toPiece :=
      hpieces ▸ List.mem_map_of_mem hc
    obtain ⟨v, hv, hpiece⟩ := List.mem_map.1 hmem
    have hcfirst : v.label.first = c.first := congrArg Piece.first hpiece
    have hclast : v.label.last = c.last := congrArg Piece.last hpiece
    obtain ⟨hvfirst, -, hvlast⟩ := hwithin v hv
    rw [← hcfirst, ← hclast]
    exact ⟨hvfirst, hvlast⟩
  · have hpieces' : ((a.childNodes u.label.id).map fun n => n.entry.piece).Pairwise
        fun p q => p.last < q.first := by
      rw [hpieces]
      exact List.pairwise_map.2 hpairwise
    exact List.pairwise_map.1 hpieces'

/-- **The arena of a list of tokens is well-formed**: what the parsers have added is one tree, and
each node is used in one place of it. -/
theorem isWellFormed_of_ofTokens_eq_ok {tokens : List Token} {length : Nat}
    (h : ofTokens tokens length = .ok a) : a.IsWellFormed tokens.length := by
  have hfollows := ofTokens_follows tokens length
  cases ht : PieceTree.ofTokens tokens length with
  | error e =>
    rw [ofTokens_eq_error ht] at h
    cases h
  | ok t =>
    rw [ht] at hfollows
    obtain ⟨a', ha', hholds, hroot⟩ := hfollows
    obtain rfl : a' = a := Except.ok.inj (ha'.symm.trans h)
    obtain ⟨hlaid, hkind, -, hlast⟩ := isLaid_of_ofTokens_eq_ok ht
    refine ⟨?_, fun p c hc => ?_, fun c hc => hholds.exists_parent? hc, fun r hr c hc => ?_,
      fun hpos id n hn => ?_⟩
    · obtain ⟨n, hn, hsize, hroots, hparent⟩ := hholds.exists_root
      exact ⟨_, n, hroot, hsize, hn, hroots.trans hkind, hparent⟩
    · obtain ⟨v, hv, rfl, u, hu, rfl⟩ := hholds.exists_of_mem_childrenOf hc
      exact SyntaxTree.id_lt_of_mem_children hv hu
    · obtain ⟨u, hu, rfl, -⟩ := hholds.exists_isOf (Array.getElem?_eq_getElem hc)
      obtain rfl : idAfter [] t = r := Option.some.inj (hroot.symm.trans hr)
      exact hholds.reflTransGen hu
    · obtain ⟨hrun, hend, hrest⟩ := hholds.covers (SyntaxTree.isLaid_ofPieces hlaid) hn
      exact ⟨hrun, by omega, hrest⟩

/-- A declaration of one name: six nodes over three tokens, the file last. -/
theorem isWellFormed_of_ofTokens_eq_ok_declaration :
    let tokens : List Token :=
      [⟨.kwInt, ⟨0, 3⟩, "int"⟩, ⟨.identifier, ⟨4, 5⟩, "x"⟩, ⟨.semicolon, ⟨5, 6⟩, ";"⟩]
    ∃ a, ofTokens tokens 6 = .ok a ∧ a.nodes.size = 6 ∧ a.root = some 5 ∧ a.IsWellFormed 3 := by
  intro tokens
  obtain ⟨a, ha, hsize, hroot⟩ :
      ∃ a, ofTokens tokens 6 = .ok a ∧ a.nodes.size = 6 ∧ a.root = some 5 :=
    exists_of_map_decide (by decide +kernel)
  exact ⟨a, ha, hsize, hroot, isWellFormed_of_ofTokens_eq_ok ha⟩

end Ast

end Mend
