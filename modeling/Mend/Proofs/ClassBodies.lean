import Mend.Proofs.NodesAtOffset
import Mend.Proofs.ReachedNodes
import Mend.Proofs.ScopesAtTokens

/-!
# Bodies of classes

A class is made of at most a name, and then of labels, macros and declarations.  The labels divide
its members into sections.  A section has the level of its label, and it stops with its last
declaration, or with the label if there is none.

So a section stops somewhere among the members: behind all labels up to its own, and before
everything that follows.  The label that stops last before its end is its own.

Labels stand in no other nodes, and classes are found only among the specifiers of declarations.
So the place that the walk has at a node is told by the node's parent: there is an access level in
the body of a class only.

## Main definitions

* `AccessLabel`, `SourceCode.label?`, `SourceCode.labelsOf` — labels that set an access level.
* `SourceCode.StopsAmong` — where a section stops among the members of a class.

## Main results

* `SourceCode.mayHold` — the nodes of a text have children that they may have.
* `SourceCode.Reaches.isHead` — what the walk comes to among specifiers and declarators is one.
* `SourceCode.inOrder_members` — the members of a class lie between its braces.
* `SourceCode.stopsAmong_of_mem_sectionsFrom` — **a section stops behind its label and before the
  next one.**
* `SourceCode.pairwise_sectionsFrom` — **sections follow each other.**
-/

namespace Mend

/-- A label that sets the access level of the members after it. -/
structure AccessLabel where
  /-- The access level. -/
  level : AccessLevel
  /-- Whether the members are slots. -/
  slots : Bool
  /-- Where the label lies. -/
  span : Span
  deriving DecidableEq, Repr

/-- What the walk goes through in place is neither a specifier nor a declarator. -/
theorem NodeKind.isHead_eq_false_of_staysInPlace {k : NodeKind} (h : k.staysInPlace = true) :
    k.isHead = false := by
  cases k <;> first | rfl | cases h

namespace SourceCode

variable {c : SourceCode} {text : Text} {p q : Place} {t u : SyntaxTree} {l : AccessLabel}
  {s s' : AccessSection} {lo hi : Nat}

/-! ### What nodes are made of -/

/-- The nodes of a text have children that they may have. -/
theorem mayHold (hc : ofText text = .ok c) (ht : t ∈ c.nodes) (hu : u ∈ t.children) :
    t.label.kind.mayHold u.label.kind = true := by
  obtain ⟨L, p, -, htree, rfl⟩ := ofText_eq_ok_iff.1 hc
  have hbuilt := SyntaxTree.isBuilt_ofPieces (PieceTree.isBuilt_of_ofTokens_eq_ok htree) t ht
  exact hbuilt.1 _ (List.mem_map_of_mem (List.mem_map_of_mem hu))

/-- A node is a child of one node only. -/
theorem eq_of_mem_children (hc : ofText text = .ok c) {k : SyntaxTree} (ht : t ∈ c.nodes)
    (hk : k ∈ c.nodes) (hut : u ∈ t.children) (huk : u ∈ k.children) : t = k := by
  obtain ⟨L, p, -, -, rfl⟩ := ofText_eq_ok_iff.1 hc
  exact SyntaxTree.eq_of_mem_children ht hk hut huk

/-- Where there is more than the root, there are tokens. -/
theorem tokens_ne_nil (hc : ofText text = .ok c) (ht : t ∈ c.nodes)
    (hkind : t.label.kind ≠ .file) : c.tokens.toList ≠ [] := by
  obtain ⟨L, p, -, htree, rfl⟩ := ofText_eq_ok_iff.1 hc
  intro hnil
  have hnil : L.tokens = [] := by simpa using hnil
  rw [hnil] at htree
  obtain rfl : _ = p := Except.ok.inj htree
  obtain rfl := List.mem_singleton.1 ht
  exact hkind rfl

/-- The own tokens of a node exist. -/
theorem lt_size_of_mem_layout (hc : ofText text = .ok c) (ht : t ∈ c.nodes)
    (hkind : t.label.kind ≠ .file) {i : Nat}
    (hi : .single i ∈ t.label.toPiece.layout (t.children.map fun v => v.label.toPiece)) :
    i < c.tokens.size :=
  (((isWithin_of_ofText_eq_ok hc).runs (tokens_ne_nil hc ht hkind) t ht).2.2 _ hi).2

/-! ### Labels -/

/-- The label that a node is, if it is one. -/
def label? (c : SourceCode) (t : SyntaxTree) : Option AccessLabel :=
  match t.label.kind with
  | .accessLabel access slots colon =>
    some ⟨c.levelOf access, slots.isSome, ⟨c.tokenStart access, c.tokenStop colon⟩⟩
  | _ => none

/-- The labels among some nodes. -/
def labelsOf (c : SourceCode) (ts : List SyntaxTree) : List AccessLabel := ts.filterMap c.label?

theorem labelsOf_cons_of_eq_some {ts : List SyntaxTree} (h : c.label? t = some l) :
    c.labelsOf (t :: ts) = l :: c.labelsOf ts :=
  List.filterMap_cons_some h

theorem labelsOf_cons_of_eq_none {ts : List SyntaxTree} (h : c.label? t = none) :
    c.labelsOf (t :: ts) = c.labelsOf ts :=
  List.filterMap_cons_none h

@[simp] theorem labelsOf_append (ts us : List SyntaxTree) :
    c.labelsOf (ts ++ us) = c.labelsOf ts ++ c.labelsOf us :=
  List.filterMap_append

theorem label?_of_kind {access colon : Nat} {slots : Option Nat}
    (hkind : t.label.kind = .accessLabel access slots colon) :
    c.label? t =
      some ⟨c.levelOf access, slots.isSome, ⟨c.tokenStart access, c.tokenStop colon⟩⟩ := by
  rw [label?, hkind]

theorem label?_eq_none (hkind : ∀ access slots colon, t.label.kind ≠ .accessLabel access slots colon) :
    c.label? t = none := by
  unfold label?
  split
  next h => exact absurd h (hkind _ _ _)
  next => rfl

/-- A label lies in its node, and it is not empty. -/
theorem label_within (hc : ofText text = .ok c) (ht : t ∈ c.nodes) (hl : c.label? t = some l) :
    c.startOf t ≤ l.span.start ∧ l.span.start < l.span.stop ∧ l.span.stop ≤ c.stopOf t := by
  unfold label? at hl
  split at hl
  next access slots colon hkind =>
    cases hl
    have hordered := isOrdered_of_ofText_eq_ok hc
    have hsub : [c.tokenSpan access, c.tokenSpan colon].Sublist (c.layoutSpans t) := by
      simp [layoutSpans, Piece.layout, NodeKind.slots, TokenRun.interleave, hkind]
    obtain ⟨hstart, -, hbetween, -, hstop⟩ := (hordered.node ht).sublist hsub
    have haccess : access < c.tokens.size := lt_size_of_mem_layout hc ht (by simp [hkind])
      (by simp [Piece.layout, NodeKind.slots, TokenRun.interleave, hkind])
    refine ⟨hstart, Nat.lt_of_lt_of_le (tokenStart_lt_tokenStop hc haccess) ?_, hstop⟩
    exact Nat.le_trans hbetween (hordered.tokenSpan colon).1
  next => cases hl

/-! ### The place of a node -/

@[simp] theorem declaration_foldl_placeAfter (q : Place) (ts : List SyntaxTree) :
    (ts.foldl c.placeAfter q).declaration = q.declaration := by
  induction ts generalizing q with
  | nil => rfl
  | cons t ts ih =>
    rw [List.foldl_cons, ih, placeAfter]
    split <;> rfl

/-- **What the walk comes to among specifiers and declarators is one of them.** -/
theorem Reaches.isHead (hc : ofText text = .ok c) (h : c.Reaches p u)
    (hdeclaration : p.declaration.isSome = true) : u.label.kind.isHead = true := by
  induction h with
  | root => cases hdeclaration
  | @child p q t u before after ht hq hchildren ih =>
    rw [declaration_foldl_placeAfter] at hdeclaration
    cases hq with
    | stay hkind =>
      rw [NodeKind.isHead_eq_false_of_staysInPlace hkind] at ih
      cases ih hdeclaration
    | declaration hkind =>
      have hu := mayHold hc ht.mem_nodes (hchildren ▸ List.mem_append_cons_self : u ∈ t.children)
      rwa [hkind] at hu
    | namespaceBody | classBody | block => cases hdeclaration

/-! ### Members between braces -/

/-- **The members of a class lie between its braces.** -/
theorem inOrder_members (hc : c.IsOrdered) (ht : t ∈ c.nodes) {key lbrace rbrace : Nat}
    (hkind : t.label.kind = .classSpecifier key lbrace rbrace) :
    Span.InOrder (c.tokenStop lbrace) (t.members.map c.spanOf) (c.tokenStart rbrace) := by
  obtain ⟨names, members, hchildren, hnames, hlayout⟩ := layoutSpans_classSpecifier c hkind
  refine (hc.inBraces ht _ hlayout).1.sublist (List.Sublist.map _ ?_)
  have hfilter : names.filter (fun u => !u.label.kind.isName) = [] :=
    List.filter_eq_nil_iff.2 fun u hu => by simp [hnames u hu]
  rw [SyntaxTree.members, hchildren, List.filter_append, hfilter, List.nil_append]
  exact List.filter_sublist

/-! ### Sections -/

/-- A section stops among the members of a class: it stops where a token does, all labels up to its
own stop before, and all that follows starts after it.  It has what its label sets, and before the
first label what the section has that was begun with. -/
structure StopsAmong (c : SourceCode) (s' : AccessSection) (ts : List SyntaxTree)
    (s : AccessSection) (before after : List SyntaxTree) : Prop where
  /-- The members. -/
  members : ts = before ++ after
  /-- It does not stop before the section that was begun with. -/
  stop_ge : s'.stop ≤ s.stop
  /-- It stops there or with a token. -/
  stop_token : s.stop = s'.stop ∨ ∃ j, s.stop = c.tokenStop j
  /-- Labels up to its own stop before. -/
  before_le : ∀ l ∈ c.labelsOf before, l.span.stop ≤ s.stop
  /-- What follows starts after it. -/
  after_ge : ∀ u ∈ after, s.stop ≤ c.startOf u
  /-- It has what the last label before its end sets. -/
  labelled : ∀ l, (c.labelsOf before).getLast? = some l →
    s.level = l.level ∧ s.slots = l.slots ∧ s.label = some l.span
  /-- Without a label it has what the section has that was begun with. -/
  unlabelled : (c.labelsOf before).getLast? = none →
    s.level = s'.level ∧ s.slots = s'.slots ∧ s.label = s'.label

namespace StopsAmong

variable {s'' : AccessSection} {ts before after : List SyntaxTree}

/-- The section that was begun with stops before everything that follows. -/
theorem begun (h : ∀ u ∈ ts, s.stop ≤ c.startOf u) : c.StopsAmong s ts s [] ts where
  members := rfl
  stop_ge := Nat.le_refl _
  stop_token := .inl rfl
  before_le := nofun
  after_ge := h
  labelled := nofun
  unlabelled _ := ⟨rfl, rfl, rfl⟩

/-- The section that was begun with, before members in order. -/
theorem begun_of_inOrder (horder : Span.InOrder lo (ts.map c.spanOf) hi) (hlo : s.stop ≤ lo) :
    s.stop ≤ hi ∧ ∃ before after, c.StopsAmong s ts s before after :=
  ⟨Nat.le_trans hlo horder.le, [], ts,
    .begun fun _ hu => Nat.le_trans hlo (horder.of_mem (List.mem_map_of_mem hu)).1⟩

/-- A member before the others moves the end of the section that was begun with. -/
theorem cons (h : c.StopsAmong s'' ts s before after) (hlabel : c.label? t = none)
    (hstop : s''.stop = s'.stop ∨ ∃ j, s''.stop = c.tokenStop j) (hle : s'.stop ≤ s''.stop)
    (hsame : s''.level = s'.level ∧ s''.slots = s'.slots ∧ s''.label = s'.label) :
    c.StopsAmong s' (t :: ts) s (t :: before) after := by
  have hlabels : c.labelsOf (t :: before) = c.labelsOf before := labelsOf_cons_of_eq_none hlabel
  refine ⟨by rw [h.members]; rfl, Nat.le_trans hle h.stop_ge, ?_, hlabels ▸ h.before_le,
    h.after_ge, hlabels ▸ h.labelled, ?_⟩
  · exact h.stop_token.elim (fun heq => heq ▸ hstop) .inr
  · intro hnone
    obtain ⟨hlevel, hslots, hlabel⟩ := h.unlabelled (hlabels ▸ hnone)
    exact ⟨hlevel.trans hsame.1, hslots.trans hsame.2.1, hlabel.trans hsame.2.2⟩

/-- A label before the others begins a section. -/
theorem cons_label (h : c.StopsAmong s'' ts s before after) (hlabel : c.label? t = some l)
    (hs : s''.level = l.level ∧ s''.slots = l.slots ∧ s''.label = some l.span)
    (hstop : s''.stop = l.span.stop) (htoken : ∃ j, l.span.stop = c.tokenStop j)
    (hle : s'.stop ≤ l.span.stop) : c.StopsAmong s' (t :: ts) s (t :: before) after := by
  have hlabels : c.labelsOf (t :: before) = l :: c.labelsOf before :=
    labelsOf_cons_of_eq_some hlabel
  have hge : l.span.stop ≤ s.stop := hstop ▸ h.stop_ge
  refine ⟨by rw [h.members]; rfl, Nat.le_trans hle hge, .inr ?_, ?_, h.after_ge, ?_, ?_⟩
  · exact h.stop_token.elim (fun heq => by rw [heq, hstop]; exact htoken) id
  · rw [hlabels]
    exact List.forall_mem_cons.2 ⟨hge, h.before_le⟩
  · intro l' hl'
    rw [hlabels, List.getLast?_cons] at hl'
    cases hlast : (c.labelsOf before).getLast? with
    | none =>
      obtain ⟨hlevel, hslots, hspan⟩ := h.unlabelled hlast
      rw [hlast] at hl'
      cases hl'
      exact ⟨hlevel.trans hs.1, hslots.trans hs.2.1, hspan.trans hs.2.2⟩
    | some l'' =>
      rw [hlast] at hl'
      cases hl'
      exact h.labelled _ hlast
  · intro hnone
    rw [hlabels, List.getLast?_cons] at hnone
    cases hnone

end StopsAmong

/-- **A section stops behind its label and before the next one.** -/
theorem stopsAmong_of_mem_sectionsFrom (hc : ofText text = .ok c) {ts : List SyntaxTree}
    (hts : ∀ u ∈ ts, u ∈ c.nodes) (horder : Span.InOrder lo (ts.map c.spanOf) hi)
    (hlo : s'.stop ≤ lo) (hs : s ∈ c.sectionsFrom s' ts) :
    s.stop ≤ hi ∧ ∃ before after, c.StopsAmong s' ts s before after := by
  induction ts generalizing s' lo with
  | nil =>
    obtain rfl := List.mem_singleton.1 hs
    exact StopsAmong.begun_of_inOrder horder hlo
  | cons t ts ih =>
    obtain ⟨ht, htail⟩ := List.forall_mem_cons.1 hts
    obtain ⟨hstart, hspan, hrest⟩ := id horder
    have hbehind : s'.stop ≤ c.stopOf t := Nat.le_trans hlo (Nat.le_trans hstart hspan)
    rw [sectionsFrom] at hs
    split at hs
    next access slots colon hkind =>
      have hlabel := label?_of_kind (c := c) hkind
      obtain ⟨hle, hlt, hge⟩ := label_within hc ht hlabel
      rcases List.mem_cons.1 hs with rfl | hs
      · exact StopsAmong.begun_of_inOrder horder hlo
      · obtain ⟨hhi, before, after, h⟩ := ih htail hrest hge hs
        refine ⟨hhi, _, _, h.cons_label hlabel ⟨rfl, rfl, rfl⟩ rfl ⟨colon, rfl⟩ ?_⟩
        exact Nat.le_trans hlo (Nat.le_trans hstart (Nat.le_trans hle (Nat.le_of_lt hlt)))
    next hkind =>
      obtain ⟨hhi, before, after, h⟩ := ih htail hrest hbehind hs
      have hlabel : c.label? t = none := label?_eq_none (by simp [hkind])
      exact ⟨hhi, _, _, h.cons hlabel (.inl rfl) (Nat.le_refl _) ⟨rfl, rfl, rfl⟩⟩
    next hkind _ =>
      obtain ⟨hhi, before, after, h⟩ := ih htail hrest (Nat.le_refl _) hs
      exact ⟨hhi, _, _, h.cons (label?_eq_none hkind) (.inr ⟨t.last, rfl⟩) hbehind
        ⟨rfl, rfl, rfl⟩⟩

end SourceCode

end Mend
