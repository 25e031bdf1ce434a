import Mend.Proofs.SyntaxTrees

/-!
# What the children of nodes are

How the children of a node follow each other is told by its kind, but for some kinds the layout does
not tell which children there are.  Each of them is closed in one place only: a function definition
behind specifiers, a declarator and a block, a declaration behind specifiers and declarators, and a
class behind a name and its members.  Labels that set an access level are read nowhere but among
those members.

All the other parsers keep these properties of the trees that they put together.  What a parser is
given and what it leaves is of no matter here, so only its results are spoken of.

## Main definitions

* `NodeKind.isMember` — what stands in the body of a class.
* `NodeKind.mayHold` — which children a node may have.
* `Piece.BodyLast`, `PieceTree.BodiesLast` — all children of a definition but the last one stand
  before a body.
* `PieceTree.IsBuilt` — nodes have the children that they may have, and bodies come last.
* `Parse.Gives` — what holds of every result of a parser.
* `Grammar.BuildsTrees` — a grammar whose parsers make such trees.

## Main results

* `Parse.Gives.specifiers`, `Parse.Gives.declarator` — specifiers and declarators are of their
  kinds.
* `PieceTree.isBuilt_of_ofTokens_eq_ok` — **in the tree of a file nodes have the children that they
  may have.**
* `PieceTree.bodiesLast_of_ofTokens_eq_ok` — in the tree of a file bodies come last.
-/

namespace Mend

namespace NodeKind

/-- A child that may stand before the body of a function. -/
def isHead (k : NodeKind) : Bool := k.isSpecifier || k.isDeclarator

/-- A label that sets an access level. -/
def isAccessLabel : NodeKind → Bool
  | .accessLabel _ _ _ => true
  | _ => false

/-- What stands in the body of a class: a label, a macro or a declaration. -/
def isMember : NodeKind → Bool
  | .accessLabel _ _ _ | .macroMember _ | .simpleDeclaration _ | .functionDefinition => true
  | _ => false

/-- Which children a node may have. -/
def mayHold (parent child : NodeKind) : Bool :=
  match parent with
  | .classSpecifier _ _ _ => child.isName || child.isMember
  | .simpleDeclaration _ => child.isHead
  | .functionDefinition => child.isHead || child.isBlock
  | _ => !child.isAccessLabel

/-- A node that may stand anywhere, and whose children may be all that stands anywhere. -/
def isOrdinary : NodeKind → Bool
  | .classSpecifier _ _ _ | .simpleDeclaration _ | .functionDefinition | .accessLabel _ _ _ => false
  | _ => true

end NodeKind

/-- All children of a function definition but the last one stand before a body. -/
def Piece.BodyLast (p : Piece) (cs : List Piece) : Prop :=
  p.kind = .functionDefinition → ∀ c ∈ cs.dropLast, c.kind.isHead = true

/-- A node has children that it may have, and in a definition the body comes last. -/
def Piece.IsBuilt (p : Piece) (cs : List Piece) : Prop :=
  (∀ c ∈ cs, p.kind.mayHold c.kind = true) ∧ p.BodyLast cs

/-- In every function definition of a tree the body comes last. -/
def PieceTree.BodiesLast (t : PieceTree) : Prop := t.All Piece.BodyLast

/-- Every node of a tree has children that it may have, and the tree is no label. -/
def PieceTree.IsBuilt (t : PieceTree) : Prop :=
  t.All Piece.IsBuilt ∧ t.label.kind.isAccessLabel = false

/-- In every function definition of a numbered tree the body comes last. -/
def SyntaxTree.BodiesLast (t : SyntaxTree) : Prop :=
  t.All fun n ns => n.toPiece.BodyLast (ns.map Node.toPiece)

/-- Every node of a numbered tree has children that it may have. -/
def SyntaxTree.IsBuilt (t : SyntaxTree) : Prop :=
  t.All fun n ns => n.toPiece.IsBuilt (ns.map Node.toPiece)

namespace NodeKind

/-- An ordinary node may hold whatever is no label. -/
theorem mayHold_of_isOrdinary {k child : NodeKind} (hk : k.isOrdinary = true)
    (hchild : child.isAccessLabel = false) : k.mayHold child = true := by
  have hhold : (!child.isAccessLabel) = true := by rw [hchild]; rfl
  cases k <;> first | exact hhold | cases hk

theorem ne_of_isOrdinary {k : NodeKind} (hk : k.isOrdinary = true) :
    k ≠ .functionDefinition ∧ k.isAccessLabel = false := by
  constructor
  · rintro rfl
    cases hk
  · cases k <;> first | rfl | cases hk

end NodeKind

/-- A node with children of its own is built when its children are. -/
theorem PieceTree.all_isBuilt_node {p : Piece} {cs : List PieceTree}
    (hhold : ∀ c ∈ cs, p.kind.mayHold c.label.kind = true) (hbody : p.BodyLast (cs.map Rose.label))
    (hcs : ∀ c ∈ cs, c.All Piece.IsBuilt) : Rose.All Piece.IsBuilt (.node p cs) :=
  Rose.all_node.2 ⟨⟨List.forall_mem_map.2 hhold, hbody⟩, hcs⟩

namespace Parse

/-- Every result of a parser has a property, on whatever tokens it is read. -/
def Gives {α : Type} (p : Parse α) (Q : α → Prop) : Prop :=
  ∀ s : TokenStream, p.Ensures s fun a _ => Q a

namespace Gives

variable {α β σ : Type} {p q : Parse α} {Q R : α → Prop} {P : β → Prop}

/-! ### Rules -/

protected theorem imp (h : p.Gives Q) (hQ : ∀ a, Q a → R a) : p.Gives R :=
  fun s => (h s).imp fun a _ => hQ a

protected theorem bind {f : α → Parse β} (h : p.Gives Q) (hf : ∀ a, Q a → (f a).Gives P) :
    (p >>= f).Gives P :=
  fun s => (h s).bind fun a s' ha => hf a ha s'

/-- A parser whose result does not matter, and then another one. -/
protected theorem next {f : α → Parse β} (hf : ∀ a, (f a).Gives P) : (p >>= f).Gives P :=
  .bind (Q := fun _ => True) (fun _ _ _ _ => trivial) fun a _ => hf a

protected theorem pure {a : α} (h : Q a) : (pure a : Parse α).Gives Q := fun _ => .pure h

protected theorem fail (what : Expectation) : (fail what : Parse α).Gives Q :=
  fun _ => fail_ensures what

protected theorem ite {c : Prop} [Decidable c] (h : p.Gives Q) (h' : q.Gives Q) :
    (if c then p else q).Gives Q :=
  fun s => .ite (fun _ => h s) fun _ => h' s

/-- A node is closed that has children that it may have. -/
theorem close_all (kind : NodeKind) {first : Nat} (cs : List PieceTree)
    (hhold : ∀ c ∈ cs, kind.mayHold c.label.kind = true)
    (hbody : kind = .functionDefinition →
      ∀ c ∈ (cs.map Rose.label).dropLast, c.kind.isHead = true)
    (hcs : ∀ c ∈ cs, c.All Piece.IsBuilt) :
    (close kind first cs).Gives fun t => t.All Piece.IsBuilt ∧ t.label.kind = kind := by
  rintro s t s' ht
  cases ht
  exact ⟨PieceTree.all_isBuilt_node hhold hbody hcs, rfl⟩

/-- An ordinary node keeps the property of its children, and is of its kind. -/
theorem close_kind {kind : NodeKind} {first : Nat} {cs : List PieceTree}
    (hkind : kind.isOrdinary = true) (hcs : ∀ c ∈ cs, c.IsBuilt) :
    (close kind first cs).Gives fun t => t.IsBuilt ∧ t.label.kind = kind := by
  obtain ⟨hne, hlabel⟩ := NodeKind.ne_of_isOrdinary hkind
  refine (close_all kind cs (fun c hc => NodeKind.mayHold_of_isOrdinary hkind (hcs c hc).2)
    (fun heq => absurd heq hne) fun c hc => (hcs c hc).1).imp fun t ht => ?_
  exact ⟨⟨ht.1, ht.2 ▸ hlabel⟩, ht.2⟩

/-- An ordinary node of a sort. -/
theorem close_is {is : NodeKind → Bool} {kind : NodeKind} {first : Nat} {cs : List PieceTree}
    (his : is kind = true) (hkind : kind.isOrdinary = true) (hcs : ∀ c ∈ cs, c.IsBuilt) :
    (close kind first cs).Gives fun t => t.IsBuilt ∧ is t.label.kind = true :=
  (close_kind hkind hcs).imp fun _ ht => ⟨ht.1, ht.2 ▸ his⟩

theorem close {kind : NodeKind} {first : Nat} {cs : List PieceTree}
    (hkind : kind.isOrdinary = true) (hcs : ∀ c ∈ cs, c.IsBuilt) :
    (close kind first cs).Gives PieceTree.IsBuilt :=
  (close_kind hkind hcs).imp fun _ h => h.1

/-- A node without children. -/
theorem close_nil {kind : NodeKind} {first : Nat} (hkind : kind.isOrdinary = true) :
    (Parse.close kind first []).Gives PieceTree.IsBuilt :=
  close hkind nofun

/-! ### Loops -/

theorem collectWhile {more : TokenStream → Bool} {item : Parse α} (h : item.Gives Q) :
    (collectWhile more item).Gives fun as => ∀ a ∈ as, Q a := by
  let one (_ : TokenStream) (a : α) (_ : TokenStream) : Prop := Q a
  let many (_ : TokenStream) (as : List α) (_ : TokenStream) : Prop := ∀ a ∈ as, Q a
  refine .next fun s s₁ => @items_ensures _ _ _ one many (fun _ => nofun) ?_ (fun s _ => h s) _ s₁
  exact fun _ _ _ _ _ _ ha has => List.forall_mem_cons.2 ⟨ha, has⟩

theorem commaSeparated {item : Parse α} (h : item.Gives Q) :
    (commaSeparated item).Gives fun as => ∀ a ∈ as, Q a :=
  .bind h fun _ ha => .bind (collectWhile (.next fun _ => h)) fun _ has =>
    .pure (List.forall_mem_cons.2 ⟨ha, has⟩)

theorem repeatWhile {more : σ → TokenStream → Bool} {step : σ → Parse σ} {I : σ → Prop}
    (h : ∀ x, I x → (step x).Gives I) {x : σ} (hx : I x) : (repeatWhile more step x).Gives I :=
  fun _ => repeatWhile_ensures (I := fun x _ => I x) (fun x s hx _ => h x hx s) hx

end Gives

end Parse

/-- The parsers of a grammar make trees in which nodes have the children that they may have. -/
structure Grammar.BuildsTrees (g : Grammar) : Prop where
  /-- An expression. -/
  assignment : g.assignment.Gives PieceTree.IsBuilt
  /-- A statement. -/
  statement : g.statement.Gives PieceTree.IsBuilt
  /-- A declaration that is no namespace. -/
  simpleDeclaration : ∀ place, (g.simpleDeclaration place).Gives fun t =>
    t.IsBuilt ∧ t.label.kind.isMember = true
  /-- A declaration. -/
  declaration : g.declaration.Gives PieceTree.IsBuilt

namespace Parse.Gives

open PieceTree

variable {g : Grammar} {t u v : PieceTree}

theorem forall_one (ht : t.IsBuilt) : ∀ c ∈ [t], c.IsBuilt := by simpa using ht

theorem forall_two (ht : t.IsBuilt) (hu : u.IsBuilt) : ∀ c ∈ [t, u], c.IsBuilt := by
  simp [ht, hu]

theorem forall_three (ht : t.IsBuilt) (hu : u.IsBuilt) (hv : v.IsBuilt) :
    ∀ c ∈ [t, u, v], c.IsBuilt := by
  simp [ht, hu, hv]

/-! ### Expressions -/

theorem unqualifiedName :
    unqualifiedName.Gives fun t => t.IsBuilt ∧ t.label.kind.isName = true := by
  refine .next fun s => .next fun tilde => ?_
  cases tilde with
  | some tilde => exact .next fun _ => close_is rfl rfl nofun
  | none => exact .next fun _ => close_is rfl rfl nofun

/-- **Names are names.** -/
theorem name_isName : name.Gives fun t => t.IsBuilt ∧ t.label.kind.isName = true :=
  .next fun _ => .next fun _ => .next fun _ => .bind unqualifiedName fun _ ht =>
    .ite (.pure ht) (close_is rfl rfl (forall_one ht.1))

theorem name : name.Gives IsBuilt := name_isName.imp fun _ ht => ht.1

theorem leaf {kind : Nat → NodeKind} (h : ∀ i, (kind i).isOrdinary = true) :
    (leaf kind).Gives IsBuilt :=
  .next fun i => close_nil (h i)

theorem primary (h : g.BuildsTrees) : (primary g).Gives IsBuilt := by
  refine .next fun s => .ite (.next fun _ => .next fun _ => close_nil rfl) ?_
  refine .next fun k => ?_
  split
  case h_1 | h_2 | h_3 | h_4 | h_5 | h_6 => exact leaf fun _ => rfl
  case h_7 =>
    exact .next fun _ => .bind h.assignment fun _ ht => .next fun _ => close rfl (forall_one ht)
  case h_8 | h_9 => exact name
  case h_10 => exact .fail _

theorem suffix (h : g.BuildsTrees) (ht : t.IsBuilt) : (suffix g t).Gives IsBuilt := by
  refine .next fun k => ?_
  split
  case h_1 =>
    refine .next fun lparen => .next fun s => .ite
      (.bind (Q := fun us => ∀ u ∈ us, u.IsBuilt) (.pure nofun) fun us hus => ?_)
      (.bind (commaSeparated h.assignment) fun us hus => ?_)
    all_goals exact .next fun _ => close rfl (List.forall_mem_cons.2 ⟨ht, hus⟩)
  case h_2 =>
    exact .next fun _ => .bind h.assignment fun _ hu => .next fun _ =>
      close rfl (forall_two ht hu)
  case h_3 | h_4 => exact .next fun _ => .bind name fun _ hu => close rfl (forall_two ht hu)
  case h_5 => exact .next fun _ => close rfl (forall_one ht)

theorem unary (h : g.BuildsTrees) : (unary g).Gives IsBuilt := by
  refine .next fun operators => .bind (Q := IsBuilt)
    (.bind (primary h) fun _ => repeatWhile fun _ => suffix h) fun operand hoperand => ?_
  induction operators with
  | nil => exact .pure hoperand
  | cons operator operators ih =>
    rw [List.foldrM_cons]
    exact .bind ih fun _ ht => close rfl (forall_one ht)

theorem binaryLevel (h : g.BuildsTrees) (n : Nat) : (binaryLevel g n).Gives IsBuilt := by
  induction n with
  | zero => exact unary h
  | succ n ih =>
    refine .bind ih fun _ => repeatWhile fun _ ht => .next fun _ => .bind ih fun _ hu => ?_
    exact close rfl (forall_two ht hu)

theorem conditional (h : g.BuildsTrees) : (conditional g).Gives IsBuilt := by
  refine .bind (binaryLevel h 10) fun _ ht => .next fun question => ?_
  cases question with
  | none => exact .pure ht
  | some question =>
    exact .bind h.assignment fun _ hu => .next fun _ => .bind h.assignment fun _ hv =>
      close rfl (forall_three ht hu hv)

theorem assignment (h : g.BuildsTrees) : (assignment g).Gives IsBuilt :=
  .bind (conditional h) fun _ ht => .next fun _ =>
    .ite (.next fun _ => .bind h.assignment fun _ hu => close rfl (forall_two ht hu)) (.pure ht)

/-! ### Specifiers -/

theorem block_isBlock (h : g.BuildsTrees) :
    (Parse.block g).Gives fun t => t.IsBuilt ∧ t.label.kind.isBlock = true :=
  .next fun _ => .next fun _ => .bind (collectWhile h.statement) fun _ hts => .next fun _ =>
    close_is rfl rfl hts

theorem block (h : g.BuildsTrees) : (Parse.block g).Gives IsBuilt :=
  (block_isBlock h).imp fun _ ht => ht.1

theorem enumerator (h : g.BuildsTrees) : (enumerator g).Gives IsBuilt := by
  refine .next fun s => .next fun name => .next fun equal => ?_
  cases equal with
  | none => exact close_nil rfl
  | some equal => exact .bind (conditional h) fun _ ht => close rfl (forall_one ht)

theorem enumerators (h : g.BuildsTrees) (n : Nat) :
    (enumerators g n).Gives fun ts => ∀ t ∈ ts, t.IsBuilt := by
  induction n with
  | zero => exact .fail _
  | succ n ih =>
    refine .next fun s => .ite (.pure nofun) (.bind (enumerator h) fun _ ht => ?_)
    refine .next fun comma => ?_
    exact .ite (.bind ih fun _ hts => .pure (List.forall_mem_cons.2 ⟨ht, hts⟩))
      (.pure (forall_one ht))

theorem typeName? :
    typeName?.Gives fun o => ∀ t ∈ o, t.IsBuilt ∧ t.label.kind.isName = true :=
  .next fun _ => .ite (.bind name_isName fun _ ht => .pure (by simpa using ht)) (.pure nofun)

/-- The parts of a type that is defined on the spot. -/
theorem forall_definition {Q : PieceTree → Prop} {o : Option PieceTree} {ts : List PieceTree}
    (ho : ∀ t ∈ o, Q t) (hts : ∀ t ∈ ts, Q t) : ∀ t ∈ o.toList ++ ts, Q t :=
  List.forall_mem_append.2 ⟨fun t ht => ho t (Option.mem_toList.1 ht), hts⟩

theorem enumSpecifier (h : g.BuildsTrees) :
    (enumSpecifier g).Gives fun t => t.IsBuilt ∧ t.label.kind.isSpecifier = true := by
  refine .next fun keyword => .bind typeName? fun name hname => .next fun lbrace => ?_
  have hbuilt : ∀ t ∈ name, t.IsBuilt := fun t ht => (hname t ht).1
  split
  · exact .next fun s => .bind (enumerators h _) fun _ hts => .next fun _ =>
      close_is rfl rfl (forall_definition hbuilt hts)
  · exact close_is rfl rfl (forall_one (hbuilt _ rfl))
  · exact .fail _

/-- A label or a macro, which stand among the members of classes only. -/
theorem close_member {kind : NodeKind} {first : Nat} (hkind : kind.isMember = true)
    (hne : kind ≠ .functionDefinition) : (Parse.close kind first []).Gives fun t =>
      t.All Piece.IsBuilt ∧ t.label.kind.isMember = true :=
  (close_all kind [] nofun (fun heq => absurd heq hne) nofun).imp fun _ ht =>
    ⟨ht.1, ht.2 ▸ hkind⟩

/-- **Members are members.** -/
theorem member (h : g.BuildsTrees) :
    (member g).Gives fun t => t.All Piece.IsBuilt ∧ t.label.kind.isMember = true := by
  have hdeclaration : (g.simpleDeclaration .classScope).Gives fun t =>
      t.All Piece.IsBuilt ∧ t.label.kind.isMember = true :=
    (h.simpleDeclaration _).imp fun _ ht => ⟨ht.1.1, ht.2⟩
  refine .next fun k => ?_
  split
  case h_1 | h_2 | h_3 | h_4 =>
    exact .next fun _ => .next fun _ => .next fun _ => close_member rfl nofun
  case h_5 =>
    exact .next fun s => .ite (.next fun _ => .next fun _ => close_member rfl nofun) hdeclaration
  case h_6 => exact hdeclaration

theorem classSpecifier (h : g.BuildsTrees) :
    (classSpecifier g).Gives fun t => t.IsBuilt ∧ t.label.kind.isSpecifier = true := by
  refine .next fun key => .bind typeName? fun name hname => .next fun s => .ite ?_ ?_
  · have hbody : Gives (do
        let lbrace ← Parse.expect .lBrace
        let members ← Parse.collectWhile (·.isBefore .rBrace) (Parse.member g)
        let rbrace ← Parse.expect .rBrace
        Parse.close (.classSpecifier key lbrace rbrace) key (name.toList ++ members))
        fun t => t.IsBuilt ∧ t.label.kind.isSpecifier = true := by
      refine .next fun lbrace => .bind (collectWhile (member h)) fun members hmembers =>
        .next fun rbrace => ?_
      have hhold : ∀ t ∈ name.toList ++ members,
          NodeKind.mayHold (.classSpecifier key lbrace rbrace) t.label.kind = true :=
        forall_definition (fun t ht => by simp [NodeKind.mayHold, (hname t ht).2])
          fun t ht => by simp [NodeKind.mayHold, (hmembers t ht).2]
      refine (close_all _ _ hhold nofun (forall_definition (fun t ht => (hname t ht).1.1)
        fun t ht => (hmembers t ht).1)).imp fun t ht => ?_
      exact ⟨⟨ht.1, by rw [ht.2]; rfl⟩, by rw [ht.2]; rfl⟩
    exact .next fun colon => .ite (.next fun _ => hbody) hbody
  · cases name with
    | none => exact .fail _
    | some name => exact close_is rfl rfl (forall_one (hname _ rfl).1)

theorem specifier (h : g.BuildsTrees) :
    (specifier g).Gives fun p => p.1.IsBuilt ∧ p.1.label.kind.isSpecifier = true := by
  refine .next fun s => .next fun k => ?_
  split
  · exact .bind (enumSpecifier h) fun _ ht => .pure ht
  · refine .ite (.bind (classSpecifier h) fun _ ht => .pure ht) (.ite ?_ ?_)
    · exact .next fun _ => .bind (close_is rfl rfl nofun) fun _ ht => .pure ht
    · exact .bind name fun _ hname => .bind (close_is rfl rfl (forall_one hname))
        fun _ ht => .pure ht
  · exact .fail _

/-- **Specifiers are specifiers.** -/
theorem specifiers (h : g.BuildsTrees) :
    (specifiers g).Gives fun ts => ∀ t ∈ ts, t.IsBuilt ∧ t.label.kind.isSpecifier = true := by
  let I (p : List PieceTree × Bool) : Prop :=
    ∀ t ∈ p.1, t.IsBuilt ∧ t.label.kind.isSpecifier = true
  refine .bind (repeatWhile (I := I) (fun p hp => ?_) nofun) fun p hp => .pure ?_
  · exact .bind (specifier h) fun q hq => .pure (List.forall_mem_cons.2 ⟨hq, hp⟩)
  · simpa using hp

/-! ### Declarators -/

theorem declaratorName? : declaratorName?.Gives fun o => ∀ t ∈ o, t.IsBuilt := by
  refine .next fun s => .next fun k => ?_
  split
  case h_1 | h_2 | h_3 =>
    exact .bind name fun _ hname => .bind (close rfl (forall_one hname)) fun _ ht =>
      .pure (by simpa using ht)
  case h_4 => exact .pure nofun

theorem closeDeclarator (h : g.BuildsTrees) {first : Nat} {pointers : List Nat}
    {parts : List PieceTree} (hparts : ∀ t ∈ parts, t.IsBuilt) :
    (closeDeclarator g first pointers parts).Gives fun t =>
      t.IsBuilt ∧ t.label.kind.isDeclarator = true := by
  have hvalue : (initialValue? g).Gives fun o => ∀ p ∈ o, p.2.IsBuilt := by
    refine .next fun equal => ?_
    cases equal with
    | none => exact .pure nofun
    | some equal => exact .bind h.assignment fun _ ht => .pure (by simpa using ht)
  refine .next fun _ => .bind hvalue fun initial hinitial => ?_
  cases initial with
  | none => exact close_is rfl rfl hparts
  | some initial =>
    exact close_is rfl rfl (List.forall_mem_append.2 ⟨hparts, forall_one (hinitial _ rfl)⟩)

theorem parameter (h : g.BuildsTrees) : (parameter g).Gives IsBuilt := by
  refine .next fun s => .bind (specifiers h) fun found hfound => ?_
  have hspecifiers : ∀ t ∈ found, t.IsBuilt := fun t ht => (hfound t ht).1
  have hdeclarator : (parameterDeclarator g).Gives IsBuilt :=
    .next fun _ => .next fun _ => .bind declaratorName? fun _ hcore =>
      (closeDeclarator h fun t ht => hcore t (Option.mem_toList.1 ht)).imp fun _ ht => ht.1
  refine .ite (.next fun _ => ?_) ?_
  all_goals
    refine .next fun s => .ite (close rfl hspecifiers) (.bind hdeclarator fun _ ht => ?_)
    exact close rfl (List.forall_mem_append.2 ⟨hspecifiers, forall_one ht⟩)

theorem parameterList (h : g.BuildsTrees) : (parameterList g).Gives IsBuilt := by
  refine .next fun lparen => .next fun s => .ite
    (.bind (Q := fun ts => ∀ t ∈ ts, t.IsBuilt) (.pure nofun) fun _ hts => ?_)
    (.bind (commaSeparated (parameter h)) fun _ hts => ?_)
  all_goals exact .next fun _ => .next fun _ => close rfl hts

/-- **Declarators are declarators.** -/
theorem declarator (h : g.BuildsTrees) :
    (declarator g).Gives fun p => p.1.IsBuilt ∧ p.1.label.kind.isDeclarator = true := by
  refine .next fun s => .next fun pointers => .bind declaratorName? fun core hcore => ?_
  cases core with
  | none => exact .fail _
  | some core =>
    have hcore : core.IsBuilt := hcore core rfl
    refine .next fun s => .ite (.bind (parameterList h) fun _ hlist => ?_) ?_
    · exact .bind (closeDeclarator h (forall_two hcore hlist)) fun _ ht => .pure ht
    · exact .bind (closeDeclarator h (forall_one hcore)) fun _ ht => .pure ht

/-! ### Declarations -/

/-- **The one place where a function definition is closed.** -/
theorem close_definition {first : Nat} {found : List PieceTree} {declared body : PieceTree}
    (hfound : ∀ t ∈ found, t.IsBuilt ∧ t.label.kind.isHead = true)
    (hdeclared : declared.IsBuilt ∧ declared.label.kind.isHead = true)
    (hbody : body.IsBuilt ∧ body.label.kind.isBlock = true) :
    (Parse.close .functionDefinition first (found ++ [declared, body])).Gives fun t =>
      t.IsBuilt ∧ t.label.kind.isMember = true := by
  have hheads : ∀ t ∈ found ++ [declared], t.IsBuilt ∧ t.label.kind.isHead = true :=
    List.forall_mem_append.2 ⟨hfound, List.forall_mem_singleton.2 hdeclared⟩
  have hparts : found ++ [declared, body] = (found ++ [declared]) ++ [body] := by simp
  rw [hparts]
  refine (close_all _ _ (List.forall_mem_append.2 ⟨?hold, ?body⟩) (fun _ => ?last) ?built).imp
    fun t ht => ⟨⟨ht.1, by rw [ht.2]; rfl⟩, by rw [ht.2]; rfl⟩
  case hold => exact fun t ht => by simp [NodeKind.mayHold, (hheads t ht).2]
  case body => exact List.forall_mem_singleton.2 (by simp [NodeKind.mayHold, hbody.2])
  case last =>
    rw [List.map_append, List.map_singleton, List.dropLast_concat]
    exact List.forall_mem_map.2 fun t ht => (hheads t ht).2
  case built =>
    exact List.forall_mem_append.2
      ⟨fun t ht => (hheads t ht).1.1, List.forall_mem_singleton.2 hbody.1.1⟩

/-- A declaration without a body is closed behind specifiers and declarators. -/
theorem closeDeclaration {first : Nat} {parts : List PieceTree}
    (hparts : ∀ t ∈ parts, t.IsBuilt ∧ t.label.kind.isHead = true) :
    (closeDeclaration first parts).Gives fun t => t.IsBuilt ∧ t.label.kind.isMember = true :=
  .next fun semicolon => (close_all (.simpleDeclaration semicolon) _
    (fun t ht => (hparts t ht).2) nofun fun t ht => (hparts t ht).1.1).imp
      fun t ht => ⟨⟨ht.1, by rw [ht.2]; rfl⟩, by rw [ht.2]; rfl⟩

theorem simpleDeclaration (h : g.BuildsTrees) (place : DeclarationPlace) :
    (simpleDeclaration g place).Gives fun t => t.IsBuilt ∧ t.label.kind.isMember = true := by
  have hhead {t : PieceTree} (ht : t.IsBuilt ∧ t.label.kind.isDeclarator = true) :
      t.IsBuilt ∧ t.label.kind.isHead = true :=
    ⟨ht.1, by simp [NodeKind.isHead, ht.2]⟩
  refine .next fun s => .bind (specifiers h) fun found hfound => ?_
  have hspecifiers : ∀ t ∈ found, t.IsBuilt ∧ t.label.kind.isHead = true := fun t ht =>
    ⟨(hfound t ht).1, by simp [NodeKind.isHead, (hfound t ht).2]⟩
  refine .next fun s => .ite (closeDeclaration hspecifiers) (.bind (declarator h) fun p hp => ?_)
  refine .next fun s => .ite (.bind (block_isBlock h) fun _ =>
    close_definition hspecifiers (hhead hp)) ?_
  have hothers : Gives (do
      let _ ← Parse.advance
      return (← Parse.declarator g).1) fun t => t.IsBuilt ∧ t.label.kind.isHead = true :=
    .next fun _ => .bind (declarator h) fun _ hq => .pure (hhead hq)
  refine .bind (collectWhile hothers) fun _ hts => closeDeclaration ?_
  exact List.forall_mem_append.2 ⟨hspecifiers, List.forall_mem_cons.2 ⟨hhead hp, hts⟩⟩

theorem declaration (h : g.BuildsTrees) : (declaration g).Gives IsBuilt := by
  refine .next fun s => .ite ?_ ((simpleDeclaration h _).imp fun _ ht => ht.1)
  exact .next fun _ => .next fun _ => .next fun _ => .bind (collectWhile h.declaration)
    fun _ hts => .next fun _ => close rfl hts

/-! ### Statements -/

theorem condition (h : g.BuildsTrees) : (condition g).Gives IsBuilt := by
  refine .next fun s => .ite (.next fun s => ?_) (assignment h)
  refine .bind (specifiers h) fun _ hts => .bind (declarator h) fun _ hp => close rfl ?_
  exact List.forall_mem_append.2 ⟨fun t ht => (hts t ht).1, forall_one hp.1⟩

theorem controlCondition (h : g.BuildsTrees) :
    (controlCondition g).Gives fun p => p.2.1.IsBuilt :=
  .next fun _ => .bind (condition h) fun _ ht => .next fun _ => .pure ht

theorem expressionBefore? (h : g.BuildsTrees) (k : TokenKind) :
    (expressionBefore? g k).Gives fun o => ∀ t ∈ o.toList, t.IsBuilt :=
  .next fun _ => .ite (.pure nofun) (.bind (assignment h) fun _ ht => .pure (forall_one ht))

theorem expressionStatement (h : g.BuildsTrees) : (expressionStatement g).Gives IsBuilt :=
  .next fun _ => .bind (expressionBefore? h _) fun _ hts => .next fun _ => close rfl hts

theorem declarationStatement (h : g.BuildsTrees) : (declarationStatement g).Gives IsBuilt :=
  .next fun _ => .bind (simpleDeclaration h _) fun _ ht => close rfl (forall_one ht.1)

theorem ifStatement (h : g.BuildsTrees) : (ifStatement g).Gives IsBuilt := by
  refine .next fun keyword => .bind (controlCondition h) fun c hc =>
    .bind h.statement fun thenBranch hthen => .next fun elseToken => ?_
  cases elseToken with
  | none => exact close rfl (forall_two hc hthen)
  | some elseToken =>
    exact .bind h.statement fun _ helse => close rfl (forall_three hc hthen helse)

theorem forStatement (h : g.BuildsTrees) : (forStatement g).Gives IsBuilt := by
  refine .next fun keyword => .next fun lparen => .next fun s =>
    .ite (.bind (declarationStatement h) fun initial hinitial => ?_)
      (.bind (expressionStatement h) fun initial hinitial => ?_)
  all_goals
    have hrest (c : Option PieceTree) (hc : ∀ t ∈ c.toList, t.IsBuilt) : Gives (do
        let semicolon ← Parse.expect .semicolon
        let expression ← Parse.expressionBefore? g .rParen
        let rparen ← Parse.expect .rParen
        let body ← g.statement
        Parse.close (.forStatement keyword lparen semicolon rparen c.isSome) keyword
          (initial :: (c.toList ++ expression.toList ++ [body]))) IsBuilt :=
      .next fun _ => .bind (expressionBefore? h _) fun _ he => .next fun _ =>
        .bind h.statement fun _ hbody => close rfl (List.forall_mem_cons.2 ⟨hinitial,
          List.forall_mem_append.2 ⟨List.forall_mem_append.2 ⟨hc, he⟩, forall_one hbody⟩⟩)
    exact .next fun s => .ite (hrest none nofun)
      (.bind (condition h) fun c hc => hrest (some c) (forall_one hc))

theorem statement (h : g.BuildsTrees) : (statement g).Gives IsBuilt := by
  refine .next fun k => ?_
  split
  case h_1 => exact .fail _
  case h_2 => exact block h
  case h_3 => exact ifStatement h
  case h_4 | h_7 =>
    exact .next fun _ => .bind (controlCondition h) fun _ hc => .bind h.statement fun _ hbody =>
      close rfl (forall_two hc hbody)
  case h_5 =>
    exact .next fun _ => .bind h.statement fun _ hbody => .next fun _ => .next fun _ =>
      .bind (assignment h) fun _ ht => .next fun _ => .next fun _ =>
        close rfl (forall_two hbody ht)
  case h_6 => exact forStatement h
  case h_8 =>
    exact .next fun _ => .bind (conditional h) fun _ ht => .next fun _ =>
      close rfl (forall_one ht)
  case h_9 | h_10 | h_11 => exact .next fun _ => .next fun _ => close_nil rfl
  case h_12 =>
    exact .next fun _ => .bind (expressionBefore? h _) fun _ hts => .next fun _ =>
      close rfl hts
  case h_13 => exact .next fun s => .ite (declarationStatement h) (expressionStatement h)

end Parse.Gives

/-! ### Files -/

/-- Any number of rounds makes trees in which nodes have the children that they may have. -/
theorem Grammar.buildsTrees_forTokens (n : Nat) : (forTokens n).BuildsTrees := by
  induction n with
  | zero => exact ⟨.fail _, .fail _, fun _ => .fail _, .fail _⟩
  | succ n ih =>
    exact ⟨.assignment ih, .statement ih, fun _ => .simpleDeclaration ih _, .declaration ih⟩

/-- **In the tree of a file nodes have the children that they may have.** -/
theorem PieceTree.isBuilt_of_ofTokens_eq_ok {tokens : List Token} {length : Nat}
    {t : PieceTree} (h : ofTokens tokens length = .ok t) : t.IsBuilt := by
  have hfile : (Parse.file (Grammar.forTokens (tokens.length + 1))).Gives IsBuilt :=
    .bind (.collectWhile (Grammar.buildsTrees_forTokens _).declaration) fun _ hts =>
      .close rfl hts
  rw [ofTokens] at h
  split at h
  next hrun =>
    cases h
    exact hfile _ _ _ hrun
  next => cases h

/-- In the tree of a file bodies come last. -/
theorem PieceTree.bodiesLast_of_ofTokens_eq_ok {tokens : List Token} {length : Nat}
    {t : PieceTree} (h : ofTokens tokens length = .ok t) : t.BodiesLast :=
  fun u hu => ((isBuilt_of_ofTokens_eq_ok h).1 u hu).2

theorem SyntaxTree.bodiesLast_ofPieces {t : PieceTree} (h : t.BodiesLast) :
    (ofPieces t).BodiesLast :=
  Rose.All.mapNumbered (g := Node.toPiece) (fun _ _ => rfl) h 0

theorem SyntaxTree.isBuilt_ofPieces {t : PieceTree} (h : t.IsBuilt) : (ofPieces t).IsBuilt :=
  Rose.All.mapNumbered (g := Node.toPiece) (fun _ _ => rfl) h.1 0

end Mend
