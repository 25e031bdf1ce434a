import Mend.Proofs.BoundSymbols

/-!
# Where the walk comes

The walk that finds the symbols of a file goes down from the root, and it takes its place along.
Which place it has at a node depends on the nodes around it only, but for the numbers of the scopes.
So the places can be told without the walk: a way from the root down to a node, on which each node
says where the walk goes on among its children, and the labels before a child move the place.

Everything that the walk finds is the symbol of a node that it comes to, at the place that it has
there.  What is to be known of all symbols of a kind then needs no walk any more: it is an induction
on the way to the node.

## Main definitions

* `SourceCode.Enters` — where the walk goes on among the children of a node.
* `SourceCode.Reaches` — the walk comes to a node, at a place.
* `SourceCode.Collected` — the symbols of a table are those of nodes that the walk comes to.

## Main results

* `SourceCode.Collected.bind` — the walk through a node that it comes to finds such symbols only.
* `SourceCode.collected_symbolTable` — **the symbols of a file belong to nodes that the walk comes
  to.**
-/

namespace Mend

namespace NodeKind

/-- A node among whose children the walk goes on where it is. -/
def staysInPlace : NodeKind → Bool
  | .file | .declarationStatement | .doStatement _ _ _ _ _ => true
  | _ => false

/-- A node that opens a scope in which nothing is declared under an access level. -/
def opensBlock : NodeKind → Bool
  | .functionDefinition | .block _ _ | .ifStatement _ _ _ _ | .whileStatement _ _ _
  | .switchStatement _ _ _ | .forStatement _ _ _ _ _ => true
  | _ => false

end NodeKind

namespace SourceCode

variable {c : SourceCode} {p q : Place} {t u : SyntaxTree} {table : SymbolTable}

/-- Where the walk goes on before the first child of a node, when it goes on there. -/
inductive Enters (c : SourceCode) (p : Place) (t : SyntaxTree) : Place → Prop
  /-- A node that opens no scope. -/
  | stay (hkind : t.label.kind.staysInPlace = true) : Enters c p t p
  /-- A declaration: what follows is among its specifiers and declarators. -/
  | declaration {semicolon : Nat} (hkind : t.label.kind = .simpleDeclaration semicolon) :
    Enters c p t { p with declaration := some (c.spanOf t, !t.declarators.isEmpty) }
  /-- A namespace. -/
  | namespaceBody {keyword lbrace rbrace : Nat} {name : Option Nat} (scope : Nat)
    (hkind : t.label.kind = .namespaceBody keyword name lbrace rbrace) :
    Enters c p t { p.inside scope with path := p.path ++ (name.map c.spelling).toList }
  /-- A class that a declaration defines: the members have the access level of its keyword. -/
  | classBody {key lbrace rbrace : Nat} (scope : Nat)
    (hkind : t.label.kind = .classSpecifier key lbrace rbrace)
    (hdeclaration : p.declaration.isSome = true) :
    Enters c p t { p.inside scope with
      path := (c.classOf p t key lbrace rbrace scope).path
      access := some (c.classKeyOf key).defaultAccess }
  /-- A function with its body, a block, or a statement with a condition. -/
  | block (scope : Nat) (hkind : t.label.kind.opensBlock = true) : Enters c p t (p.inside scope)

/-- The walk comes to a node, at a place. -/
inductive Reaches (c : SourceCode) : Place → SyntaxTree → Prop
  /-- It starts at the root. -/
  | root : Reaches c ⟨0, [], none, none⟩ c.tree
  /-- It comes to a child after those before it. -/
  | child {p q : Place} {t u : SyntaxTree} {before after : List SyntaxTree} (ht : Reaches c p t)
    (hq : c.Enters p t q) (hchildren : t.children = before ++ u :: after) :
    Reaches c (before.foldl c.placeAfter q) u

theorem Reaches.mem_nodes (h : c.Reaches p t) : t ∈ c.nodes := by
  induction h with
  | root => exact Rose.self_mem_subtrees c.tree
  | child _ _ hchildren ih =>
    exact Rose.mem_subtrees_of_mem_children ih (hchildren ▸ List.mem_append_cons_self)

/-! ### Symbols of nodes -/

/-- A class is that of a node that the walk comes to. -/
def DefinesClass (c : SourceCode) (p : Place) (t : SyntaxTree) (k : ClassSymbol) : Prop :=
  p.declaration.isSome = true ∧ ∃ key lbrace rbrace scope,
    t.label.kind = .classSpecifier key lbrace rbrace ∧ k = c.classOf p t key lbrace rbrace scope

/-- A function is that of a declarator of a declaration or a definition. -/
structure DeclaresFunction (c : SourceCode) (p : Place) (t d : SyntaxTree) (g : FunctionSymbol) :
    Prop where
  /-- The declarator is one of the node's. -/
  mem_declarators : d ∈ t.declarators
  /-- The function is declared at the place, and it has a body when the node is a definition. -/
  eq_functionOf : ∃ name body, c.declaredName? d = some name ∧ g = c.functionOf p t d name body ∧
    ((∃ semicolon, t.label.kind = .simpleDeclaration semicolon) ∧ body = none ∨
      t.label.kind = .functionDefinition ∧ body.isSome = true)

/-- An enumeration is that of a node that the walk comes to. -/
def DefinesEnum (c : SourceCode) (p : Place) (t : SyntaxTree) (e : EnumSymbol) : Prop :=
  p.declaration.isSome = true ∧ e = c.enumOf p t ∧ ∃ keyword lbrace rbrace,
    t.label.kind = .enumSpecifier keyword lbrace rbrace

/-- The classes, the functions and the enumerations of a table are those of nodes that the walk
comes to. -/
structure Collected (c : SourceCode) (table : SymbolTable) : Prop where
  /-- The classes. -/
  classes : ∀ k ∈ table.classes, ∃ p t, c.Reaches p t ∧ c.DefinesClass p t k
  /-- The functions. -/
  functions : ∀ g ∈ table.functions, ∃ p t d, c.Reaches p t ∧ c.DeclaresFunction p t d g
  /-- The enumerations. -/
  enums : ∀ e ∈ table.enums, ∃ p t, c.Reaches p t ∧ c.DefinesEnum p t e
  /-- A scope of a class is the body of that class. -/
  bodies : ∀ (n i : Nat) s, table.scopes[n]? = some s → s.kind = .classScope i →
    ∃ k, table.classes[i]? = some k ∧ k.bodyScope = n

namespace Collected

/-- A class is added together with the scope of its body. -/
theorem openClass (h : c.Collected table) (ht : c.Reaches p t) {key lbrace rbrace : Nat}
    (hdeclaration : p.declaration.isSome = true)
    (hkind : t.label.kind = .classSpecifier key lbrace rbrace) (s : Scope)
    (hs : s.kind = .classScope table.classes.length) :
    c.Collected ((table.openScope s).1.addClass
      (c.classOf p t key lbrace rbrace table.scopes.length)) :=
  { h with
    classes := List.forall_mem_append.2 ⟨h.classes, List.forall_mem_singleton.2
      ⟨p, t, ht, hdeclaration, key, lbrace, rbrace, _, hkind, rfl⟩⟩
    bodies := by
      intro n i u hu hkind
      rcases Scope.getElem?_concat_eq_some.1 hu with hu | ⟨rfl, rfl⟩
      · obtain ⟨k, hk, hbody⟩ := h.bodies n i u hu hkind
        exact ⟨k, List.getElem?_append_left (List.getElem?_eq_some_iff.1 hk).1 ▸ hk, hbody⟩
      · obtain rfl : table.classes.length = i := ScopeKind.classScope.inj (hs.symm.trans hkind)
        exact ⟨_, List.getElem?_concat_length, rfl⟩ }

theorem addFunction (h : c.Collected table) (ht : c.Reaches p t) {d : SyntaxTree}
    {g : FunctionSymbol} (hg : c.DeclaresFunction p t d g) : c.Collected (table.addFunction g) :=
  { h with
    functions := List.forall_mem_append.2
      ⟨h.functions, List.forall_mem_singleton.2 ⟨p, t, d, ht, hg⟩⟩ }

theorem addEnum (h : c.Collected table) (ht : c.Reaches p t) {e : EnumSymbol}
    (he : c.DefinesEnum p t e) : c.Collected (table.addEnum e) :=
  { h with
    enums := List.forall_mem_append.2
      ⟨h.enums, List.forall_mem_singleton.2 ⟨p, t, ht, he⟩⟩ }

/-- A scope that is no class is opened. -/
theorem openScope (h : c.Collected table) (s : Scope) (hs : ∀ i, s.kind ≠ .classScope i) :
    c.Collected (table.openScope s).1 :=
  { h with
    bodies := by
      intro n i u hu hkind
      rcases Scope.getElem?_concat_eq_some.1 hu with hu | ⟨rfl, rfl⟩
      · exact h.bodies n i u hu hkind
      · exact absurd hkind (hs i) }

/-- Variables are no classes, functions or enumerations. -/
theorem bindVariable (h : c.Collected table) (p : Place) (ts : List SyntaxTree) (d : SyntaxTree) :
    c.Collected (c.bindVariable p table ts d) := by
  unfold SourceCode.bindVariable
  split
  · exact h
  · exact { h with }

theorem bindForward (h : c.Collected table) (p : Place) (t : SyntaxTree) (key : Nat) :
    c.Collected (c.bindForward p t table key) := by
  unfold SourceCode.bindForward
  split
  · split
    · exact { h with }
    · exact h
  · exact h

theorem bindParameters (h : c.Collected table) (p : Place) (list : Option SyntaxTree) :
    c.Collected (c.bindParameters p table list) := by
  unfold SourceCode.bindParameters
  split
  next => exact h
  next l =>
    refine List.foldlRecOn _ _ h ?_
    intro table h t _
    split
    · exact h.bindVariable p _ _
    · exact h

/-- The declarators of a declaration declare functions and variables. -/
theorem bindDeclarators (h : c.Collected table) (ht : c.Reaches p t) {semicolon : Nat}
    (hkind : t.label.kind = .simpleDeclaration semicolon) :
    c.Collected (t.declarators.foldl (c.bindDeclarator p t) table) := by
  refine List.foldlRecOn _ _ h ?_
  intro table h d hd
  unfold bindDeclarator
  split
  next => exact h
  next name hname =>
    split
    · exact h.addFunction ht ⟨hd, name, none, hname, rfl, .inl ⟨⟨semicolon, hkind⟩, rfl⟩⟩
    · split
      · exact h
      · exact h.bindVariable p _ _

/-! ### The walk -/

/-- The walk through the children of a node from one of them on, at the place that those before it
have led to. -/
theorem bindAll (ht : c.Reaches p t) (hq : c.Enters p t q) (before : List SyntaxTree)
    {ts : List SyntaxTree} (hchildren : t.children = before ++ ts)
    (hts : ∀ u ∈ ts, ∀ p table, c.Reaches p u → c.Collected table →
      c.Collected (c.bind p table u)) (h : c.Collected table) :
    c.Collected (c.bindAll (before.foldl c.placeAfter q) table ts) := by
  induction ts generalizing before table with
  | nil => exact h
  | cons u ts ih =>
    obtain ⟨hu, hts⟩ := List.forall_mem_cons.1 hts
    have hnext := ih (before ++ [u]) (by simpa using hchildren) hts
      (hu _ table (.child ht hq hchildren) h)
    rwa [List.foldl_concat] at hnext

/-- **The walk through a node that it comes to finds symbols of such nodes only.** -/
protected theorem bind (ht : c.Reaches p t) (h : c.Collected table) :
    c.Collected (c.bind p table t) := by
  induction t using Rose.induct generalizing p table with
  | h n ts ih =>
    have hbody {q : Place} {table : SymbolTable} (hq : c.Enters p (.node n ts) q)
        (h : c.Collected table) : c.Collected (c.bindAll q table ts) :=
      bindAll ht hq [] rfl (fun u hu p table hp h => ih u hu hp h) h
    rw [SourceCode.bind]
    split
    case h_1 hkind | h_2 hkind | h_3 hkind =>
      exact hbody (.stay (by rw [Rose.label_node, hkind]; rfl)) h
    case h_4 hkind => exact hbody (.namespaceBody _ hkind) (h.openScope _ (by simp))
    case h_5 hkind => exact .bindDeclarators (hbody (.declaration hkind) h) ht hkind
    case h_6 key hkind => exact h.bindForward p _ key
    case h_7 hkind =>
      split
      next hdeclaration => exact h.addEnum ht ⟨hdeclaration, rfl, _, _, _, hkind⟩
      next => exact h
    case h_8 hkind =>
      split
      next hdeclaration =>
        exact hbody (.classBody _ hkind hdeclaration)
          (h.openClass ht hdeclaration hkind _ rfl)
      next => exact h
    case h_9 hkind =>
      split
      next => exact h
      next d hd =>
        split
        next => exact h
        next name hname =>
          refine hbody (.block _ (by rw [Rose.label_node, hkind]; rfl)) (.bindParameters ?_ _ _)
          exact (h.openScope _ (by simp)).addFunction ht
            ⟨List.mem_of_head? hd, name, some _, hname, rfl, .inr ⟨hkind, rfl⟩⟩
    case h_10 hkind | h_11 hkind | h_12 hkind | h_13 hkind | h_14 hkind =>
      exact hbody (.block _ (by rw [Rose.label_node, hkind]; rfl)) (h.openScope _ (by simp))
    case h_15 =>
      split
      · exact h
      · exact h.bindVariable p _ _
    case h_16 => exact h

end Collected

/-- **The symbols of a file belong to nodes that the walk comes to.** -/
theorem collected_symbolTable (c : SourceCode) : c.Collected c.symbolTable :=
  .bind .root
    { classes := nofun
      functions := nofun
      enums := nofun
      bodies := by
        intro n i s hs hkind
        obtain rfl := List.mem_singleton.1 (List.mem_of_getElem? hs)
        cases hkind }

end SourceCode

end Mend
