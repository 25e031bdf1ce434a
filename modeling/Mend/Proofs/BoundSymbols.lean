import Mathlib.Data.List.TakeWhile
import Mend.Proofs.NodeChildren
import Mend.Proofs.ScopeTree

/-!
# Symbols and their scopes

The walk through a syntax tree opens a scope only for a node that lies in the open one, and it
declares a name only where it is.  So the scopes of a file form a tree of spans, and each symbol
lies in the scope that it is declared in.

Three kinds of nodes open a scope that is smaller than they are.  What stands before the opening
brace of a namespace are tokens only, and before that of a class there is at most its name.  A
function definition opens its scope at the parameters, and what stands before them are specifiers
and a part of the declarator, which declare nothing there.

## Main definitions

* `SourceCode.DeclaresIn` — a declarator declares a name that lies in a scope.
* `SourceCode.BindsClass`, `SourceCode.BindsFunction`, `SourceCode.BindsVariable` — what a symbol
  says of its scopes is so.
* `SourceCode.IsBound` — nested scopes, with all symbols where they belong.
* `SourceCode.Walked` — the walk has come to an offset, in a scope.
* `SourceCode.IsRead` — a tree that comes from a text.

## Main results

* `SourceCode.Walked.leave` — a scope that was opened is left again.
* `SourceCode.walked_bind` — **the walk through a node keeps the tree of scopes.**
* `ParsedFile.isBound` — the symbols of a file lie where they belong.
* `ParsedFile.scopes_nest` — **the scopes of a file form a tree of nested spans.**
-/

namespace Mend

namespace NodeKind

/-- A node that the walk passes over, unless it is among the specifiers of a declaration. -/
def isSilent (k : NodeKind) : Bool := k.isHead || k.isName

end NodeKind

/-- What holds of the items of a list and of one that is put behind them. -/
theorem forall_getElem?_concat {α : Type} {P : Nat → α → Prop} {l : List α} {a : α}
    (h : ∀ i b, l[i]? = some b → P i b) (ha : P l.length a) :
    ∀ i b, (l ++ [a])[i]? = some b → P i b := by
  intro i b hb
  rcases List.getElem?_eq_some_iff.1 hb with ⟨hi, rfl⟩
  rw [List.length_append, List.length_singleton] at hi
  rcases Nat.lt_succ_iff_lt_or_eq.1 hi with hlt | rfl
  · rw [List.getElem_append_left hlt]
    exact h i _ (List.getElem?_eq_getElem hlt)
  · simpa using ha

namespace SourceCode

variable {c : SourceCode} {t u d : SyntaxTree}

/-! ### Where the parts of a node lie -/

/-- What a class is made of: its keyword, at most a name, and the members between the braces. -/
theorem layoutSpans_classSpecifier (c : SourceCode) {keyword lbrace rbrace : Nat}
    (hkind : t.label.kind = .classSpecifier keyword lbrace rbrace) :
    ∃ names members, t.children = names ++ members ∧
      (∀ u ∈ names, u.label.kind.isName = true) ∧
      c.layoutSpans t = (c.tokenSpan keyword :: names.map c.spanOf) ++
        (c.tokenSpan lbrace :: (members.map c.spanOf ++ [c.tokenSpan rbrace])) := by
  let kinds := t.children.map fun u => u.label.kind
  let n := (kinds.takeWhile NodeKind.isName).length
  refine ⟨t.children.take n, t.children.drop n, (List.take_append_drop _ _).symm, ?_, ?_⟩
  · intro u hu
    have htake : kinds.take n = kinds.takeWhile NodeKind.isName :=
      (List.prefix_iff_eq_take.1 (List.takeWhile_prefix _)).symm
    have hmem : u.label.kind ∈ kinds.take n := by
      rw [← List.map_take]
      exact List.mem_map_of_mem hu
    exact List.mem_takeWhile_imp (htake ▸ hmem)
  · simp [layoutSpans, Piece.layout, hkind, NodeKind.slots, TokenRun.interleave,
      List.take_of_length_le, List.drop_of_length_le, Function.comp_def, List.map_take,
      List.map_drop, n, kinds]

namespace IsOrdered

/-- A child lies in its node. -/
theorem child (h : c.IsOrdered) (ht : t ∈ c.nodes) (hu : u ∈ t.children) :
    u ∈ c.nodes ∧ (c.spanOf u).Within (c.spanOf t) :=
  ⟨Rose.mem_subtrees_of_mem_children ht hu,
    (h.children ht).of_mem (List.mem_map_of_mem hu)⟩

/-- A declared name lies in its declarator. -/
theorem declaredName (h : c.IsOrdered) (hd : d ∈ c.nodes) {name : List String × String × Span}
    (hname : c.declaredName? d = some name) : name.2.2.Within (c.spanOf d) := by
  unfold declaredName? at hname
  split at hname
  next => cases hname
  next core hcore =>
    split at hname
    next => cases hname
    next words _ =>
      split at hname
      next => cases hname
      next =>
        cases hname
        exact (h.child hd (List.mem_of_find?_eq_some hcore)).2

/-- What stands behind an opening brace lies between it and the closing brace, within the node. -/
theorem inBraces (h : c.IsOrdered) (ht : t ∈ c.nodes) (front : List Span) {ts : List SyntaxTree}
    {lbrace rbrace : Nat} (hlayout : c.layoutSpans t =
      front ++ (c.tokenSpan lbrace :: (ts.map c.spanOf ++ [c.tokenSpan rbrace]))) :
    Span.InOrder (c.tokenStop lbrace) (ts.map c.spanOf) (c.tokenStart rbrace) ∧
      c.startOf t ≤ c.tokenStart lbrace ∧ c.tokenStop rbrace ≤ c.stopOf t := by
  have hnode := h.node ht
  rw [hlayout] at hnode
  obtain ⟨hlbrace, -, hrest⟩ := hnode.sublist (List.sublist_append_right _ _)
  obtain ⟨hbody, -, hstop⟩ := Span.inOrder_append_singleton.1 hrest
  exact ⟨hbody, hlbrace, hstop⟩

/-- What stands between braces lies where both of them do, within the node. -/
theorem braces (h : c.IsOrdered) (ht : t ∈ c.nodes) (front : List Span) {ts : List SyntaxTree}
    {lbrace rbrace : Nat} (hlayout : c.layoutSpans t =
      front ++ (c.tokenSpan lbrace :: (ts.map c.spanOf ++ [c.tokenSpan rbrace]))) :
    Span.InOrder (c.tokenStart lbrace) (ts.map c.spanOf) (c.tokenStop rbrace) ∧
      (⟨c.tokenStart lbrace, c.tokenStop rbrace⟩ : Span).Within (c.spanOf t) := by
  obtain ⟨hbody, hstart, hstop⟩ := h.inBraces ht front hlayout
  have hbody : Span.InOrder (c.tokenStart lbrace) (ts.map c.spanOf) (c.tokenStop rbrace) :=
    (hbody.mono (h.tokenSpan lbrace).1).mono_right (h.tokenSpan rbrace).1
  exact ⟨hbody, hstart, hbody.le, hstop⟩

/-- The scope of a function starts within its declarator. -/
theorem functionStart (h : c.IsOrdered) (hd : d ∈ c.nodes) {name : List String × String × Span}
    (hname : c.declaredName? d = some name) :
    let start := (d.parameterList?.map c.startOf).getD name.2.2.start
    c.startOf d ≤ start ∧ start ≤ c.stopOf d := by
  cases hlist : d.parameterList? with
  | none =>
    have hwithin := h.declaredName hd hname
    exact ⟨hwithin.1, Nat.le_trans hwithin.2.1 hwithin.2.2⟩
  | some l =>
    have hwithin := (h.child hd (List.mem_of_find?_eq_some hlist)).2
    exact ⟨hwithin.1, Nat.le_trans hwithin.2.1 hwithin.2.2⟩

/-- The members of a namespace stand between its braces. -/
theorem namespaceBody (h : c.IsOrdered) (ht : t ∈ c.nodes) {keyword lbrace rbrace : Nat}
    {name : Option Nat} (hkind : t.label.kind = .namespaceBody keyword name lbrace rbrace) :
    Span.InOrder (c.tokenStart lbrace) (t.children.map c.spanOf) (c.tokenStop rbrace) ∧
      (⟨c.tokenStart lbrace, c.tokenStop rbrace⟩ : Span).Within (c.spanOf t) :=
  h.braces ht (c.tokenSpan keyword :: name.toList.map c.tokenSpan)
    (by simp [layoutSpans, Piece.layout, hkind, NodeKind.slots, TokenRun.interleave,
      List.take_of_length_le, List.drop_of_length_le, Function.comp_def])

/-- Before the members of a class there is at most its name. -/
theorem classSpecifier (h : c.IsOrdered) (ht : t ∈ c.nodes) {keyword lbrace rbrace : Nat}
    (hkind : t.label.kind = .classSpecifier keyword lbrace rbrace) :
    ∃ names members, t.children = names ++ members ∧
      (∀ u ∈ names, u.label.kind.isName = true) ∧
      Span.InOrder (c.tokenStart lbrace) (members.map c.spanOf) (c.tokenStop rbrace) ∧
      (⟨c.tokenStart lbrace, c.tokenStop rbrace⟩ : Span).Within (c.spanOf t) := by
  obtain ⟨names, members, hchildren, hnames, hlayout⟩ := layoutSpans_classSpecifier c hkind
  exact ⟨names, members, hchildren, hnames, h.braces ht _ hlayout⟩

end IsOrdered

/-! ### Symbols that lie where they belong -/

/-- A declarator declares a name, and the name lies in a scope. -/
def DeclaresIn (c : SourceCode) (scopes : List Scope) (scope : Nat)
    (name : List String × String × Span) : Prop :=
  (∃ d ∈ c.nodes, c.declaredName? d = some name) ∧ Scope.Covers scopes scope name.2.2

/-- A node that defines a type lies in a scope. -/
def DefinesIn (c : SourceCode) (scopes : List Scope) (scope node : Nat) : Prop :=
  ∃ t, c.node? node = some t ∧ t.label.kind.definesType = true ∧
    Scope.Covers scopes scope (c.spanOf t)

/-- What the class with a number says of its scopes is so. -/
structure BindsClass (c : SourceCode) (scopes : List Scope) (i : Nat) (k : ClassSymbol) :
    Prop where
  /-- Its body is the scope of this class. -/
  body : ∃ s, scopes[k.bodyScope]? = some s ∧ s.kind = .classScope i
  /-- Its node lies in its scope. -/
  node : c.DefinesIn scopes k.scope k.node

/-- What the function with a number says of its scopes is so. -/
structure BindsFunction (c : SourceCode) (scopes : List Scope) (i : Nat) (g : FunctionSymbol) :
    Prop where
  /-- Its body is the scope of this function. -/
  body : ∀ b, g.bodyScope = some b → ∃ s, scopes[b]? = some s ∧ s.kind = .functionScope i
  /-- It has a body if its node is a definition. -/
  definition : ∃ t, c.node? g.node = some t ∧
    (g.bodyScope.isSome = true ↔ t.label.kind = .functionDefinition)
  /-- Its name lies in its scope. -/
  name : c.DeclaresIn scopes g.scope (g.qualifiers, g.name, g.nameSpan)

/-- What a variable says of its scope is so. -/
def BindsVariable (c : SourceCode) (scopes : List Scope) (v : VariableSymbol) : Prop :=
  ∃ qualifiers span, span.start = v.offset ∧ c.DeclaresIn scopes v.scope (qualifiers, v.name, span)

/-- Nested scopes, with all symbols where they belong. -/
structure IsBound (c : SourceCode) (table : SymbolTable) : Prop where
  /-- The scopes form a tree of spans. -/
  nested : Scope.IsNested table.scopes c.text.length
  /-- The classes. -/
  classes : ∀ i k, table.classes[i]? = some k → c.BindsClass table.scopes i k
  /-- The functions. -/
  functions : ∀ i g, table.functions[i]? = some g → c.BindsFunction table.scopes i g
  /-- The variables. -/
  objects : ∀ v ∈ table.objects, c.BindsVariable table.scopes v
  /-- The enumerations. -/
  enums : ∀ e ∈ table.enums, c.DefinesIn table.scopes e.scope e.node

section

variable {scopes scopes' : List Scope}

theorem DeclaresIn.mono {scope : Nat} {name : List String × String × Span}
    (h : c.DeclaresIn scopes scope name) (hext : scopes <+: scopes') :
    c.DeclaresIn scopes' scope name :=
  ⟨h.1, h.2.mono hext⟩

theorem DefinesIn.mono {scope node : Nat} (h : c.DefinesIn scopes scope node)
    (hext : scopes <+: scopes') : c.DefinesIn scopes' scope node := by
  obtain ⟨t, ht, hkind, hcovers⟩ := h
  exact ⟨t, ht, hkind, hcovers.mono hext⟩

theorem BindsClass.mono {i : Nat} {k : ClassSymbol} (h : c.BindsClass scopes i k)
    (hext : scopes <+: scopes') : c.BindsClass scopes' i k where
  body := by
    obtain ⟨s, hs, hkind⟩ := h.body
    exact ⟨s, Scope.getElem?_of_isPrefix hext hs, hkind⟩
  node := h.node.mono hext

theorem BindsFunction.mono {i : Nat} {g : FunctionSymbol} (h : c.BindsFunction scopes i g)
    (hext : scopes <+: scopes') : c.BindsFunction scopes' i g where
  body b hb := by
    obtain ⟨s, hs, hkind⟩ := h.body b hb
    exact ⟨s, Scope.getElem?_of_isPrefix hext hs, hkind⟩
  definition := h.definition
  name := h.name.mono hext

theorem BindsVariable.mono {v : VariableSymbol} (h : c.BindsVariable scopes v)
    (hext : scopes <+: scopes') : c.BindsVariable scopes' v := by
  obtain ⟨qualifiers, span, hstart, hname⟩ := h
  exact ⟨qualifiers, span, hstart, hname.mono hext⟩

end

/-! ### The walk -/

/-- The walk has come to an offset, in a scope of the symbols found before. -/
structure Walked (c : SourceCode) (scope : Nat) (before table : SymbolTable) (o : Nat) :
    Prop where
  /-- Everything lies where it belongs. -/
  bound : c.IsBound table
  /-- The scopes that are not around the place have been left. -/
  settled : Scope.IsSettled table.scopes scope o
  /-- No scope is lost. -/
  grows : before.scopes <+: table.scopes

namespace Walked

variable {scope o o' : Nat} {before table table' : SymbolTable} {kind : ScopeKind} {span : Span}

theorem mono (h : c.Walked scope before table o) (ho : o ≤ o') :
    c.Walked scope before table o' :=
  { h with settled := h.settled.mono ho }

/-- A scope is opened. -/
theorem enter (h : c.Walked scope before table o) (ho : o ≤ span.start)
    (hcovers : Scope.Covers before.scopes scope span) :
    c.Walked table.scopes.length (table.openScope ⟨kind, span, some scope⟩).1
      (table.openScope ⟨kind, span, some scope⟩).1 span.start where
  bound :=
    have hext : table.scopes <+: table.scopes ++ [⟨kind, span, some scope⟩] :=
      List.prefix_append _ _
    { nested := h.bound.nested.concat h.settled ho (hcovers.mono h.grows)
      classes := fun i k hk => (h.bound.classes i k hk).mono hext
      functions := fun i g hg => (h.bound.functions i g hg).mono hext
      objects := fun v hv => (h.bound.objects v hv).mono hext
      enums := fun e he => (h.bound.enums e he).mono hext }
  settled := h.settled.enter ho
  grows := List.prefix_refl _

/-- **A scope that was opened is left again.** -/
theorem leave (h : c.Walked scope before table o)
    (hinner : c.Walked table.scopes.length (table.openScope ⟨kind, span, some scope⟩).1 table' o')
    (ho : o' ≤ span.stop) : c.Walked scope before table' span.stop where
  bound := hinner.bound
  settled := hinner.settled.leave
    (Scope.getElem?_of_isPrefix hinner.grows (Scope.getElem?_concat_eq_some.2 (.inr ⟨rfl, rfl⟩)))
    rfl ho
  grows := (h.grows.trans (List.prefix_append _ _)).trans hinner.grows

/-! #### Symbols are added -/

theorem addClass (h : c.Walked scope before table o) {k : ClassSymbol}
    (hk : c.BindsClass table.scopes table.classes.length k) :
    c.Walked scope before (table.addClass k) o where
  bound := { h.bound with classes := forall_getElem?_concat h.bound.classes hk }
  settled := h.settled
  grows := h.grows

theorem addFunction (h : c.Walked scope before table o) {g : FunctionSymbol}
    (hg : c.BindsFunction table.scopes table.functions.length g) :
    c.Walked scope before (table.addFunction g) o where
  bound := { h.bound with functions := forall_getElem?_concat h.bound.functions hg }
  settled := h.settled
  grows := h.grows

theorem addVariable (h : c.Walked scope before table o) {v : VariableSymbol}
    (hv : c.BindsVariable table.scopes v) : c.Walked scope before (table.addVariable v) o where
  bound :=
    { h.bound with
      objects := List.forall_mem_append.2 ⟨h.bound.objects, List.forall_mem_singleton.2 hv⟩ }
  settled := h.settled
  grows := h.grows

theorem addEnum (h : c.Walked scope before table o) {e : EnumSymbol}
    (he : c.DefinesIn table.scopes e.scope e.node) : c.Walked scope before (table.addEnum e) o where
  bound :=
    { h.bound with
      enums := List.forall_mem_append.2 ⟨h.bound.enums, List.forall_mem_singleton.2 he⟩ }
  settled := h.settled
  grows := h.grows

theorem addForward (h : c.Walked scope before table o) (w : ForwardClass) :
    c.Walked scope before (table.addForward w) o where
  bound := { h.bound with }
  settled := h.settled
  grows := h.grows

/-- What each node of a list keeps, all of them keep. -/
theorem foldl {f : SymbolTable → SyntaxTree → SymbolTable} {ts : List SyntaxTree}
    (h : c.Walked scope before table o)
    (hf : ∀ t ∈ ts, ∀ table, c.Walked scope before table o →
      c.Walked scope before (f table t) o) :
    c.Walked scope before (ts.foldl f table) o := by
  induction ts generalizing table with
  | nil => exact h
  | cons t ts ih =>
    obtain ⟨ht, hts⟩ := List.forall_mem_cons.1 hf
    exact ih (ht table h) hts

end Walked

/-- A tree whose nodes lie in order, are found under their numbers, and end with their bodies. -/
structure IsRead (c : SourceCode) : Prop where
  /-- Tokens and nodes lie in order. -/
  ordered : c.IsOrdered
  /-- A node is found under its number. -/
  numbered : ∀ t ∈ c.nodes, c.node? t.label.id = some t
  /-- In function definitions the body comes last. -/
  bodiesLast : c.tree.BodiesLast

section

variable {scope o : Nat} {before table : SymbolTable} {p : Place} (hc : c.IsRead)

include hc

/-! ### Names that are declared -/

theorem declaresIn_of_declaredName? {scopes : List Scope} (hd : d ∈ c.nodes)
    (hcovers : Scope.Covers scopes scope (c.spanOf d)) {name : List String × String × Span}
    (hname : c.declaredName? d = some name) : c.DeclaresIn scopes scope name :=
  ⟨⟨d, hd, hname⟩, hcovers.of_within (hc.ordered.declaredName hd hname)⟩

theorem walked_bindVariable (h : c.Walked p.scope before table o) (hd : d ∈ c.nodes)
    (hcovers : Scope.Covers before.scopes p.scope (c.spanOf d)) (specifiers : List SyntaxTree) :
    c.Walked p.scope before (c.bindVariable p table specifiers d) o := by
  rw [bindVariable]
  split
  next => exact h
  next qualifiers name span hname =>
    exact h.addVariable ⟨qualifiers, span, rfl,
      declaresIn_of_declaredName? hc hd (hcovers.mono h.grows) hname⟩

/-- A function that is declared without a body. -/
theorem walked_bindDeclarator (h : c.Walked p.scope before table o) (ht : t ∈ c.nodes)
    (hcovers : Scope.Covers before.scopes p.scope (c.spanOf t)) (hd : d ∈ t.declarators) :
    c.Walked p.scope before (c.bindDeclarator p t table d) o := by
  obtain ⟨hdt, hdeclarator⟩ := List.mem_filter.1 hd
  obtain ⟨hdnodes, hwithin⟩ := hc.ordered.child ht hdt
  have hdcovers := hcovers.of_within hwithin
  rw [bindDeclarator]
  split
  next => exact h
  next name hname =>
    split
    · refine h.addFunction ⟨nofun, ⟨d, hc.numbered d hdnodes, ?_⟩,
        declaresIn_of_declaredName? hc hdnodes (hdcovers.mono h.grows) hname⟩
      simp only [functionOf, Option.isSome_none, Bool.false_eq_true, false_iff]
      intro hkind
      rw [hkind] at hdeclarator
      cases hdeclarator
    · split
      · exact h
      · exact walked_bindVariable hc h hdnodes hdcovers _

theorem walked_bindDeclarators (h : c.Walked p.scope before table o) (ht : t ∈ c.nodes)
    (hcovers : Scope.Covers before.scopes p.scope (c.spanOf t)) {ds : List SyntaxTree}
    (hds : ds ⊆ t.declarators) :
    c.Walked p.scope before (ds.foldl (c.bindDeclarator p t) table) o :=
  h.foldl fun _ hd _ h => walked_bindDeclarator hc h ht hcovers (hds hd)

/-- The parameters of a function. -/
theorem walked_bindParameters (h : c.Walked p.scope before table o) {list : Option SyntaxTree}
    (hlist : ∀ l ∈ list, l ∈ c.nodes ∧ Scope.Covers before.scopes p.scope (c.spanOf l)) :
    c.Walked p.scope before (c.bindParameters p table list) o := by
  cases list with
  | none => exact h
  | some l =>
    obtain ⟨hl, hcovers⟩ := hlist l rfl
    refine h.foldl fun t ht table h => ?_
    split
    next d hd =>
      obtain ⟨htnodes, htwithin⟩ := hc.ordered.child hl ht
      have hdt := (List.mem_filter.1 (List.mem_of_head? hd)).1
      obtain ⟨hdnodes, hdwithin⟩ := hc.ordered.child htnodes hdt
      exact walked_bindVariable hc h hdnodes (hcovers.of_within (hdwithin.trans htwithin)) _
    next => exact h

end

/-! ### Nodes that declare nothing -/

/-- A label does not lead to another scope. -/
@[simp] theorem scope_placeAfter (p : Place) (t : SyntaxTree) :
    (c.placeAfter p t).scope = p.scope := by
  unfold placeAfter
  split <;> rfl

/-- Outside the specifiers of a declaration, a part of a head adds nothing. -/
theorem bind_of_isSilent {p : Place} (hp : p.declaration = none) (table : SymbolTable)
    (h : t.label.kind.isSilent = true) :
    c.bind p table t = table ∧ c.placeAfter p t = p := by
  obtain ⟨n, ts⟩ := t
  rw [Rose.label_node] at h
  rw [bind, placeAfter, Rose.label_node]
  cases hkind : n.kind <;> rw [hkind] at h <;> cases h
  all_goals simp [bindForward, hp]

/-- Outside the specifiers of a declaration, parts of a head add nothing. -/
theorem bindAll_append_of_isSilent {p : Place} (hp : p.declaration = none) (table : SymbolTable)
    {front : List SyntaxTree} (h : ∀ t ∈ front, t.label.kind.isSilent = true)
    (ts : List SyntaxTree) : c.bindAll p table (front ++ ts) = c.bindAll p table ts := by
  induction front with
  | nil => rfl
  | cons t front ih =>
    obtain ⟨ht, hfront⟩ := List.forall_mem_cons.1 h
    rw [List.cons_append, bindAll, (bind_of_isSilent hp table ht).1,
      (bind_of_isSilent hp table ht).2, ih hfront]

/-! ### The walk through a node -/

/-- The walk through a node that lies in the open scope, behind everything found before. -/
def IsWalked (c : SourceCode) (t : SyntaxTree) : Prop :=
  ∀ p before table o, c.Walked p.scope before table o → o ≤ c.startOf t →
    Scope.Covers before.scopes p.scope (c.spanOf t) →
    c.Walked p.scope before (c.bind p table t) (c.stopOf t)

section

variable {p : Place} {o hi : Nat} {before table : SymbolTable}

/-- The walk through nodes that follow each other. -/
theorem walked_bindAll {ts : List SyntaxTree} (hts : ∀ t ∈ ts, c.IsWalked t)
    (h : c.Walked p.scope before table o) (horder : Span.InOrder o (ts.map c.spanOf) hi)
    (hcovers : ∀ t ∈ ts, Scope.Covers before.scopes p.scope (c.spanOf t)) :
    c.Walked p.scope before (c.bindAll p table ts) hi := by
  induction ts generalizing p table o with
  | nil => exact h.mono horder
  | cons t ts ih =>
    obtain ⟨ht, hts⟩ := List.forall_mem_cons.1 hts
    obtain ⟨hcovers, hrest⟩ := List.forall_mem_cons.1 hcovers
    obtain ⟨hstart, -, horder⟩ := horder
    have hnext : c.Walked p.scope before (c.bind p table t) (c.stopOf t) :=
      ht p before table o h hstart hcovers
    rw [← scope_placeAfter (c := c) p t] at hnext hrest ⊢
    exact ih hts hnext horder hrest

/-- The walk through nodes that follow each other in a scope of their own. -/
theorem walked_scope {ts : List SyntaxTree} {kind : ScopeKind} (span : Span) {q : Place}
    {opened : SymbolTable} (hts : ∀ t ∈ ts, c.IsWalked t) (h : c.Walked p.scope before table o)
    (hinner : c.Walked q.scope (table.openScope ⟨kind, span, some p.scope⟩).1 opened span.start)
    (hscope : q.scope = table.scopes.length)
    (horder : Span.InOrder span.start (ts.map c.spanOf) span.stop) :
    c.Walked p.scope before (c.bindAll q opened ts) span.stop := by
  have hcovers : ∀ t ∈ ts, Scope.Covers (table.openScope ⟨kind, span, some p.scope⟩).1.scopes
      q.scope (c.spanOf t) := by
    intro t ht
    rw [hscope]
    exact ⟨_, Scope.getElem?_concat_eq_some.2 (.inr ⟨rfl, rfl⟩),
      horder.of_mem (List.mem_map_of_mem ht)⟩
  exact h.leave (hscope ▸ walked_bindAll hts hinner horder hcovers) (Nat.le_refl _)

variable (hc : c.IsRead) (ht : t ∈ c.nodes) (hts : ∀ u ∈ t.children, c.IsWalked u)
  (h : c.Walked p.scope before table o) (ho : o ≤ c.startOf t)
  (hcovers : Scope.Covers before.scopes p.scope (c.spanOf t))

include hc ht hts h ho hcovers

/-- A node whose children are walked through in the open scope. -/
theorem walked_children (q : Place) (hq : q.scope = p.scope) :
    c.Walked p.scope before (c.bindAll q table t.children) (c.stopOf t) := by
  rw [← hq] at h hcovers ⊢
  exact walked_bindAll hts (h.mono ho) (hc.ordered.children ht)
    fun u hu => hcovers.of_within (hc.ordered.child ht hu).2

/-- A block, or a statement with a condition. -/
theorem walked_block :
    c.Walked p.scope before (c.bindAll (p.inside table.scopes.length)
      (table.openScope ⟨.blockScope, c.spanOf t, some p.scope⟩).1 t.children) (c.stopOf t) :=
  walked_scope (c.spanOf t) hts h (h.enter ho hcovers) rfl (hc.ordered.children ht)

/-- A namespace. -/
theorem walked_namespaceBody {keyword lbrace rbrace : Nat} {name : Option Nat}
    (hkind : t.label.kind = .namespaceBody keyword name lbrace rbrace) (kind : ScopeKind)
    (path : List String) :
    let span : Span := ⟨c.tokenStart lbrace, c.tokenStop rbrace⟩
    c.Walked p.scope before (c.bindAll { p.inside table.scopes.length with path }
      (table.openScope ⟨kind, span, some p.scope⟩).1 t.children) (c.stopOf t) := by
  intro span
  obtain ⟨hbody, hwithin⟩ := hc.ordered.namespaceBody ht hkind
  have hinner : c.Walked table.scopes.length _ (table.openScope ⟨kind, span, some p.scope⟩).1 _ :=
    h.enter (Nat.le_trans ho hwithin.1) (hcovers.of_within hwithin)
  exact (walked_scope span hts h hinner rfl hbody).mono hwithin.2.2

/-- A class. -/
theorem walked_classSpecifier {key lbrace rbrace : Nat}
    (hkind : t.label.kind = .classSpecifier key lbrace rbrace) (q : Place)
    (hq : q.scope = table.scopes.length) (hdeclaration : q.declaration = none) :
    let opened := (table.openScope
      ⟨.classScope table.classes.length, ⟨c.tokenStart lbrace, c.tokenStop rbrace⟩, some p.scope⟩).1
    c.Walked p.scope before (c.bindAll q
      (opened.addClass (c.classOf p t key lbrace rbrace table.scopes.length)) t.children)
      (c.stopOf t) := by
  intro opened
  obtain ⟨names, members, hchildren, hnames, hbody, hwithin⟩ :=
    hc.ordered.classSpecifier ht hkind
  have hinner : c.Walked table.scopes.length opened opened (c.tokenStart lbrace) :=
    h.enter (Nat.le_trans ho hwithin.1) (hcovers.of_within hwithin)
  have hclass : c.BindsClass opened.scopes opened.classes.length
      (c.classOf p t key lbrace rbrace table.scopes.length) :=
    { body := ⟨_, Scope.getElem?_concat_eq_some.2 (.inr ⟨rfl, rfl⟩), rfl⟩
      node := ⟨t, hc.numbered t ht, by rw [hkind]; rfl,
        (hcovers.mono h.grows).mono (List.prefix_append _ _)⟩ }
  have hsilent : ∀ u ∈ names, u.label.kind.isSilent = true := fun u hu => by
    simp [NodeKind.isSilent, hnames u hu]
  have hadded : c.Walked q.scope opened
      (opened.addClass (c.classOf p t key lbrace rbrace table.scopes.length))
      (c.tokenStart lbrace) := by
    rw [hq]
    exact hinner.addClass hclass
  rw [hchildren] at hts ⊢
  rw [bindAll_append_of_isSilent hdeclaration _ hsilent]
  have hmembers : ∀ u ∈ members, c.IsWalked u := fun u hu => hts u (List.mem_append_right _ hu)
  exact (walked_scope _ hmembers h hadded hq hbody).mono hwithin.2.2

/-- A function definition. -/
theorem walked_functionDefinition (hkind : t.label.kind = .functionDefinition)
    (hd : t.declarator? = some d) {name : List String × String × Span}
    (hname : c.declaredName? d = some name) :
    let start := (d.parameterList?.map c.startOf).getD name.2.2.start
    let opened := (table.openScope
      ⟨.functionScope table.functions.length, ⟨start, c.stopOf t⟩, some p.scope⟩).1
    let inner := p.inside table.scopes.length
    c.Walked p.scope before (c.bindAll inner (c.bindParameters inner
      (opened.addFunction (c.functionOf p t d name (some table.scopes.length)))
        d.parameterList?) t.children) (c.stopOf t) := by
  intro start opened inner
  have hdt : d ∈ t.children := (List.mem_filter.1 (List.mem_of_head? hd)).1
  have hdkind : d.label.kind.isDeclarator = true := (List.mem_filter.1 (List.mem_of_head? hd)).2
  obtain ⟨hdnodes, hdwithin⟩ := hc.ordered.child ht hdt
  obtain ⟨hdstart, hdstop⟩ := hc.ordered.functionStart hdnodes hname
  have hspan : (⟨start, c.stopOf t⟩ : Span).Within (c.spanOf t) :=
    ⟨Nat.le_trans hdwithin.1 hdstart, Nat.le_trans hdstop hdwithin.2.2, Nat.le_refl _⟩
  have hscope : opened.scopes[table.scopes.length]? =
      some ⟨.functionScope table.functions.length, ⟨start, c.stopOf t⟩, some p.scope⟩ :=
    Scope.getElem?_concat_eq_some.2 (.inr ⟨rfl, rfl⟩)
  -- the function is added, and then its parameters are
  have hentered : c.Walked table.scopes.length opened opened start :=
    h.enter (Nat.le_trans ho hspan.1) (hcovers.of_within hspan)
  have hadded := hentered.addFunction (g := c.functionOf p t d name (some table.scopes.length))
    { body := fun b hb => Option.some.inj hb ▸ ⟨_, hscope, rfl⟩
      definition := ⟨t, hc.numbered t ht, by simp [functionOf, hkind]⟩
      name := declaresIn_of_declaredName? hc hdnodes
        (((hcovers.of_within hdwithin).mono h.grows).mono (List.prefix_append _ _)) hname }
  have hparameters : c.Walked inner.scope opened (c.bindParameters inner
      (opened.addFunction (c.functionOf p t d name (some table.scopes.length)))
        d.parameterList?) start := by
    refine walked_bindParameters (p := inner) hc hadded fun l hl => ?_
    obtain ⟨hlnodes, hlwithin⟩ := hc.ordered.child hdnodes (List.mem_of_find?_eq_some hl)
    have hstart : start = c.startOf l := by
      show (d.parameterList?.map c.startOf).getD _ = _
      rw [Option.mem_def.1 hl]
      rfl
    exact ⟨hlnodes, _, hscope, Nat.le_of_eq hstart, hlwithin.2.1,
      (hlwithin.trans hdwithin).2.2⟩
  -- all that is left to walk through is the last child
  obtain ⟨front, last, hchildren⟩ : ∃ front last, t.children = front ++ [last] :=
    ⟨_, _, (List.dropLast_append_getLast (List.ne_nil_of_mem hdt)).symm⟩
  have hfront : ∀ u ∈ front, u.label.kind.isSilent = true := by
    intro u hu
    have hhead : u.label.kind.isHead = true := by
      refine hc.bodiesLast t ht hkind u.label.toPiece ?_
      rw [hchildren, List.map_append, List.map_append, List.map_singleton, List.map_singleton,
        List.dropLast_concat]
      exact List.mem_map_of_mem (List.mem_map_of_mem hu)
    simp [NodeKind.isSilent, hhead]
  rw [hchildren] at hts ⊢
  rw [bindAll_append_of_isSilent rfl _ hfront]
  cases hlast : last.label.kind.isSilent with
  | true =>
    have hsilent : ∀ u ∈ [last], u.label.kind.isSilent = true := by simpa using hlast
    rw [← List.append_nil [last], bindAll_append_of_isSilent rfl _ hsilent]
    exact h.leave hparameters hspan.2.1
  | false =>
    have hdfront : d ∈ front := by
      rw [hchildren] at hdt
      rcases List.mem_append.1 hdt with hdt | hdt
      · exact hdt
      · obtain rfl := List.mem_singleton.1 hdt
        simp [NodeKind.isSilent, NodeKind.isHead, hdkind] at hlast
    have horder := hc.ordered.children ht
    rw [hchildren, List.map_append, List.map_singleton, Span.inOrder_append_singleton] at horder
    obtain ⟨hfrontorder, hlastorder⟩ := horder
    have hbefore := (hfrontorder.of_mem (List.mem_map_of_mem hdfront)).2.2
    exact walked_scope ⟨start, c.stopOf t⟩ (fun u hu => hts u (List.mem_append_right _ hu)) h
      hparameters rfl ⟨Nat.le_trans hdstop hbefore, hlastorder⟩

end

/-- **The walk through a node keeps the tree of scopes.** -/
theorem walked_bind (hc : c.IsRead) (ht : t ∈ c.nodes) : c.IsWalked t := by
  induction t using Rose.induct with
  | h n ts ih =>
    have hts : ∀ u ∈ ts, c.IsWalked u := fun u hu =>
      ih u hu (Rose.mem_subtrees_of_mem_children ht hu)
    intro p before table o h ho hcovers
    have hsame : c.Walked p.scope before table (c.stopOf (.node n ts)) :=
      h.mono (Nat.le_trans ho (hc.ordered.spanOf ht).1)
    rw [bind]
    split
    case h_1 | h_2 | h_3 => exact walked_children hc ht hts h ho hcovers p rfl
    case h_4 hkind => exact walked_namespaceBody hc ht hts h ho hcovers hkind _ _
    case h_5 hkind =>
      refine walked_bindDeclarators hc ?_ ht hcovers (List.Subset.refl _)
      exact walked_children hc ht hts h ho hcovers _ rfl
    case h_6 key hkind =>
      rw [bindForward]
      split
      next =>
        split
        · exact hsame.addForward _
        · exact hsame
      next => exact hsame
    case h_7 hkind =>
      split
      · exact hsame.addEnum ⟨_, hc.numbered _ ht, by rw [Rose.label_node, hkind]; rfl,
          hcovers.mono h.grows⟩
      · exact hsame
    case h_8 hkind =>
      split
      · exact walked_classSpecifier hc ht hts h ho hcovers hkind _ rfl rfl
      · exact hsame
    case h_9 hkind =>
      split
      next => exact hsame
      next d hd =>
        split
        next => exact hsame
        next name hname =>
          exact walked_functionDefinition hc ht hts h ho hcovers hkind hd hname
    case h_10 | h_11 | h_12 | h_13 | h_14 => exact walked_block hc ht hts h ho hcovers
    case h_15 hkind =>
      split
      next => exact hsame
      next d hd =>
        have hdt := (List.mem_filter.1 (List.mem_of_head? hd)).1
        obtain ⟨hdnodes, hwithin⟩ := hc.ordered.child ht hdt
        exact walked_bindVariable hc hsame hdnodes (hcovers.of_within hwithin) _
    case h_16 => exact hsame

/-! ### What is read from a text -/

/-- **In what is read from a text, nodes lie in order and bodies come last.** -/
theorem isRead_of_ofText_eq_ok {t : Text} (h : ofText t = .ok c) : c.IsRead := by
  have hordered := isOrdered_of_ofText_eq_ok h
  obtain ⟨L, p, -, htree, rfl⟩ := ofText_eq_ok_iff.1 h
  exact ⟨hordered, fun u hu => SyntaxTree.getElem?_subtrees_ofPieces hu,
    SyntaxTree.bodiesLast_ofPieces (PieceTree.bodiesLast_of_ofTokens_eq_ok htree)⟩

/-- The symbols of a tree lie where they belong. -/
theorem isBound_symbolTable (hc : c.IsRead) : c.IsBound c.symbolTable := by
  let table : SymbolTable := { scopes := [⟨.fileScope, ⟨0, c.text.length⟩, none⟩] }
  have hroot : c.tree ∈ c.nodes := Rose.self_mem_subtrees c.tree
  have hlies := hc.ordered.spanOf hroot
  have hstart : c.Walked 0 table table 0 :=
    { bound :=
        { nested := Scope.isNested_file _
          classes := nofun
          functions := nofun
          objects := nofun
          enums := nofun }
      settled := Scope.isSettled_file _ _
      grows := List.prefix_refl _ }
  exact (walked_bind hc hroot ⟨0, [], none, none⟩ table table 0 hstart (Nat.zero_le _)
    ⟨_, rfl, Nat.zero_le _, hlies⟩).bound

end SourceCode

namespace ParsedFile

/-- The symbols of a file lie where they belong. -/
theorem isBound (f : ParsedFile) : f.IsBound f.symbols :=
  f.symbols_eq ▸ SourceCode.isBound_symbolTable (SourceCode.isRead_of_ofText_eq_ok f.isReading)

/-- **The scopes of a file form a tree of nested spans.**  The first one is the whole file, and
every other one lies in an earlier one.  Scopes neither of which is around the other do not overlap.
The bodies of classes and functions are scopes of their own, and what is declared in a scope lies
in it. -/
theorem scopes_nest (f : ParsedFile) :
    let scopes := f.symbols.scopes
    scopes[0]? = some ⟨.fileScope, ⟨0, f.text.length⟩, none⟩ ∧
      (∀ j s, 0 < j → scopes[j]? = some s →
        ∃ i, s.parent = some i ∧ i < j ∧ Scope.Covers scopes i s.span) ∧
      (∀ i j s u, i ≠ j → scopes[i]? = some s → scopes[j]? = some u →
        ¬Scope.IsAround scopes i j → ¬Scope.IsAround scopes j i →
        s.span.stop ≤ u.span.start ∨ u.span.stop ≤ s.span.start) ∧
      (∀ i k, f.symbols.classes[i]? = some k → f.BindsClass scopes i k) ∧
      (∀ i g, f.symbols.functions[i]? = some g → f.BindsFunction scopes i g) ∧
      (∀ v ∈ f.symbols.objects, f.BindsVariable scopes v) ∧
      ∀ e ∈ f.symbols.enums, f.DefinesIn scopes e.scope e.node := by
  intro scopes
  have h := f.isBound
  refine ⟨h.nested.file, fun j s hj hs => ?_, fun i j s u hne hs hu hij hji => ?_, h.classes,
    h.functions, h.objects, h.enums⟩
  · obtain ⟨j, rfl⟩ := Nat.exists_eq_add_one.2 hj
    obtain ⟨i, hparent, hij, hcovers⟩ := h.nested.parent j s hs
    exact ⟨i, hparent, Nat.lt_succ_of_le hij, hcovers⟩
  · exact h.nested.lies_apart hne hs hu hij hji

end ParsedFile

end Mend
