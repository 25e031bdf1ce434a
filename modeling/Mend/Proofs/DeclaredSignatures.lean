import Mend.Proofs.ReachedNodes
import Mend.Proofs.SpelledDeclarations

/-!
# Functions have signatures that can be read

Every function of a text is declared by a node, so what declarations spell is known of every
function: its return type, its name and its parameters are spelled by a signature, when the types
are keywords and names, none of them is named like a destructor, and every parameter has a type.

## Main definitions

* `SourceCode.Declares` — a declaration and its declarator declare a function.
* `SourceCode.SpelledPlainly` — the types of a function are spelled with keywords and names.

## Main results

* `SourceCode.exists_declares` — **every function is declared by a node.**
* `SourceCode.exists_describes` — **what such a declaration spells is a signature that can be
  read.**
-/

namespace Mend

namespace SourceCode

variable {c : SourceCode} {text : Text} {t d : SyntaxTree} {g : FunctionSymbol}

/-- What a declaration of a text spells can be read. -/
theorem spellsDeclaration (hc : ofText text = .ok c) (ht : t ∈ c.nodes)
    (hkind : t.label.kind.isDeclaration = true) : c.SpellsDeclaration t := by
  obtain ⟨n, place, s, s', hs, hyields⟩ := isReadFrom hc ht hkind
  exact Parse.simpleDeclaration_spells hc (Grammar.declaresFrom_forTokens c.stream n) hs place
    _ _ hyields t rfl

/-- A node declares a function with one of its declarators. -/
structure Declares (c : SourceCode) (t d : SyntaxTree) (g : FunctionSymbol) : Prop where
  /-- The node is one of the tree. -/
  mem_nodes : t ∈ c.nodes
  /-- It is a declaration or a definition. -/
  isDeclaration : t.label.kind.isDeclaration = true
  /-- The declarator is one of its own. -/
  mem_declarators : d ∈ t.declarators
  /-- The function is that of the declarator. -/
  eq_functionOf : ∃ p name body, c.declaredName? d = some name ∧ g = c.functionOf p t d name body

/-- **Every function is declared by a node.** -/
theorem exists_declares (hg : g ∈ c.symbolTable.functions) : ∃ t d, c.Declares t d g := by
  obtain ⟨p, t, d, ht, hd⟩ := c.collected_symbolTable.functions g hg
  obtain ⟨name, body, hname, rfl, hkind⟩ := hd.eq_functionOf
  refine ⟨t, d, ht.mem_nodes, ?_, hd.mem_declarators, p, name, body, hname, rfl⟩
  rcases hkind with ⟨⟨_, hkind⟩, -⟩ | ⟨hkind, -⟩
  all_goals rw [hkind]; rfl

/-- The specifiers of a declaration, and those of the parameters of a declarator, are keywords and
names. -/
def SpecifiersPlain (t d : SyntaxTree) : Prop :=
  (∀ u ∈ t.specifiers, u.label.kind.isPlainSpecifier = true) ∧
    ∀ l ∈ d.parameterList?, ∀ p ∈ l.children, ∀ u ∈ SyntaxTree.specifiers p,
      u.label.kind.isPlainSpecifier = true

instance (t d : SyntaxTree) : Decidable (SpecifiersPlain t d) :=
  inferInstanceAs (Decidable (_ ∧ _))

/-- The types of a function are spelled with keywords and names. -/
def SpelledPlainly (c : SourceCode) (g : FunctionSymbol) : Prop :=
  ∀ t d, c.Declares t d g → SpecifiersPlain t d

/-- Where all declarations are spelled with keywords and names, all functions are. -/
theorem spelledPlainly_of_nodes (h : ∀ t ∈ c.nodes, ∀ d ∈ t.declarators, SpecifiersPlain t d) :
    c.SpelledPlainly g :=
  fun t d hd => h t hd.mem_nodes d hd.mem_declarators

theorem exists_map_eq {α β : Type} {P : α → Prop} {f : α → β} {ys : List β}
    (h : ∀ y ∈ ys, ∃ x, P x ∧ f x = y) :
    ∃ xs : List α, (∀ x ∈ xs, P x) ∧ xs.map f = ys := by
  induction ys with
  | nil => exact ⟨[], nofun, rfl⟩
  | cons y ys ih =>
    obtain ⟨⟨x, hx, rfl⟩, hys⟩ := List.forall_mem_cons.1 h
    obtain ⟨xs, hxs, rfl⟩ := ih hys
    exact ⟨x :: xs, List.forall_mem_cons.2 ⟨hx, hxs⟩, rfl⟩

/-- Parameters are those of a list. -/
theorem mem_parametersOf {o : Option SyntaxTree} {q : Parameter} (h : q ∈ c.parametersOf o) :
    ∃ l ∈ o, ∃ u ∈ l.children, c.parameterOf u = q := by
  cases o with
  | none => cases h
  | some l =>
    simp only [parametersOf] at h
    split at h
    · cases h
    · exact ⟨l, rfl, List.mem_map.1 h⟩

/-- A single `void` stands for no parameters. -/
theorem parametersOf_ne_void (o : Option SyntaxTree) :
    c.parametersOf o ≠ [⟨.named "void", none⟩] := by
  cases o with
  | none => nofun
  | some l =>
    simp only [parametersOf]
    split
    · nofun
    · assumption

/-- **What a declaration spells is a signature that can be read**, when its types are spelled with
keywords and names but with no names of destructors, and every parameter has a type. -/
theorem exists_describes (hc : ofText text = .ok c) (hg : g ∈ c.symbolTable.functions)
    (hplain : c.SpelledPlainly g) (hreturn : '~' ∉ g.returnType.base.toList)
    (hparameters : ∀ p ∈ g.parameters, p.type.base ≠ "" ∧ '~' ∉ p.type.base.toList) :
    ∃ S : SignatureSpelling, S.IsSound ∧ S.Describes g := by
  obtain ⟨t, d, hd⟩ := exists_declares hg
  obtain ⟨hspecifiers, hlist⟩ := hplain t d hd
  obtain ⟨p, name, body, hname, rfl⟩ := hd.eq_functionOf
  have hspells := spellsDeclaration hc hd.mem_nodes hd.isDeclaration
  obtain ⟨ws, hws⟩ := hspells.specifiers hspecifiers
  obtain ⟨pointers, qs, N, span, hsigns, hN, htype, hdeclared, hlists⟩ :=
    hspells.declarators d hd.mem_declarators
  obtain rfl : (qs, N.text, span) = name := Option.some.inj (hdeclared.symm.trans hname)
  have hreturns : (c.functionOf p t d (qs, N.text, span) body).returnType =
      ⟨(c.baseType t.specifiers).base, c.signsOf pointers⟩ := htype t.specifiers
  rw [hreturns] at hreturn
  obtain ⟨hsound, heq⟩ := hws.isSound hsigns hreturn
  have hread : ∀ q ∈ c.parametersOf d.parameterList?, ∃ P : ParameterSpelling,
      P.IsSound ∧ P.parameter = q := by
    intro q hq
    obtain ⟨hbase, htilde⟩ := hparameters q hq
    obtain ⟨l, hl, u, hu, rfl⟩ := mem_parametersOf hq
    obtain ⟨P, hP, hparameter⟩ := hlists l hl u hu (hlist l hl u hu) hbase htilde
    exact ⟨P, hP, hparameter.symm⟩
  obtain ⟨Ps, hPs, hmap⟩ := exists_map_eq hread
  refine ⟨⟨⟨ws, c.signsOf pointers⟩, N, Ps, _⟩, ⟨hsound, hN, hPs, ?_⟩,
    ⟨rfl, hreturns.trans heq.symm, hmap.symm, rfl⟩⟩
  rw [hmap]
  exact parametersOf_ne_void _

end SourceCode

end Mend
