import Mend.Code.Parser.File
import Mend.Proofs.ArenaRules

/-!
# The parsers that build

Every parser that builds follows the one that only reads.  What is proved of trees that are read is
thereby proved of the arena: each node that a parser adds is used once, by the node that is added
for the tree around it.

## Main definitions

* `BuildGrammar.Follows` — the parsers of a grammar that builds follow those of one that reads.

## Main results

* `BuildGrammar.Follows.next` — one round more of the parsers that contain each other.
* `Ast.ofTokens_follows` — **the arena of a file holds the tree of the file, and nothing else.**
-/

namespace Mend

/-- The parsers of a grammar that builds follow those of one that only reads. -/
structure BuildGrammar.Follows (b : BuildGrammar) (g : Grammar) : Prop where
  /-- On expressions. -/
  assignment : Build.Plants b.assignment g.assignment
  /-- On statements. -/
  statement : Build.Plants b.statement g.statement
  /-- On declarations that are no namespaces. -/
  simpleDeclaration : ∀ place, Build.Plants (b.simpleDeclaration place) (g.simpleDeclaration place)
  /-- On declarations. -/
  declaration : Build.Plants b.declaration g.declaration

namespace Build

open Ast PieceTree

namespace Plants

/-! ### Names -/

theorem unqualifiedName : Plants Build.unqualifiedName Parse.unqualifiedName := by
  intro us
  apply Follows.look
  intro s
  apply Follows.read_bind
  intro tilde
  cases tilde with
  | some tilde => exact .read_bind _ fun _ => add rfl rfl us
  | none => exact .read_bind _ fun _ => add rfl rfl us

theorem name : Plants Build.name Parse.name := by
  intro us
  apply Follows.look
  intro s
  apply Follows.read_bind
  intro colons
  apply Follows.read_bind
  intro qualifiers
  apply Follows.bind (unqualifiedName us)
  intro t
  apply Follows.firstOf_bind
  exact .ite (.pure rfl fun _ ha => ha) (.add rfl rfl rfl)

variable {b : BuildGrammar} {g : Grammar} (h : b.Follows g)

include h

/-! ### Expressions -/

omit h in
theorem leaf {form : Nat → NodeForm} {kind : Nat → NodeKind} (hkind : ∀ i, (form i).kind = kind i)
    (hchildren : ∀ i, (form i).children = []) : Plants (Build.leaf form) (Parse.leaf kind) :=
  fun us => .read_bind _ fun i => add (hkind i) (hchildren i) us

theorem primary : Plants (Build.primary b) (Parse.primary g) := by
  intro us
  apply Follows.look
  intro s
  apply Follows.ite
  · exact .read_bind _ fun _ => .read_bind _ fun _ => add rfl rfl us
  · apply Follows.read_bind
    intro k
    split
    case h_1 | h_2 | h_3 | h_4 | h_5 | h_6 => exact leaf (fun _ => rfl) (fun _ => rfl) us
    case h_7 =>
      apply Follows.read_bind
      intro lparen
      apply Follows.bind (h.assignment us)
      intro t
      exact .read_bind _ fun _ => .add rfl rfl rfl
    case h_8 | h_9 => exact name us
    case h_10 =>
      -- the parser that only reads may still be behind the cases that are excluded
      try simp only
      exact .fail _

theorem suffix : Grafts (Build.suffix b) (Parse.suffix g) := by
  intro us t
  apply Follows.firstOf_bind
  apply Follows.read_bind
  intro k
  split
  case h_1 =>
    apply Follows.read_bind
    intro lparen
    apply Follows.look
    intro s
    apply Follows.ite
    · exact .bind (PlantsAll.nil _) fun _ => .read_bind _ fun _ => .add rfl (by simp) rfl
    · apply Follows.bind (PlantsAll.commaSeparated h.assignment _)
      intro ts
      exact .read_bind _ fun _ => .add rfl (by simp) rfl
  case h_2 =>
    apply Follows.read_bind
    intro lbracket
    apply Follows.bind (h.assignment _)
    intro index
    exact .read_bind _ fun _ => .add rfl (by simp) rfl
  case h_3 | h_4 => exact .read_bind _ fun _ => .bind (name _) fun _ => .add rfl (by simp) rfl
  case h_5 =>
    try simp only
    exact .read_bind _ fun _ => .add rfl rfl rfl

theorem suffixed : Plants (Build.suffixed b) (Parse.suffixed g) := by
  intro us
  apply Follows.bind (primary h us)
  intro t
  exact (suffix h).repeatWhile us t

theorem unary : Plants (Build.unary b) (Parse.unary g) := by
  intro us
  apply Follows.read_bind
  intro operators
  apply Follows.bind (suffixed h us)
  intro t
  -- the operator next to the operand is added first
  induction operators with
  | nil => exact .pure rfl fun _ ha => ha
  | cons operator operators ih =>
    rw [List.foldrM_cons, List.foldrM_cons]
    exact .bind ih fun _ => .add rfl rfl rfl

theorem binaryLevel (n : Nat) : Plants (Build.binaryLevel b n) (Parse.binaryLevel g n) := by
  induction n with
  | zero => exact unary h
  | succ n ih =>
    intro us
    apply Follows.bind (ih us)
    intro t
    refine Grafts.repeatWhile (fun us t => ?_) us t
    apply Follows.firstOf_bind
    apply Follows.read_bind
    intro operator
    exact .bind (ih _) fun _ => .add rfl (by simp) rfl

theorem conditional : Plants (Build.conditional b) (Parse.conditional g) := by
  intro us
  apply Follows.bind (binaryLevel h 10 us)
  intro t
  apply Follows.read_bind
  intro question
  cases question with
  | none => exact .pure rfl fun _ ha => ha
  | some question =>
    apply Follows.firstOf_bind
    apply Follows.bind (h.assignment _)
    intro left
    apply Follows.read_bind
    intro colon
    exact .bind (h.assignment _) fun _ => .add rfl (by simp) rfl

theorem assignment : Plants (Build.assignment b) (Parse.assignment g) := by
  intro us
  apply Follows.bind (conditional h us)
  intro t
  apply Follows.read_bind
  intro k
  apply Follows.ite
  · apply Follows.firstOf_bind
    apply Follows.read_bind
    intro operator
    exact .bind (h.assignment _) fun _ => .add rfl (by simp) rfl
  · exact .pure rfl fun _ ha => ha

/-! ### Types -/

theorem block : Plants (Build.block b) (Parse.block g) := by
  intro us
  apply Follows.look
  intro s
  apply Follows.read_bind
  intro lbrace
  apply Follows.bind (PlantsAll.collectWhile h.statement us)
  intro ts
  exact .read_bind _ fun _ => .add rfl rfl rfl

theorem enumerator : Plants (Build.enumerator b) (Parse.enumerator g) := by
  intro us
  apply Follows.look
  intro s
  apply Follows.read_bind
  intro name
  apply Follows.read_bind
  intro equal
  cases equal with
  | some equal => exact .bind (conditional h us) fun _ => .add rfl rfl rfl
  | none => exact add rfl rfl us

theorem enumerators (n : Nat) : PlantsAll (Build.enumerators b n) (Parse.enumerators g n) := by
  induction n with
  | zero => exact fun us => .fail _
  | succ n ih =>
    intro us
    apply Follows.look
    intro s
    apply Follows.ite (PlantsAll.nil us)
    apply Follows.bind (enumerator h us)
    intro t
    apply Follows.read_bind
    intro comma
    apply Follows.ite
    · exact .bind (ih _) fun ts => .pure rfl fun a ha => by simpa using ha
    · exact .pure rfl fun _ ha => ha

omit h in
theorem typeName? : PlantsOption Build.typeName? Parse.typeName? := by
  intro us
  apply Follows.look
  intro s
  apply Follows.ite
  · exact .bind (name us) fun t => .pure rfl fun _ ha => ha
  · exact .pure rfl fun a ha => by simpa using ha

theorem enumSpecifier : Plants (Build.enumSpecifier b) (Parse.enumSpecifier g) := by
  intro us
  apply Follows.read_bind
  intro keyword
  apply Follows.bind (typeName? us)
  intro name
  apply Follows.read_bind
  intro lbrace
  cases lbrace with
  | some lbrace =>
    apply Follows.look
    intro s
    apply Follows.bind (enumerators h _ _)
    intro ts
    exact .read_bind _ fun _ =>
      .add rfl (by simp) (by rw [idsAfter_append, idsAfter_toList]; rfl)
  | none =>
    cases name with
    | some name => exact .add rfl rfl rfl
    | none => exact .fail _

omit h in
theorem accessLabel : Plants Build.accessLabel Parse.accessLabel :=
  fun us => .read_bind _ fun _ => .read_bind _ fun _ => .read_bind _ fun _ => add rfl rfl us

omit h in
theorem macroMember : Plants Build.macroMember Parse.macroMember :=
  fun us => .read_bind _ fun _ => .read_bind _ fun _ => add rfl rfl us

theorem member : Plants (Build.member b) (Parse.member g) := by
  intro us
  apply Follows.read_bind
  intro k
  split
  case h_1 | h_2 | h_3 | h_4 => exact accessLabel us
  case h_5 => exact .look fun _ => .ite (macroMember us) (h.simpleDeclaration _ us)
  case h_6 =>
    try simp only
    exact h.simpleDeclaration _ us

theorem classSpecifier : Plants (Build.classSpecifier b) (Parse.classSpecifier g) := by
  intro us
  apply Follows.read_bind
  intro key
  apply Follows.bind (typeName? us)
  intro name
  apply Follows.look
  intro s
  apply Follows.ite
  · apply Follows.read_bind
    intro colon
    -- with base classes or without, the body is the same
    refine .ite (.read_bind _ fun _ => ?_) ?_
    all_goals
      apply Follows.read_bind
      intro lbrace
      apply Follows.bind (PlantsAll.collectWhile (member h) _)
      intro ts
      exact .read_bind _ fun _ =>
        .add rfl (by simp) (by rw [idsAfter_append, idsAfter_toList]; rfl)
  · cases name with
    | some name => exact .add rfl rfl rfl
    | none => exact .fail _

/-! ### Specifiers -/

/-- A specifier is the next tree in the arena. -/
theorem specifier (us : List PieceTree) :
    Follows (Holds us) (Build.specifier b) (Parse.specifier g) (fun p => (idAfter us p.1, p.2))
      fun p => Holds (us ++ [p.1]) := by
  apply Follows.look
  intro s
  apply Follows.read_bind
  intro k
  split
  next => exact .bind (enumSpecifier h us) fun _ => .pure rfl fun _ ha => ha
  next k hk =>
    try simp only
    apply Follows.ite
    · exact .bind (classSpecifier h us) fun _ => .pure rfl fun _ ha => ha
    · apply Follows.ite
      · exact .read_bind _ fun _ => .bind (add rfl rfl us) fun _ => .pure rfl fun _ ha => ha
      · apply Follows.bind (name us)
        intro t
        exact .bind (.add rfl rfl rfl) fun _ => .pure rfl fun _ ha => ha
  next => exact .fail _

/-- While specifiers are read, the last one comes first in the list. -/
theorem specifiers : PlantsAll (Build.specifiers b) (Parse.specifiers g) := by
  intro us
  refine .bind (.imp (Follows.repeatWhile (fun p => ((idsAfter us p.1.reverse).reverse, p.2))
    (fun p => Holds (us ++ p.1.reverse)) (fun _ _ => rfl) (fun p => ?_) ([], false))
    (fun a ha => by simpa using ha) fun _ _ hq => hq) fun p => .pure (by simp) fun _ ha => ha
  apply Follows.bind (specifier h _)
  intro q
  exact .pure (by simp) fun a ha => by simpa using ha

/-! ### Declarators -/

omit h in
theorem declaratorName? : PlantsOption Build.declaratorName? Parse.declaratorName? := by
  intro us
  apply Follows.look
  intro s
  apply Follows.read_bind
  intro k
  split
  case h_1 | h_2 | h_3 =>
    apply Follows.bind (name us)
    intro t
    exact .bind (.add rfl rfl rfl) fun _ => .pure rfl fun _ ha => ha
  case h_4 =>
    try simp only
    exact .pure rfl fun a ha => by simpa using ha

/-- No initial value is no tree, and one is the next tree. -/
theorem initialValue? (us : List PieceTree) :
    Follows (Holds us) (Build.initialValue? b) (Parse.initialValue? g)
      (Option.map fun p => (p.1, idAfter us p.2)) fun o => Holds (us ++ (o.map (·.2)).toList) := by
  apply Follows.read_bind
  intro equal
  cases equal with
  | some equal => exact .bind (h.assignment us) fun _ => .pure rfl fun _ ha => ha
  | none => exact .pure rfl fun a ha => by simpa using ha

/-- The parts of a declarator are the children of its node, and the node has the parameter list
that is among them. -/
theorem closeDeclarator {us vs parts : List PieceTree} {first : Nat} {pointers : List Nat}
    {core function : Option NodeId} (hvs : vs = us ++ parts)
    (hparts : core.toList ++ function.toList = idsAfter us parts) :
    Follows (Holds vs) (Build.closeDeclarator b first pointers core function)
      (Parse.closeDeclarator g first pointers parts) (idAfter us)
      fun t a => Holds (us ++ [t]) a ∧ a.functionOf? (idAfter us t) = function := by
  subst hvs
  apply Follows.read_bind
  intro bounds
  apply Follows.bind (initialValue? h _)
  intro initial
  cases initial with
  | none => exact .addDeclarator rfl (by simp) (by simpa [NodeForm.children] using hparts)
  | some initial =>
    exact .addDeclarator rfl (by simp) (by simp [NodeForm.children, ← hparts])

theorem parameterDeclarator :
    Plants (Build.parameterDeclarator b) (Parse.parameterDeclarator g) := by
  intro us
  apply Follows.look
  intro s
  apply Follows.read_bind
  intro pointers
  apply Follows.bind (declaratorName? us)
  intro core
  exact .imp (closeDeclarator h rfl (by simp [idsAfter_toList])) (fun _ ha => ha)
    fun _ _ hq => hq.1

theorem parameter : Plants (Build.parameter b) (Parse.parameter g) := by
  intro us
  apply Follows.look
  intro s
  apply Follows.bind (specifiers h us)
  intro found
  rw [isEmpty_idsAfter]
  refine .ite (.read_bind _ fun _ => ?_) ?_
  all_goals
    apply Follows.look
    intro s
    apply Follows.ite (.add rfl rfl (by simp [NodeForm.children]))
    apply Follows.bind (parameterDeclarator h _)
    intro t
    exact .add rfl (by simp) (by simp [NodeForm.children])

theorem parameterList : Plants (Build.parameterList b) (Parse.parameterList g) := by
  intro us
  apply Follows.read_bind
  intro lparen
  apply Follows.look
  intro s
  apply Follows.ite
  · apply Follows.bind (PlantsAll.nil us)
    intro ts
    exact .read_bind _ fun _ => .read_bind _ fun _ => .add rfl rfl rfl
  · apply Follows.bind (PlantsAll.commaSeparated (parameter h) us)
    intro ts
    exact .read_bind _ fun _ => .read_bind _ fun _ => .add rfl rfl rfl

/-- A declarator is the next tree in the arena, and its node tells whether it has a parameter
list. -/
theorem declarator (us : List PieceTree) :
    Follows (Holds us) (Build.declarator b) (Parse.declarator g) (fun p => idAfter us p.1)
      fun p a => Holds (us ++ [p.1]) a ∧ (a.functionOf? (idAfter us p.1)).isSome = p.2 := by
  apply Follows.look
  intro s
  apply Follows.read_bind
  intro pointers
  apply Follows.bind (declaratorName? us)
  intro core
  cases core with
  | none => exact .fail _
  | some core =>
    apply Follows.look
    intro s
    apply Follows.ite
    · apply Follows.bind (parameterList h _)
      intro parameters
      exact .map (closeDeclarator h (by simp) rfl) (fun _ => rfl) fun t a ha =>
        ⟨ha.1, congrArg Option.isSome ha.2⟩
    · exact .map (closeDeclarator h rfl rfl) (fun _ => rfl) fun t a ha =>
        ⟨ha.1, congrArg Option.isSome ha.2⟩

/-! ### Declarations -/

omit h in
/-- The specifiers and declarators of a declaration are the children of its node. -/
theorem closeDeclaration {us vs parts : List PieceTree} {first : Nat} {found declared : List NodeId}
    (hvs : vs = us ++ parts) (hparts : found ++ declared = idsAfter us parts) :
    Follows (Holds vs) (Build.closeDeclaration first found declared)
      (Parse.closeDeclaration first parts) (idAfter us) fun t => Holds (us ++ [t]) :=
  .read_bind _ fun _ => .add rfl hvs hparts

theorem simpleDeclaration (place : DeclarationPlace) :
    Plants (Build.simpleDeclaration b place) (Parse.simpleDeclaration g place) := by
  intro us
  apply Follows.look
  intro s
  apply Follows.bind (specifiers h us)
  intro found
  apply Follows.look
  intro s
  apply Follows.ite (closeDeclaration rfl (List.append_nil _))
  apply Follows.bind (declarator h _)
  intro p
  apply Follows.functionOf?_bind
  intro function hfunction
  rw [hfunction]
  apply Follows.look
  intro s
  apply Follows.ite
  · apply Follows.bind (block h _)
    intro body
    exact .add rfl (by simp) (by simp [NodeForm.children])
  · have hothers : Plants
        (do
          let _ ← Parse.advance
          Build.declarator b)
        (do
          let _ ← Parse.advance
          return (← Parse.declarator g).1) := by
      intro us
      apply Follows.read_bind
      intro comma
      exact .map (declarator h us) (fun _ => rfl) fun _ _ hq => hq.1
    apply Follows.bind (PlantsAll.collectWhile hothers _)
    intro others
    exact closeDeclaration (by simp) (by simp)

theorem namespaceBody : Plants (Build.namespaceBody b) (Parse.namespaceBody g) := by
  intro us
  apply Follows.read_bind
  intro keyword
  apply Follows.read_bind
  intro name
  apply Follows.read_bind
  intro lbrace
  apply Follows.bind (PlantsAll.collectWhile h.declaration us)
  intro ts
  exact .read_bind _ fun _ => .add rfl rfl rfl

theorem declaration : Plants (Build.declaration b) (Parse.declaration g) := by
  intro us
  apply Follows.look
  intro s
  exact .ite (namespaceBody h us) (simpleDeclaration h _ us)

/-! ### Statements -/

theorem condition : Plants (Build.condition b) (Parse.condition g) := by
  intro us
  apply Follows.look
  intro s
  refine .ite ?_ (assignment h us)
  apply Follows.look
  intro s
  apply Follows.bind (specifiers h us)
  intro found
  apply Follows.bind (declarator h _)
  intro p
  exact .imp (.add rfl (by simp) (by simp [NodeForm.children])) (fun _ ha => ha.1) fun _ _ hq => hq

/-- A condition between parentheses is the next tree in the arena. -/
theorem controlCondition (us : List PieceTree) :
    Follows (Holds us) (Build.controlCondition b) (Parse.controlCondition g)
      (fun p => (p.1, idAfter us p.2.1, p.2.2)) fun p => Holds (us ++ [p.2.1]) := by
  apply Follows.read_bind
  intro lparen
  apply Follows.bind (condition h us)
  intro t
  exact .read_bind _ fun _ => .pure rfl fun _ ha => ha

theorem expressionBefore? (k : TokenKind) :
    PlantsOption (Build.expressionBefore? b k) (Parse.expressionBefore? g k) := by
  intro us
  apply Follows.look
  intro s
  apply Follows.ite
  · exact .pure rfl fun a ha => by simpa using ha
  · exact .bind (assignment h us) fun _ => .pure rfl fun _ ha => ha

theorem expressionStatement :
    Plants (Build.expressionStatement b) (Parse.expressionStatement g) := by
  intro us
  apply Follows.look
  intro s
  apply Follows.bind (expressionBefore? h _ us)
  intro e
  exact .read_bind _ fun _ => .add rfl rfl (idsAfter_toList _).symm

theorem declarationStatement :
    Plants (Build.declarationStatement b) (Parse.declarationStatement g) := by
  intro us
  apply Follows.look
  intro s
  exact .bind (simpleDeclaration h _ us) fun _ => .add rfl rfl rfl

theorem ifStatement : Plants (Build.ifStatement b) (Parse.ifStatement g) := by
  intro us
  apply Follows.read_bind
  intro keyword
  apply Follows.bind (controlCondition h us)
  intro c
  apply Follows.bind (h.statement _)
  intro thenBranch
  apply Follows.read_bind
  intro elseToken
  cases elseToken with
  | none => exact .add rfl (by simp) rfl
  | some elseToken =>
    exact .bind (h.statement _) fun _ => .add rfl (by simp) (by simp [NodeForm.children])

theorem whileStatement : Plants (Build.whileStatement b) (Parse.whileStatement g) := by
  intro us
  apply Follows.read_bind
  intro keyword
  apply Follows.bind (controlCondition h us)
  intro c
  exact .bind (h.statement _) fun _ => .add rfl (by simp) rfl

theorem doStatement : Plants (Build.doStatement b) (Parse.doStatement g) := by
  intro us
  apply Follows.read_bind
  intro keyword
  apply Follows.bind (h.statement us)
  intro body
  apply Follows.read_bind
  intro whileToken
  apply Follows.read_bind
  intro lparen
  apply Follows.bind (assignment h _)
  intro e
  exact .read_bind _ fun _ => .read_bind _ fun _ => .add rfl (by simp) rfl

theorem forStatement : Plants (Build.forStatement b) (Parse.forStatement g) := by
  intro us
  apply Follows.read_bind
  intro keyword
  apply Follows.read_bind
  intro lparen
  apply Follows.look
  intro s
  refine .ite (.bind (declarationStatement h us) fun initial => ?_)
    (.bind (expressionStatement h us) fun initial => ?_)
  -- the initial statement is a tree either way, and there is a condition or none
  all_goals
    apply Follows.look
    intro s
    refine .ite (.pure_bind ?_) (.bind (condition h _) fun c => .pure_bind ?_)
    all_goals
      apply Follows.read_bind
      intro semicolon
      apply Follows.bind (expressionBefore? h _ _)
      intro e
      apply Follows.read_bind
      intro rparen
      apply Follows.bind (h.statement _)
      intro body
      exact .add rfl (by simp) (by simp [NodeForm.children, idsAfter_toList])

theorem switchStatement : Plants (Build.switchStatement b) (Parse.switchStatement g) := by
  intro us
  apply Follows.read_bind
  intro keyword
  apply Follows.bind (controlCondition h us)
  intro c
  exact .bind (h.statement _) fun _ => .add rfl (by simp) rfl

theorem caseLabel : Plants (Build.caseLabel b) (Parse.caseLabel g) := by
  intro us
  apply Follows.read_bind
  intro keyword
  apply Follows.bind (conditional h us)
  intro t
  exact .read_bind _ fun _ => .add rfl rfl rfl

theorem returnStatement : Plants (Build.returnStatement b) (Parse.returnStatement g) := by
  intro us
  apply Follows.read_bind
  intro keyword
  apply Follows.bind (expressionBefore? h _ us)
  intro e
  exact .read_bind _ fun _ => .add rfl rfl (idsAfter_toList _).symm

omit h in
/-- A keyword and the token behind it are a statement. -/
theorem keywordStatement {k : TokenKind} {form : Nat → Nat → NodeForm} {kind : Nat → Nat → NodeKind}
    (hkind : ∀ i j, (form i j).kind = kind i j) (hchildren : ∀ i j, (form i j).children = []) :
    Plants
      (do
        let keyword ← Parse.advance
        let last ← Parse.expect k
        Build.add (form keyword last) keyword)
      (do
        let keyword ← Parse.advance
        let last ← Parse.expect k
        Parse.close (kind keyword last) keyword []) :=
  fun us => .read_bind _ fun i => .read_bind _ fun j => add (hkind i j) (hchildren i j) us

theorem statement : Plants (Build.statement b) (Parse.statement g) := by
  intro us
  apply Follows.read_bind
  intro k
  split
  case h_1 => exact .fail _
  case h_2 => exact block h us
  case h_3 => exact ifStatement h us
  case h_4 => exact whileStatement h us
  case h_5 => exact doStatement h us
  case h_6 => exact forStatement h us
  case h_7 => exact switchStatement h us
  case h_8 => exact caseLabel h us
  case h_9 | h_10 | h_11 => exact keywordStatement (fun _ _ => rfl) (fun _ _ => rfl) us
  case h_12 => exact returnStatement h us
  case h_13 =>
    try simp only
    exact .look fun _ => .ite (declarationStatement h us) (expressionStatement h us)

/-! ### Files -/

theorem file : Plants (Build.file b) (Parse.file g) := by
  intro us
  apply Follows.bind (PlantsAll.collectWhile h.declaration us)
  intro ts
  exact .add rfl rfl rfl

end Plants

end Build

namespace BuildGrammar

/-- One round more of the parsers that contain each other. -/
theorem Follows.next {b : BuildGrammar} {g : Grammar} (h : b.Follows g) :
    b.next.Follows g.next where
  assignment := Build.Plants.assignment h
  statement := Build.Plants.statement h
  simpleDeclaration := Build.Plants.simpleDeclaration h
  declaration := Build.Plants.declaration h

theorem follows_forTokens (n : Nat) : (forTokens n).Follows (Grammar.forTokens n) := by
  induction n with
  | zero => exact ⟨fun _ => .fail _, fun _ => .fail _, fun _ _ => .fail _, fun _ => .fail _⟩
  | succ n ih => exact ih.next

end BuildGrammar

namespace Ast

open PieceTree

/-- **The arena of a file holds the tree of the file, and nothing else.**  When the file cannot be
read, the error is the same. -/
theorem ofTokens_follows (tokens : List Token) (length : Nat) :
    match PieceTree.ofTokens tokens length with
    | .ok t => ∃ a, Ast.ofTokens tokens length = .ok a ∧ a.Holds [t] ∧ a.root = some (idAfter [] t)
    | .error e => Ast.ofTokens tokens length = .error e := by
  have hgrammar := BuildGrammar.follows_forTokens (tokens.length + 1)
  have hfile := Build.Plants.file hgrammar [] empty ⟨tokens, 0, length⟩ holds_empty
  rw [PieceTree.ofTokens, Ast.ofTokens]
  cases hr : (Parse.file (Grammar.forTokens (tokens.length + 1))).run ⟨tokens, 0, length⟩ with
  | error e =>
    rw [hr] at hfile
    simp only [hfile]
  | ok r =>
    rw [hr] at hfile
    obtain ⟨a, hrun, hholds⟩ := hfile
    simp only [hrun]
    exact ⟨_, rfl, hholds, rfl⟩

end Ast

end Mend
