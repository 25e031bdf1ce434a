import Mend.Proofs.SourcePositions
import Mend.Proofs.WrittenTrees

/-!
# Where declarations are read

Declarations stand in files, namespaces, classes, blocks and `for` statements, and one parser reads
all of them.  So every declaration in the tree of a file is what that parser yields on the tokens
that are left at some place of the file, and what holds of the parser's results holds of it.

Expressions hold no declarations, since the grammar of expressions has none.  All the other parsers
hand on the declarations of the trees that they put together.

## Main definitions

* `NodeKind.isDeclaration` — a declaration that is no namespace.
* `PieceTree.IsReadFrom` — a tree that the parser of declarations yields.
* `PieceTree.DeclaresFrom` — all declarations in a tree are read from the given tokens.
* `Parse.GivesFrom` — what holds of every result of a parser on what is left of given tokens.

## Main results

* `Phrase.Derives.declaresNothing` — there is no declaration in an expression.
* `Parse.GivesFrom.simpleDeclaration` — the parser of declarations hands on what it reads.
* `PieceTree.isReadFrom_of_ofTokens_eq_ok` — **the declarations of a file are read where they
  stand.**
* `SourceCode.ends_with_semicolon` — a declaration without a body ends with a semicolon.
-/

namespace Mend

open TokenStream

/-- A declaration that is no namespace. -/
def NodeKind.isDeclaration : NodeKind → Bool
  | .simpleDeclaration _ | .functionDefinition => true
  | _ => false

namespace PieceTree

/-- There is no declaration in a tree. -/
def DeclaresNothing (t : PieceTree) : Prop := t.All fun p _ => p.kind.isDeclaration = false

/-- The parser of declarations yields a tree where some of the given tokens are left. -/
def IsReadFrom (s₀ : TokenStream) (t : PieceTree) : Prop :=
  ∃ n place s s', s.IsTail s₀ ∧
    (Parse.simpleDeclaration (Grammar.forTokens n) place).Yields s t s'

/-- All declarations in a tree are read from the given tokens. -/
def DeclaresFrom (s₀ : TokenStream) (t : PieceTree) : Prop :=
  ∀ u ∈ t.subtrees, u.label.kind.isDeclaration = true → IsReadFrom s₀ u

variable {s₀ : TokenStream} {t u v : PieceTree}

theorem DeclaresNothing.declaresFrom (h : t.DeclaresNothing) : t.DeclaresFrom s₀ := by
  intro u hu hkind
  have hnone : u.label.kind.isDeclaration = false := h u hu
  rw [hnone] at hkind
  cases hkind

theorem declaresNothing_spanning {kind : NodeKind} {i : Nat} {w : List TokenKind}
    {cs : List PieceTree} (hkind : kind.isDeclaration = false)
    (hcs : ∀ c ∈ cs, c.DeclaresNothing) : (spanning kind i w cs).DeclaresNothing :=
  Rose.all_node.2 ⟨hkind, hcs⟩

/-- The declarations in a node are those in its children, and the node itself if it is one. -/
theorem declaresFrom_node {p : Piece} {cs : List PieceTree} (hcs : ∀ c ∈ cs, c.DeclaresFrom s₀)
    (hp : p.kind.isDeclaration = true → IsReadFrom s₀ (.node p cs)) :
    DeclaresFrom s₀ (.node p cs) := by
  intro u hu hkind
  rcases Rose.mem_subtrees_node.1 hu with ⟨c, hc, hu⟩ | rfl
  · exact hcs c hc u hu hkind
  · exact hp hkind

theorem forall_declaresFrom_one (ht : t.DeclaresFrom s₀) : ∀ c ∈ [t], c.DeclaresFrom s₀ := by
  simpa using ht

theorem forall_declaresFrom_two (ht : t.DeclaresFrom s₀) (hu : u.DeclaresFrom s₀) :
    ∀ c ∈ [t, u], c.DeclaresFrom s₀ := by
  simp [ht, hu]

end PieceTree

/-! ### Expressions -/

namespace Phrase

open PieceTree

variable {c : Category} {i : Nat} {w : List TokenKind} {e : PieceTree} {es : List PieceTree}

theorem Name.declaresNothing (h : Name i w e) : e.DeclaresNothing := by
  have hunqualified : ∀ {i w e}, UnqualifiedName i w e → e.DeclaresNothing := by
    intro i w e h
    cases h <;> exact declaresNothing_spanning rfl (by simp)
  cases h with
  | bare name => exact hunqualified name
  | qualified _ _ name | global _ name =>
    exact declaresNothing_spanning rfl (by simpa using hunqualified name)

/-- **There is no declaration in an expression.** -/
theorem Derives.declaresNothing (h : Derives c i w es) : ∀ e ∈ es, e.DeclaresNothing := by
  induction h with
  | value _ ih | operand _ ih | tighter _ _ ih | bare _ ih | alone _ ih => exact ih
  | conditional _ _ _ ihc ihl ihr =>
    simp only [List.forall_mem_singleton] at ihc ihl ihr ⊢
    exact declaresNothing_spanning rfl (by simp [ihc, ihl, ihr])
  | assign _ _ _ ihl ihr | join _ _ _ ihl ihr | item _ _ ihl ihr =>
    simp only [List.forall_mem_singleton] at ihl ihr ⊢
    exact declaresNothing_spanning rfl (by simp [ihl, ihr])
  | unary _ _ ih | step _ _ ih | nested _ ih =>
    simp only [List.forall_mem_singleton] at ih ⊢
    exact declaresNothing_spanning rfl (by simp [ih])
  | call _ _ ih ihs =>
    simp only [List.forall_mem_singleton] at ih ⊢
    exact declaresNothing_spanning rfl (List.forall_mem_cons.2 ⟨ih, ihs⟩)
  | member _ _ hname ih =>
    simp only [List.forall_mem_singleton] at ih ⊢
    exact declaresNothing_spanning rfl (by simp [ih, hname.declaresNothing])
  | number | string | signedString | bool | this =>
    simpa using declaresNothing_spanning rfl (by simp)
  | name _ hname => simpa using hname.declaresNothing
  | noArguments | noMore => simp
  | someArguments _ _ ih ihs | more _ _ ih ihs =>
    exact List.forall_mem_cons.2 ⟨ih _ (List.mem_singleton_self _), ihs⟩

end Phrase

/-! ### Rules -/

/-- Every result of a parser on what is left of the given tokens has a property, and the tokens that
it leaves are again some of them. -/
def Parse.GivesFrom {α : Type} (s₀ : TokenStream) (p : Parse α) (Q : α → Prop) : Prop :=
  ∀ s : TokenStream, s.IsTail s₀ → p.Ensures s fun a s' => s'.IsTail s₀ ∧ Q a

/-- The parsers of a grammar hand on the declarations that they read. -/
structure Grammar.DeclaresFrom (s₀ : TokenStream) (g : Grammar) : Prop where
  /-- It is the grammar for some number of tokens. -/
  rounds : ∃ n, g = Grammar.forTokens n
  /-- A statement. -/
  statement : g.statement.GivesFrom s₀ (PieceTree.DeclaresFrom s₀)
  /-- A declaration that is no namespace. -/
  simpleDeclaration : ∀ place,
    (g.simpleDeclaration place).GivesFrom s₀ (PieceTree.DeclaresFrom s₀)
  /-- A declaration. -/
  declaration : g.declaration.GivesFrom s₀ (PieceTree.DeclaresFrom s₀)

namespace Parse.GivesFrom

variable {α β σ : Type} {s₀ : TokenStream} {p q : Parse α} {Q R : α → Prop} {P : β → Prop}

protected theorem imp (h : p.GivesFrom s₀ Q) (hQ : ∀ a, Q a → R a) : p.GivesFrom s₀ R :=
  fun s hs => (h s hs).imp fun a _ ha => ⟨ha.1, hQ a ha.2⟩

protected theorem bind {f : α → Parse β} (h : p.GivesFrom s₀ Q)
    (hf : ∀ a, Q a → (f a).GivesFrom s₀ P) : (p >>= f).GivesFrom s₀ P :=
  fun s hs => (h s hs).bind fun a s' ha => hf a ha.2 s' ha.1

/-- A parser whose result does not matter, and then another one. -/
protected theorem next {f : α → Parse β} (h : p.GivesFrom s₀ fun _ => True)
    (hf : ∀ a, (f a).GivesFrom s₀ P) : (p >>= f).GivesFrom s₀ P :=
  .bind h fun a _ => hf a

/-- Looking at the state. -/
protected theorem look {f : TokenStream → Parse α} (h : ∀ s, (f s).GivesFrom s₀ Q) :
    (get >>= f).GivesFrom s₀ Q :=
  fun s hs => h s s hs

theorem peek_bind {f : Option TokenKind → Parse α} (h : ∀ k, (f k).GivesFrom s₀ Q) :
    (peek >>= f).GivesFrom s₀ Q :=
  .look fun s => h s.next?

protected theorem pure {a : α} (h : Q a) : (pure a : Parse α).GivesFrom s₀ Q :=
  fun _ hs => .pure ⟨hs, h⟩

protected theorem fail (what : Expectation) : (fail what : Parse α).GivesFrom s₀ Q :=
  fun _ _ => fail_ensures what

protected theorem ite {c : Prop} [Decidable c] (h : p.GivesFrom s₀ Q) (h' : q.GivesFrom s₀ Q) :
    (if c then p else q).GivesFrom s₀ Q :=
  fun s hs => .ite (fun _ => h s hs) fun _ => h' s hs

/-- The tokens of a phrase are taken. -/
theorem of_forms {R : Nat → List TokenKind → α → Prop} (h : ∀ s, p.Ensures s (s.Forms R))
    (hR : ∀ i w a, R i w a → Q a) : p.GivesFrom s₀ Q :=
  fun s hs => (h s).imp fun a s' ha => by
    obtain ⟨w, hw, ha⟩ := ha
    exact ⟨hw.isTail.trans hs, hR _ w a ha⟩

/-! ### Single tokens -/

theorem advance : Parse.advance.GivesFrom s₀ fun _ => True :=
  fun s hs => advance_ensures_tail.imp fun _ _ hi => ⟨hi.2 ▸ (isTail_tail s).trans hs, trivial⟩

theorem expect (k : TokenKind) : (Parse.expect k).GivesFrom s₀ fun _ => True :=
  .look fun _ => .ite advance (.fail _)

theorem expectName (what : Expectation) : (Parse.expectName what).GivesFrom s₀ fun _ => True :=
  .look fun _ => .ite advance (.fail _)

theorem eat? (k : TokenKind) : (Parse.eat? k).GivesFrom s₀ fun _ => True :=
  .look fun _ => .ite (.next advance fun _ => .pure trivial) (.pure trivial)

/-- A node that is no declaration hands on the declarations in its children. -/
theorem close {kind : NodeKind} {first : Nat} {cs : List PieceTree}
    (hkind : kind.isDeclaration = false) (hcs : ∀ c ∈ cs, c.DeclaresFrom s₀) :
    (Parse.close kind first cs).GivesFrom s₀ (PieceTree.DeclaresFrom s₀) := by
  rintro s hs t s' ht
  cases ht
  exact ⟨hs, PieceTree.declaresFrom_node hcs fun h => absurd h (by simp [hkind])⟩

/-- A declaration with its children. -/
theorem close_children {kind : NodeKind} {first : Nat} {cs : List PieceTree}
    (hcs : ∀ c ∈ cs, c.DeclaresFrom s₀) : (Parse.close kind first cs).GivesFrom s₀ fun t =>
      ∀ c ∈ t.children, PieceTree.DeclaresFrom s₀ c := by
  rintro s hs t s' ht
  cases ht
  exact ⟨hs, hcs⟩

/-! ### Loops -/

theorem collectWhile {more : TokenStream → Bool} {item : Parse α} (h : item.GivesFrom s₀ Q) :
    (Parse.collectWhile more item).GivesFrom s₀ fun as => ∀ a ∈ as, Q a := by
  let one (s : TokenStream) (a : α) (s' : TokenStream) : Prop :=
    s.IsTail s₀ → s'.IsTail s₀ ∧ Q a
  let many (s : TokenStream) (as : List α) (s' : TokenStream) : Prop :=
    s.IsTail s₀ → s'.IsTail s₀ ∧ ∀ a ∈ as, Q a
  refine fun s hs => .get_bind ?_
  refine (@items_ensures _ _ _ one many (fun s hs => ⟨hs, nofun⟩) ?_ ?_ _ s).imp
    fun as s' has => has hs
  · intro s a m as s' _ ha has hs
    obtain ⟨hm, ha⟩ := ha hs
    obtain ⟨hs', has⟩ := has hm
    exact ⟨hs', List.forall_mem_cons.2 ⟨ha, has⟩⟩
  · exact fun s _ a s' ha hs => h s hs a s' ha

theorem commaSeparated {item : Parse α} (h : item.GivesFrom s₀ Q) :
    (Parse.commaSeparated item).GivesFrom s₀ fun as => ∀ a ∈ as, Q a :=
  .bind h fun _ ha => .bind (collectWhile (.next advance fun _ => h)) fun _ has =>
    .pure (List.forall_mem_cons.2 ⟨ha, has⟩)

theorem repeatWhile {more : σ → TokenStream → Bool} {step : σ → Parse σ} {I : σ → Prop}
    (h : ∀ x, I x → (step x).GivesFrom s₀ I) {x : σ} (hx : I x) :
    (Parse.repeatWhile more step x).GivesFrom s₀ I := by
  intro s hs
  refine (repeatWhile_ensures (I := fun x s => s.IsTail s₀ ∧ I x) ?_ ⟨hs, hx⟩)
  exact fun x s hx _ => h x hx.2 s hx.1

theorem skipTo (k : TokenKind) : (Parse.skipTo k).GivesFrom s₀ fun _ => True :=
  .next ((collectWhile advance).imp fun _ _ => trivial) fun _ => .pure trivial

/-! ### Expressions -/

open PieceTree

variable {g : Grammar}

theorem name : Parse.name.GivesFrom s₀ (PieceTree.DeclaresFrom s₀) :=
  .of_forms name_forms fun _ _ _ h => h.declaresNothing.declaresFrom

section

variable (h : g.DeclaresFrom s₀)

include h

theorem assignment : (Parse.assignment g).GivesFrom s₀ (PieceTree.DeclaresFrom s₀) := by
  obtain ⟨n, rfl⟩ := h.rounds
  refine .of_forms (R := fun i w e => Phrase.Derives .assignment i w [e]) (fun s => ?_)
    fun _ _ e he => (he.declaresNothing e (List.mem_singleton_self e)).declaresFrom
  exact (assignment_forms (Grammar.followsRules_forTokens n) s).imp fun _ _ he => he.1

/-- An expression further inside is one, too. -/
theorem innerAssignment :
    g.assignment.GivesFrom s₀ fun e => ∃ i w, Phrase.Derives .assignment i w [e] := by
  obtain ⟨n, rfl⟩ := h.rounds
  refine .of_forms (R := fun i w e => Phrase.Derives .assignment i w [e]) (fun s => ?_)
    fun i w _ he => ⟨i, w, he⟩
  exact (Grammar.followsRules_forTokens n s).imp fun _ _ he => he.1

theorem conditional : (Parse.conditional g).GivesFrom s₀ (PieceTree.DeclaresFrom s₀) := by
  obtain ⟨n, rfl⟩ := h.rounds
  refine .of_forms (R := fun i w e => ∃ c, Phrase.Derives c i w [e]) (fun s => ?_)
    fun _ _ e ⟨_, he⟩ => (he.declaresNothing e (List.mem_singleton_self e)).declaresFrom
  refine (conditional_forms (Grammar.followsRules_forTokens n) s).imp fun e s' he => ?_
  rcases he with ⟨w, hw, he⟩ | ⟨⟨w, hw, he⟩, -⟩
  all_goals exact ⟨w, hw, _, he⟩

/-! ### Types -/

theorem block : (Parse.block g).GivesFrom s₀ (PieceTree.DeclaresFrom s₀) :=
  .look fun _ => .next (expect _) fun _ => .bind (collectWhile h.statement) fun _ hts =>
    .next (expect _) fun _ => close rfl hts

theorem enumerator : (Parse.enumerator g).GivesFrom s₀ (PieceTree.DeclaresFrom s₀) := by
  refine .look fun s => .next (expectName _) fun name => .next (eat? _) fun equal => ?_
  cases equal with
  | none => exact close rfl nofun
  | some equal =>
    exact .bind (conditional h) fun _ ht => close rfl (forall_declaresFrom_one ht)

theorem enumerators (n : Nat) : (Parse.enumerators g n).GivesFrom s₀ fun ts =>
    ∀ t ∈ ts, t.DeclaresFrom s₀ := by
  induction n with
  | zero => exact .fail _
  | succ n ih =>
    refine .look fun s => .ite (.pure nofun) (.bind (enumerator h) fun _ ht => ?_)
    refine .next (eat? _) fun comma => ?_
    exact .ite (.bind ih fun _ hts => .pure (List.forall_mem_cons.2 ⟨ht, hts⟩))
      (.pure (forall_declaresFrom_one ht))

omit h in
theorem typeName? : Parse.typeName?.GivesFrom s₀ fun o => ∀ t ∈ o.toList, t.DeclaresFrom s₀ :=
  .look fun _ => .ite (.bind name fun _ ht => .pure (forall_declaresFrom_one ht)) (.pure nofun)

theorem enumSpecifier : (Parse.enumSpecifier g).GivesFrom s₀ (PieceTree.DeclaresFrom s₀) := by
  refine .next advance fun keyword => .bind typeName? fun name hname =>
    .next (eat? _) fun lbrace => ?_
  split
  · exact .look fun s => .bind (enumerators h _) fun _ hts => .next (expect _) fun _ =>
      close rfl (List.forall_mem_append.2 ⟨hname, hts⟩)
  · exact close rfl hname
  · exact .fail _

theorem member : (Parse.member g).GivesFrom s₀ (PieceTree.DeclaresFrom s₀) := by
  refine .peek_bind fun k => ?_
  split
  case h_1 | h_2 | h_3 | h_4 =>
    exact .next advance fun _ => .next (eat? _) fun _ => .next (expect _) fun _ => close rfl nofun
  case h_5 =>
    exact .look fun s => .ite
      (.next advance fun _ => .next (eat? _) fun _ => close rfl nofun) (h.simpleDeclaration _)
  case h_6 => exact h.simpleDeclaration _

theorem classSpecifier : (Parse.classSpecifier g).GivesFrom s₀ (PieceTree.DeclaresFrom s₀) := by
  refine .next advance fun key => .bind typeName? fun name hname => .look fun s => .ite ?_ ?_
  · have hbody : GivesFrom s₀ (do
        let lbrace ← Parse.expect .lBrace
        let members ← Parse.collectWhile (·.isBefore .rBrace) (Parse.member g)
        let rbrace ← Parse.expect .rBrace
        Parse.close (.classSpecifier key lbrace rbrace) key (name.toList ++ members))
        (PieceTree.DeclaresFrom s₀) :=
      .next (expect _) fun _ => .bind (collectWhile (member h)) fun _ hts =>
        .next (expect _) fun _ => close rfl (List.forall_mem_append.2 ⟨hname, hts⟩)
    exact .next (eat? _) fun _ => .ite (.next (skipTo _) fun _ => hbody) hbody
  · cases name with
    | none => exact .fail _
    | some name => exact close rfl hname

/-! ### Specifiers and declarators -/

theorem specifier : (Parse.specifier g).GivesFrom s₀ fun p => p.1.DeclaresFrom s₀ := by
  refine .look fun s => .peek_bind fun k => ?_
  split
  · exact .bind (enumSpecifier h) fun _ ht => .pure ht
  · refine .ite (.bind (classSpecifier h) fun _ ht => .pure ht) (.ite ?_ ?_)
    · exact .next advance fun _ => .bind (close rfl nofun) fun _ ht => .pure ht
    · exact .bind name fun _ hname => .bind (close rfl (forall_declaresFrom_one hname))
        fun _ ht => .pure ht
  · exact .fail _

theorem specifiers : (Parse.specifiers g).GivesFrom s₀ fun ts => ∀ t ∈ ts, t.DeclaresFrom s₀ := by
  let I (p : List PieceTree × Bool) : Prop := ∀ t ∈ p.1, t.DeclaresFrom s₀
  refine .bind (repeatWhile (I := I) (fun p hp => ?_) nofun) fun p hp => .pure ?_
  · exact .bind (specifier h) fun q hq => .pure (List.forall_mem_cons.2 ⟨hq, hp⟩)
  · simpa using hp

omit h in
theorem pointers : Parse.pointers.GivesFrom s₀ fun _ => True :=
  .next (repeatWhile (fun _ _ => .next advance fun _ => .pure trivial) trivial)
    fun _ => .pure trivial

omit h in
theorem declaratorName? :
    Parse.declaratorName?.GivesFrom s₀ fun o => ∀ t ∈ o.toList, t.DeclaresFrom s₀ := by
  refine .look fun s => .peek_bind fun k => ?_
  split
  case h_1 | h_2 | h_3 =>
    exact .bind name fun _ hname => .bind (close rfl (forall_declaresFrom_one hname)) fun _ ht =>
      .pure (forall_declaresFrom_one ht)
  case h_4 => exact .pure nofun

omit h in
theorem arrayBounds : Parse.arrayBounds.GivesFrom s₀ fun _ => True :=
  .next ((collectWhile (.next advance fun _ => .next (skipTo _) fun _ => expect _)).imp
    fun _ _ => trivial) fun _ => .pure trivial

/-- An initial value is an expression. -/
theorem initialValue? : (Parse.initialValue? g).GivesFrom s₀ fun o =>
    ∀ p ∈ o, ∃ i w, Phrase.Derives .assignment i w [p.2] := by
  refine .next (eat? _) fun equal => ?_
  cases equal with
  | none => exact .pure nofun
  | some equal => exact .bind (innerAssignment h) fun _ ht => .pure (by simpa using ht)

theorem closeDeclarator {first : Nat} {pointers : List Nat} {parts : List PieceTree}
    (hparts : ∀ t ∈ parts, t.DeclaresFrom s₀) :
    (Parse.closeDeclarator g first pointers parts).GivesFrom s₀ (PieceTree.DeclaresFrom s₀) := by
  refine .next arrayBounds fun _ => .bind (initialValue? h) fun initial hinitial => ?_
  cases initial with
  | none => exact close rfl hparts
  | some initial =>
    obtain ⟨i, w, hvalue⟩ := hinitial _ rfl
    exact close rfl (List.forall_mem_append.2
      ⟨hparts, fun e he => (hvalue.declaresNothing e he).declaresFrom⟩)

theorem parameter : (Parse.parameter g).GivesFrom s₀ (PieceTree.DeclaresFrom s₀) := by
  refine .look fun s => .bind (specifiers h) fun found hfound => ?_
  have hdeclarator : (parameterDeclarator g).GivesFrom s₀ (PieceTree.DeclaresFrom s₀) :=
    .look fun _ => .next pointers fun _ => .bind declaratorName? fun _ hcore =>
      closeDeclarator h hcore
  refine .ite (.next (.fail _) fun _ => ?_) ?_
  all_goals
    refine .look fun s => .ite (close rfl hfound) (.bind hdeclarator fun _ ht => ?_)
    exact close rfl (List.forall_mem_append.2 ⟨hfound, forall_declaresFrom_one ht⟩)

theorem parameterList : (Parse.parameterList g).GivesFrom s₀ (PieceTree.DeclaresFrom s₀) := by
  refine .next advance fun lparen => .look fun s => .ite
    (.bind (Q := fun ts => ∀ t ∈ ts, t.DeclaresFrom s₀) (.pure nofun) fun _ hts => ?_)
    (.bind (commaSeparated (parameter h)) fun _ hts => ?_)
  all_goals exact .next (expect _) fun _ => .next (eat? _) fun _ => close rfl hts

theorem declarator : (Parse.declarator g).GivesFrom s₀ fun p => p.1.DeclaresFrom s₀ := by
  refine .look fun s => .next pointers fun pointers => .bind declaratorName? fun core hcore => ?_
  cases core with
  | none => exact .fail _
  | some core =>
    have hcore : core.DeclaresFrom s₀ := hcore core (List.mem_singleton_self core)
    refine .look fun s => .ite (.bind (parameterList h) fun _ hlist => ?_) ?_
    · exact .bind (closeDeclarator h (forall_declaresFrom_two hcore hlist)) fun _ ht => .pure ht
    · exact .bind (closeDeclarator h (forall_declaresFrom_one hcore)) fun _ ht => .pure ht

/-! ### Declarations -/

/-- The children of a declaration. -/
theorem simpleDeclaration_children (place : DeclarationPlace) :
    (Parse.simpleDeclaration g place).GivesFrom s₀ fun t =>
      ∀ c ∈ t.children, PieceTree.DeclaresFrom s₀ c := by
  have hclose {first : Nat} {parts : List PieceTree} (hparts : ∀ t ∈ parts, t.DeclaresFrom s₀) :
      (closeDeclaration first parts).GivesFrom s₀ fun t => ∀ c ∈ t.children, PieceTree.DeclaresFrom s₀ c :=
    .next (expect _) fun _ => close_children hparts
  refine .look fun s => .bind (specifiers h) fun found hfound => .look fun s => .ite
    (hclose hfound) (.bind (declarator h) fun p hp => .look fun s => .ite ?_ ?_)
  · exact .bind (block h) fun _ hbody => close_children
      (List.forall_mem_append.2 ⟨hfound, forall_declaresFrom_two hp hbody⟩)
  · have hothers : GivesFrom s₀ (do
        let _ ← Parse.advance
        return (← Parse.declarator g).1) (PieceTree.DeclaresFrom s₀) :=
      .next advance fun _ => .bind (declarator h) fun _ hq => .pure hq
    exact .bind (collectWhile hothers) fun _ hts => hclose
      (List.forall_mem_append.2 ⟨hfound, List.forall_mem_cons.2 ⟨hp, hts⟩⟩)

/-- **The parser of declarations hands on what it reads**: the declarations in the children, and
the declaration itself. -/
theorem simpleDeclaration (place : DeclarationPlace) :
    (Parse.simpleDeclaration g place).GivesFrom s₀ (PieceTree.DeclaresFrom s₀) := by
  intro s hs t s' ht
  obtain ⟨hs', hchildren⟩ := simpleDeclaration_children h place s hs t s' ht
  obtain ⟨n, rfl⟩ := h.rounds
  refine ⟨hs', ?_⟩
  cases t with
  | node p cs => exact declaresFrom_node hchildren fun _ => ⟨n, place, s, s', hs, ht⟩

/-- The semicolon of a declaration is one, and comes last. -/
theorem simpleDeclaration_semicolon (place : DeclarationPlace) :
    (Parse.simpleDeclaration g place).GivesFrom s₀ fun t =>
      ∀ i, t.label.kind = .simpleDeclaration i →
        s₀.kindAt i = some .semicolon ∧ t.label.last = max t.label.first i := by
  have hclose (first : Nat) (parts : List PieceTree) :
      (closeDeclaration first parts).GivesFrom s₀ fun t =>
        ∀ i, t.label.kind = .simpleDeclaration i →
          s₀.kindAt i = some .semicolon ∧ t.label.last = max t.label.first i := by
    refine fun s hs => expect_bind_ensures fun hk => ?_
    rintro t s' ht
    cases ht
    refine ⟨(isTail_tail s).trans hs, fun i hi => ?_⟩
    cases hi
    exact ⟨hs.next?_eq ▸ hk, by rw [tail_position hk]; rfl⟩
  refine .look fun s => .bind (specifiers h) fun found _ => .look fun s => .ite (hclose _ _)
    (.bind (declarator h) fun p _ => .look fun s => .ite ?_ ?_)
  · refine .bind (block h) fun body _ s hs t s' ht => ?_
    cases ht
    exact ⟨hs, fun i hi => by cases hi⟩
  · have hothers : GivesFrom s₀ (do
        let _ ← Parse.advance
        return (← Parse.declarator g).1) fun _ => True :=
      .next advance fun _ => .bind (declarator h) fun _ _ => .pure trivial
    exact .bind (collectWhile hothers) fun others _ => hclose _ _

theorem declaration : (Parse.declaration g).GivesFrom s₀ (PieceTree.DeclaresFrom s₀) := by
  refine .look fun s => .ite ?_ (simpleDeclaration h _)
  exact .next advance fun _ => .next (eat? _) fun _ => .next (expect _) fun _ =>
    .bind (collectWhile h.declaration) fun _ hts => .next (expect _) fun _ => close rfl hts

/-! ### Statements -/

theorem condition : (Parse.condition g).GivesFrom s₀ (PieceTree.DeclaresFrom s₀) := by
  refine .look fun s => .ite (.look fun s => ?_) (assignment h)
  refine .bind (specifiers h) fun _ hts => .bind (declarator h) fun _ hp => close rfl ?_
  exact List.forall_mem_append.2 ⟨hts, forall_declaresFrom_one hp⟩

theorem controlCondition :
    (Parse.controlCondition g).GivesFrom s₀ fun p => p.2.1.DeclaresFrom s₀ :=
  .next (expect _) fun _ => .bind (condition h) fun _ ht => .next (expect _) fun _ => .pure ht

theorem expressionBefore? (k : TokenKind) : (Parse.expressionBefore? g k).GivesFrom s₀ fun o =>
    ∀ t ∈ o.toList, t.DeclaresFrom s₀ :=
  .look fun _ => .ite (.pure nofun)
    (.bind (assignment h) fun _ ht => .pure (forall_declaresFrom_one ht))

theorem expressionStatement :
    (Parse.expressionStatement g).GivesFrom s₀ (PieceTree.DeclaresFrom s₀) :=
  .look fun _ => .bind (expressionBefore? h _) fun _ hts => .next (expect _) fun _ => close rfl hts

theorem declarationStatement :
    (Parse.declarationStatement g).GivesFrom s₀ (PieceTree.DeclaresFrom s₀) :=
  .look fun _ => .bind (simpleDeclaration h _) fun _ ht => close rfl (forall_declaresFrom_one ht)

theorem ifStatement : (Parse.ifStatement g).GivesFrom s₀ (PieceTree.DeclaresFrom s₀) := by
  refine .next advance fun keyword => .bind (controlCondition h) fun c hc =>
    .bind h.statement fun thenBranch hthen => .next (eat? _) fun elseToken => ?_
  cases elseToken with
  | none => exact close rfl (forall_declaresFrom_two hc hthen)
  | some elseToken =>
    exact .bind h.statement fun _ helse => close rfl
      (List.forall_mem_cons.2 ⟨hc, forall_declaresFrom_two hthen helse⟩)

theorem forStatement : (Parse.forStatement g).GivesFrom s₀ (PieceTree.DeclaresFrom s₀) := by
  refine .next advance fun keyword => .next (expect _) fun lparen => .look fun s =>
    .ite (.bind (declarationStatement h) fun initial hinitial => ?_)
      (.bind (expressionStatement h) fun initial hinitial => ?_)
  all_goals
    have hrest (c : Option PieceTree) (hc : ∀ t ∈ c.toList, t.DeclaresFrom s₀) : GivesFrom s₀ (do
        let semicolon ← Parse.expect .semicolon
        let expression ← Parse.expressionBefore? g .rParen
        let rparen ← Parse.expect .rParen
        let body ← g.statement
        Parse.close (.forStatement keyword lparen semicolon rparen c.isSome) keyword
          (initial :: (c.toList ++ expression.toList ++ [body]))) (PieceTree.DeclaresFrom s₀) :=
      .next (expect _) fun _ => .bind (expressionBefore? h _) fun _ he => .next (expect _) fun _ =>
        .bind h.statement fun _ hbody => close rfl (List.forall_mem_cons.2 ⟨hinitial,
          List.forall_mem_append.2
            ⟨List.forall_mem_append.2 ⟨hc, he⟩, forall_declaresFrom_one hbody⟩⟩)
    exact .look fun s => .ite (hrest none nofun)
      (.bind (condition h) fun c hc => hrest (some c) (forall_declaresFrom_one hc))

theorem statement : (Parse.statement g).GivesFrom s₀ (PieceTree.DeclaresFrom s₀) := by
  refine .peek_bind fun k => ?_
  split
  case h_1 => exact .fail _
  case h_2 => exact block h
  case h_3 => exact ifStatement h
  case h_4 | h_7 =>
    exact .next advance fun _ => .bind (controlCondition h) fun _ hc =>
      .bind h.statement fun _ hbody => close rfl (forall_declaresFrom_two hc hbody)
  case h_5 =>
    exact .next advance fun _ => .bind h.statement fun _ hbody => .next (expect _) fun _ =>
      .next (expect _) fun _ => .bind (assignment h) fun _ ht => .next (expect _) fun _ =>
        .next (expect _) fun _ => close rfl (forall_declaresFrom_two hbody ht)
  case h_6 => exact forStatement h
  case h_8 =>
    exact .next advance fun _ => .bind (conditional h) fun _ ht => .next (expect _) fun _ =>
      close rfl (forall_declaresFrom_one ht)
  case h_9 | h_10 | h_11 =>
    exact .next advance fun _ => .next (expect _) fun _ => close rfl nofun
  case h_12 =>
    exact .next advance fun _ => .bind (expressionBefore? h _) fun _ hts =>
      .next (expect _) fun _ => close rfl hts
  case h_13 =>
    exact .look fun s => .ite (declarationStatement h) (expressionStatement h)

end

end Parse.GivesFrom

/-! ### Files -/

/-- In any number of rounds the parsers hand on the declarations that they read. -/
theorem Grammar.declaresFrom_forTokens (s₀ : TokenStream) (n : Nat) :
    (forTokens n).DeclaresFrom s₀ := by
  induction n with
  | zero => exact ⟨⟨0, rfl⟩, .fail _, fun _ => .fail _, .fail _⟩
  | succ n ih =>
    exact ⟨⟨n + 1, rfl⟩, .statement ih, fun _ => .simpleDeclaration ih _, .declaration ih⟩

/-- **The declarations of a file are read where they stand.** -/
theorem PieceTree.isReadFrom_of_ofTokens_eq_ok {tokens : List Token} {length : Nat}
    {t u : PieceTree} (h : ofTokens tokens length = .ok t) (hu : u ∈ t.subtrees)
    (hkind : u.label.kind.isDeclaration = true) : u.IsReadFrom ⟨tokens, 0, length⟩ := by
  have hfile : (Parse.file (Grammar.forTokens (tokens.length + 1))).GivesFrom ⟨tokens, 0, length⟩
      (DeclaresFrom ⟨tokens, 0, length⟩) :=
    .bind (.collectWhile (Grammar.declaresFrom_forTokens _ _).declaration) fun _ hts =>
      .close rfl hts
  rw [ofTokens] at h
  split at h
  next hrun =>
    cases h
    exact (hfile _ (.refl _) _ _ hrun).2 u hu hkind
  next => cases h

namespace SourceCode

variable {c : SourceCode} {text : Text} {t : SyntaxTree}

/-- All tokens of a text. -/
def stream (c : SourceCode) : TokenStream := ⟨c.tokens.toList, 0, c.text.length⟩

theorem kindAt_stream (c : SourceCode) (i : Nat) : c.stream.kindAt i = c.kindOf? i := by
  simp [stream, kindAt, kindOf?]

/-- The declarations of a text are read where they stand. -/
theorem isReadFrom (h : ofText text = .ok c) (ht : t ∈ c.nodes)
    (hkind : t.label.kind.isDeclaration = true) : t.toPieces.IsReadFrom c.stream := by
  obtain ⟨L, p, -, htree, rfl⟩ := ofText_eq_ok_iff.1 h
  have hmem := SyntaxTree.toPieces_mem_subtrees ht
  rw [SyntaxTree.toPieces_ofPieces] at hmem
  exact PieceTree.isReadFrom_of_ofTokens_eq_ok htree hmem (by simpa using hkind)

/-- **A declaration without a body ends with a semicolon.** -/
theorem ends_with_semicolon (h : ofText text = .ok c) (ht : t ∈ c.nodes) {i : Nat}
    (hkind : t.label.kind = .simpleDeclaration i) :
    t.label.last = i ∧ c.kindOf? i = some .semicolon := by
  obtain ⟨n, place, s, s', hs, hyields⟩ := isReadFrom h ht (by rw [hkind]; rfl)
  obtain ⟨-, hsemicolon⟩ := Parse.GivesFrom.simpleDeclaration_semicolon
    (Grammar.declaresFrom_forTokens c.stream n) place s hs _ _ hyields
  obtain ⟨hsemi, hlast⟩ := hsemicolon i (by simpa using hkind)
  obtain ⟨hreads, -⟩ := Parse.simpleDeclaration_ensures (Grammar.isSound_forTokens n) place _ _
    hyields
  -- the semicolon belongs to the node, so it does not come before its first token
  have hown : i ∈ t.toPieces.label.kind.ownTokens := by
    rw [SyntaxTree.label_toPieces, hkind]
    exact List.mem_singleton_self i
  have hfirst := (hreads.isLaid.own (Rose.self_mem_subtrees _) hown).1
  rw [Nat.max_eq_right hfirst, SyntaxTree.label_toPieces] at hlast
  exact ⟨hlast, c.kindAt_stream i ▸ hsemi⟩

end SourceCode

end Mend
