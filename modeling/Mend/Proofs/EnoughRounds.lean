import Mend.Proofs.ParsedStatements
import Mend.Proofs.TwinRuns

/-!
# Enough rounds

The parsers contain each other, and the grammar for a number of tokens goes through as many rounds
of that.  Whenever one of them calls another through the grammar, it has taken a token first.  So
what a parser does on a number of tokens depends on what the others do on fewer tokens only, and a
grammar that goes through a round for every token does the same as one that goes through more.

A parser that fails says so at a token that was left, or at the end of the text when none is.

## Main definitions

* `TokenStream.IsTail`, `TokenStream.Allows` — what is left of some tokens, and what a parser may
  make of them.
* `Parse.Suffices` — parsers that do the same as long as few tokens are left.
* `Grammar.Covers` — grammars whose parsers do the same as long as few tokens are left.

## Main results

* `Grammar.Covers.next` — **every call through the grammar is made after a token was taken.**
* `Grammar.covers_forTokens` — **a round for every token is enough.**
* `PieceTree.ofTokens_of_yields` — the tree of a file that was read in more rounds.
-/

namespace Mend

namespace TokenStream

/-- What is left of some tokens after the first ones have been taken. -/
structure IsTail (s₁ s : TokenStream) : Prop where
  /-- These are the last tokens. -/
  suffix : s₁.rest <:+ s.rest
  /-- They are where they were among all tokens. -/
  total_eq : s₁.total = s.total
  /-- The text is the same. -/
  textLength_eq : s₁.textLength = s.textLength

/-- What a parser may make of the tokens that are left: it takes some of them, or it fails at one of
them or behind all of them. -/
def Allows {α : Type} (s : TokenStream) : Except SyntaxError (α × TokenStream) → Prop
  | .ok r => r.2.IsTail s
  | .error e => ∃ (s₁ : TokenStream) (what : Expectation), s₁.IsTail s ∧ e = s₁.error what

variable {s m s₁ : TokenStream}

namespace IsTail

protected theorem refl (s : TokenStream) : s.IsTail s := ⟨List.suffix_refl _, rfl, rfl⟩

protected theorem trans (h : s₁.IsTail m) (h' : m.IsTail s) : s₁.IsTail s :=
  ⟨h.suffix.trans h'.suffix, h.total_eq.trans h'.total_eq, h.textLength_eq.trans h'.textLength_eq⟩

protected theorem length_le (h : s₁.IsTail s) : s₁.rest.length ≤ s.rest.length := h.suffix.length_le

end IsTail

theorem isTail_tail (s : TokenStream) : s.tail.IsTail s := by
  obtain ⟨rest, i, n⟩ := s
  cases rest with
  | nil => exact .refl _
  | cons t rest =>
    refine ⟨List.suffix_cons t rest, ?_, rfl⟩
    simp only [total, tail, List.length_cons]
    omega

/-- The tokens after a word that is consumed are left. -/
theorem Consumes.isTail {w : List TokenKind} (h : s.Consumes w s₁) : s₁.IsTail s := by
  have htotal := h.length_eq
  have hposition := h.position_eq
  obtain ⟨ts, hrest, -, -, hlength⟩ := h
  exact ⟨⟨ts, hrest.symm⟩, by simp only [total]; omega, hlength⟩

/-- What a parser may make of the last tokens, it may make of all of them. -/
theorem Allows.of_isTail {α : Type} {r : Except SyntaxError (α × TokenStream)} (h : s₁.Allows r)
    (hs : s₁.IsTail s) : s.Allows r := by
  cases r with
  | ok r => exact IsTail.trans h hs
  | error e =>
    obtain ⟨s₂, what, hs₂, rfl⟩ := h
    exact ⟨s₂, what, hs₂.trans hs, rfl⟩

end TokenStream

namespace Parse

open TokenStream

/-- As long as no more than `n` tokens are left, two parsers do the same: they read the same, or
they fail with the same error.  Tokens are taken from the front, and an error shows at a token that
was left. -/
def Suffices {α : Type} (n : Nat) (p p' : Parse α) : Prop :=
  ∀ s : TokenStream, s.rest.length ≤ n → p'.run s = p.run s ∧ s.Allows (p.run s)

namespace Suffices

variable {α β : Type} {n : Nat} {p p' q q' : Parse α} {f f' : α → Parse β}

/-! ### Rules -/

protected theorem pure (x : α) : Suffices n (pure x) (pure x) :=
  fun s _ => ⟨rfl, IsTail.refl s⟩

protected theorem fail (what : Expectation) : Suffices n (fail what : Parse α) (fail what) :=
  fun s _ => ⟨rfl, s, what, IsTail.refl s, rfl⟩

/-- One parser and then another one, from a single state. -/
theorem bind_at {s : TokenStream} (hp : p'.run s = p.run s ∧ s.Allows (p.run s))
    (hf : ∀ x s₁, p.Yields s x s₁ → s₁.IsTail s →
      (f' x).run s₁ = (f x).run s₁ ∧ s₁.Allows ((f x).run s₁)) :
    (p' >>= f').run s = (p >>= f).run s ∧ s.Allows ((p >>= f).run s) := by
  obtain ⟨hrun, hallows⟩ := hp
  rw [StateT.run_bind, StateT.run_bind, hrun]
  cases hr : p.run s with
  | error e =>
    rw [hr] at hallows
    exact ⟨rfl, hallows⟩
  | ok r =>
    rw [hr] at hallows
    obtain ⟨hsame, hrest⟩ := hf r.1 r.2 hr hallows
    exact ⟨hsame, hrest.of_isTail hallows⟩

/-- One parser, and then another that depends on what the first one has read. -/
protected theorem bind (hp : Suffices n p p') (hf : ∀ x, Suffices n (f x) (f' x)) :
    Suffices n (p >>= f) (p' >>= f') :=
  fun s hs => bind_at (hp s hs) fun x s₁ _ hs₁ => hf x s₁ (Nat.le_trans hs₁.length_le hs)

/-- With fewer tokens left. -/
protected theorem mono {m : Nat} (h : Suffices n p p') (hmn : m ≤ n) : Suffices m p p' :=
  fun s hs => h s (Nat.le_trans hs hmn)

/-- Looking at the state. -/
protected theorem look {f f' : TokenStream → Parse α} (h : ∀ s, Suffices n (f s) (f' s)) :
    Suffices n (get >>= f) (get >>= f') :=
  fun s hs => h s s hs

theorem peek_bind {f f' : Option TokenKind → Parse α} (h : ∀ k, Suffices n (f k) (f' k)) :
    Suffices n (peek >>= f) (peek >>= f') :=
  .look fun s => h s.next?

protected theorem ite {c : Prop} [Decidable c] (h : Suffices n p p') (hq : Suffices n q q') :
    Suffices n (if c then p else q) (if c then p' else q') := by
  split
  · exact h
  · exact hq

/-! ### Tokens that are taken -/

theorem advance : Suffices n Parse.advance Parse.advance :=
  fun s _ => ⟨rfl, isTail_tail s⟩

theorem expect (k : TokenKind) : Suffices n (Parse.expect k) (Parse.expect k) :=
  .look fun _ => .ite advance (.fail _)

theorem expectName (what : Expectation) :
    Suffices n (Parse.expectName what) (Parse.expectName what) :=
  .look fun _ => .ite advance (.fail _)

theorem eat? (k : TokenKind) : Suffices n (Parse.eat? k) (Parse.eat? k) :=
  .look fun _ => .ite (.bind advance fun i => .pure (some i)) (.pure none)

theorem tail_length_le {s : TokenStream} (hs : s.rest.length ≤ n + 1) : s.tail.rest.length ≤ n := by
  obtain ⟨rest, i, k⟩ := s
  cases rest with
  | nil => exact Nat.zero_le n
  | cons t rest => exact Nat.le_of_succ_le_succ hs

variable {f f' : Nat → Parse β}

/-- After a token was taken, fewer tokens are left. -/
theorem advance_bind (hf : ∀ i, Suffices n (f i) (f' i)) :
    Suffices (n + 1) (Parse.advance >>= f) (Parse.advance >>= f') := by
  refine fun s hs => bind_at (advance s hs) fun i s₁ hi _ => hf i s₁ ?_
  obtain ⟨-, rfl⟩ := hi.unique (advance_yields s)
  exact tail_length_le hs

theorem expect_bind (k : TokenKind) (hf : ∀ i, Suffices n (f i) (f' i)) :
    Suffices (n + 1) (Parse.expect k >>= f) (Parse.expect k >>= f') := by
  refine fun s hs => bind_at (expect k s hs) fun i s₁ hi _ => hf i s₁ ?_
  by_cases hk : s.next? = some k
  · obtain ⟨-, rfl⟩ := hi.unique (expect_yields hk)
    exact tail_length_le hs
  · have hat : s.isAt k = false := by simpa [isAt] using hk
    exact (expect_ensures_of_isAt_eq_false (Q := fun _ _ => False) hat i s₁ hi).elim

theorem eat?_bind (k : TokenKind) {f f' : Option Nat → Parse β}
    (hsome : ∀ i, Suffices n (f (some i)) (f' (some i)))
    (hnone : Suffices (n + 1) (f none) (f' none)) :
    Suffices (n + 1) (Parse.eat? k >>= f) (Parse.eat? k >>= f') := by
  refine fun s hs => bind_at (eat? k s hs) fun o s₁ ho _ => ?_
  by_cases hk : s.next? = some k
  · obtain ⟨rfl, rfl⟩ := ho.unique (eat?_yields_some hk)
    exact hsome _ _ (tail_length_le hs)
  · obtain ⟨rfl, rfl⟩ := ho.unique (eat?_yields_none hk)
    exact hnone _ hs

theorem close {kind : NodeKind} {first : Nat} {cs : List PieceTree} :
    Suffices n (Parse.close kind first cs) (Parse.close kind first cs) :=
  .look fun _ => .pure _

/-! ### Loops -/

theorem items {more : TokenStream → Bool} {item item' : Parse α} (h : Suffices n item item')
    (k : Nat) : Suffices n (Parse.items more item k) (Parse.items more item' k) := by
  induction k with
  | zero => exact .pure []
  | succ k ih =>
    exact .look fun s => .ite (.bind h fun x => .bind ih fun xs => .pure (x :: xs)) (.pure [])

theorem collectWhile {more : TokenStream → Bool} {item item' : Parse α}
    (h : Suffices n item item') :
    Suffices n (Parse.collectWhile more item) (Parse.collectWhile more item') :=
  .look fun _ => items h _

theorem rounds {more : α → TokenStream → Bool} {step step' : α → Parse α}
    (h : ∀ x, Suffices n (step x) (step' x)) (k : Nat) (x : α) :
    Suffices n (Parse.rounds more step k x) (Parse.rounds more step' k x) := by
  induction k generalizing x with
  | zero => exact .pure x
  | succ k ih => exact .look fun s => .ite (.bind (h x) ih) (.pure x)

theorem repeatWhile {more : α → TokenStream → Bool} {step step' : α → Parse α}
    (h : ∀ x, Suffices n (step x) (step' x)) (x : α) :
    Suffices n (Parse.repeatWhile more step x) (Parse.repeatWhile more step' x) :=
  .look fun _ => rounds h _ x

theorem commaSeparated {item item' : Parse α} (h : Suffices n item item') :
    Suffices n (Parse.commaSeparated item) (Parse.commaSeparated item') :=
  .bind h fun x => .bind (collectWhile (.bind advance fun _ => h)) fun xs => .pure (x :: xs)

theorem skipTo (k : TokenKind) : Suffices n (Parse.skipTo k) (Parse.skipTo k) :=
  .bind (collectWhile advance) fun _ => .pure ()

/-! ### Names -/

theorem name : Suffices n Parse.name Parse.name := by
  have hqualifier : Suffices n Parse.qualifier Parse.qualifier :=
    .bind advance fun name => .bind advance fun _ => .pure name
  have hunqualified : Suffices n Parse.unqualifiedName Parse.unqualifiedName := by
    refine .look fun s => .bind (eat? _) fun tilde => ?_
    cases tilde with
    | some tilde => exact .bind (expectName _) fun _ => close
    | none => exact .bind (expectName _) fun _ => close
  exact .look fun s => .bind (eat? _) fun _ => .bind (collectWhile hqualifier) fun _ =>
    .bind hunqualified fun e => .ite (.pure e) close

end Suffices

end Parse

/-- As long as no more than `n` tokens are left, the parsers of two grammars do the same. -/
structure Grammar.Covers (n : Nat) (g g' : Grammar) : Prop where
  /-- On expressions. -/
  assignment : Parse.Suffices n g.assignment g'.assignment
  /-- On statements. -/
  statement : Parse.Suffices n g.statement g'.statement
  /-- On declarations that are no namespaces. -/
  simpleDeclaration : ∀ place,
    Parse.Suffices n (g.simpleDeclaration place) (g'.simpleDeclaration place)
  /-- On declarations. -/
  declaration : Parse.Suffices n g.declaration g'.declaration

namespace Parse.Suffices

open TokenStream

variable {n : Nat} {g g' : Grammar} (h : g.Covers n g')

include h

/-! ### Expressions -/

omit h in
theorem leaf (kind : Nat → NodeKind) : Suffices n (Parse.leaf kind) (Parse.leaf kind) :=
  .bind advance fun _ => close

theorem primary : Suffices (n + 1) (Parse.primary g) (Parse.primary g') := by
  refine .look fun s => .ite (.bind advance fun _ => .bind advance fun _ => close) ?_
  refine .peek_bind fun k => ?_
  split
  case h_1 | h_2 | h_3 | h_4 | h_5 | h_6 => exact leaf _
  case h_7 =>
    exact .advance_bind fun _ => .bind h.assignment fun _ => .bind (expect _) fun _ => close
  case h_8 | h_9 => exact name
  case h_10 => exact .fail _

theorem suffix (operand : PieceTree) :
    Suffices (n + 1) (Parse.suffix g operand) (Parse.suffix g' operand) := by
  refine .peek_bind fun k => ?_
  split
  case h_1 =>
    refine .advance_bind fun lparen => .look fun s => .ite (.bind (.pure []) fun _ => ?_)
      (.bind (commaSeparated h.assignment) fun _ => ?_)
    all_goals exact .bind (expect _) fun _ => close
  case h_2 =>
    exact .advance_bind fun _ => .bind h.assignment fun _ => .bind (expect _) fun _ => close
  case h_3 | h_4 => exact .bind advance fun _ => .bind name fun _ => close
  case h_5 => exact .bind advance fun _ => close

theorem suffixed : Suffices (n + 1) (Parse.suffixed g) (Parse.suffixed g') :=
  .bind (primary h) fun _ => repeatWhile (suffix h) _

theorem unary : Suffices (n + 1) (Parse.unary g) (Parse.unary g') := by
  refine .bind (collectWhile advance) fun operators => .bind (suffixed h) fun operand => ?_
  induction operators with
  | nil => exact .pure operand
  | cons operator operators ih =>
    rw [List.foldrM_cons]
    exact .bind ih fun _ => close

theorem binaryLevel (k : Nat) :
    Suffices (n + 1) (Parse.binaryLevel g k) (Parse.binaryLevel g' k) := by
  induction k with
  | zero => exact unary h
  | succ k ih =>
    exact .bind ih fun _ => repeatWhile (fun _ => .bind advance fun _ => .bind ih fun _ => close) _

theorem conditional : Suffices (n + 1) (Parse.conditional g) (Parse.conditional g') :=
  .bind (binaryLevel h 10) fun condition => .eat?_bind _
    (fun _ => .bind h.assignment fun _ => .bind (expect _) fun _ => .bind h.assignment fun _ =>
      close)
    (.pure condition)

theorem assignment : Suffices (n + 1) (Parse.assignment g) (Parse.assignment g') := by
  refine .bind (conditional h) fun left => .peek_bind fun k => .ite ?_ (.pure left)
  exact .advance_bind fun _ => .bind h.assignment fun _ => close

/-! ### Declarations -/

theorem block : Suffices (n + 1) (Parse.block g) (Parse.block g') :=
  .look fun _ => .expect_bind _ fun _ => .bind (collectWhile h.statement) fun _ =>
    .bind (expect _) fun _ => close

theorem enumerator : Suffices (n + 1) (Parse.enumerator g) (Parse.enumerator g') :=
  .look fun _ => .bind (expectName _) fun _ => .eat?_bind _
    (fun _ => .bind ((conditional h).mono (Nat.le_succ n)) fun _ => close) close

theorem enumerators (k : Nat) :
    Suffices (n + 1) (Parse.enumerators g k) (Parse.enumerators g' k) := by
  induction k with
  | zero => exact .fail _
  | succ k ih =>
    refine .look fun s => .ite (.pure []) (.bind (enumerator h) fun e => ?_)
    exact .bind (eat? _) fun comma => .ite (.bind ih fun es => .pure (e :: es)) (.pure [e])

omit h in
theorem typeName? : Suffices n Parse.typeName? Parse.typeName? :=
  .look fun _ => .ite (.bind name fun t => .pure (some t)) (.pure none)

theorem enumSpecifier : Suffices (n + 1) (Parse.enumSpecifier g) (Parse.enumSpecifier g') := by
  refine .bind advance fun keyword => .bind typeName? fun name => .bind (eat? _) fun lbrace => ?_
  split
  · exact .look fun s => .bind (enumerators h _) fun _ => .bind (expect _) fun _ => close
  · exact close
  · exact .fail _

omit h in
theorem accessLabel : Suffices n Parse.accessLabel Parse.accessLabel :=
  .bind advance fun _ => .bind (eat? _) fun _ => .bind (expect _) fun _ => close

omit h in
theorem macroMember : Suffices n Parse.macroMember Parse.macroMember :=
  .bind advance fun _ => .bind (eat? _) fun _ => close

theorem member : Suffices n (Parse.member g) (Parse.member g') := by
  refine .peek_bind fun k => ?_
  split
  case h_1 | h_2 | h_3 | h_4 => exact accessLabel
  case h_5 => exact .look fun s => .ite macroMember (h.simpleDeclaration _)
  case h_6 => exact h.simpleDeclaration _

theorem classSpecifier : Suffices (n + 1) (Parse.classSpecifier g) (Parse.classSpecifier g') := by
  refine .advance_bind fun key => .bind typeName? fun name => .look fun s => .ite ?_ ?_
  · have hbody (name : Option PieceTree) : Suffices n
        (do
          let lbrace ← Parse.expect .lBrace
          let members ← Parse.collectWhile (·.isBefore .rBrace) (Parse.member g)
          let rbrace ← Parse.expect .rBrace
          Parse.close (.classSpecifier key lbrace rbrace) key (name.toList ++ members))
        (do
          let lbrace ← Parse.expect .lBrace
          let members ← Parse.collectWhile (·.isBefore .rBrace) (Parse.member g')
          let rbrace ← Parse.expect .rBrace
          Parse.close (.classSpecifier key lbrace rbrace) key (name.toList ++ members)) :=
      .bind (expect _) fun _ => .bind (collectWhile (member h)) fun _ => .bind (expect _) fun _ =>
        close
    exact .bind (eat? _) fun colon => .ite (.bind (skipTo _) fun _ => hbody name) (hbody name)
  · cases name with
    | none => exact .fail _
    | some name => exact close

theorem specifier : Suffices (n + 1) (Parse.specifier g) (Parse.specifier g') := by
  refine .look fun s => .peek_bind fun k => ?_
  split
  · exact .bind (enumSpecifier h) fun t => .pure (t, true)
  · refine .ite (.bind (classSpecifier h) fun t => .pure (t, true)) (.ite ?_ ?_)
    · exact .bind advance fun _ => .bind close fun t => .pure (t, _)
    · exact .bind name fun _ => .bind close fun t => .pure (t, true)
  · exact .fail _

theorem specifiers : Suffices (n + 1) (Parse.specifiers g) (Parse.specifiers g') :=
  .bind (repeatWhile (fun p => .bind (specifier h) fun q => .pure (q.1 :: p.1, p.2 || q.2)) _)
    fun p => .pure p.1.reverse

omit h in
theorem pointers : Suffices n Parse.pointers Parse.pointers :=
  .bind (repeatWhile (fun seen => .bind advance fun i => .pure (i :: seen)) []) fun found =>
    .pure found.reverse

omit h in
theorem declaratorName? : Suffices n Parse.declaratorName? Parse.declaratorName? := by
  refine .look fun s => .peek_bind fun k => ?_
  split
  case h_1 | h_2 | h_3 => exact .bind name fun _ => .bind close fun t => .pure (some t)
  case h_4 => exact .pure none

omit h in
theorem arrayBounds : Suffices n Parse.arrayBounds Parse.arrayBounds :=
  .bind (collectWhile (.bind advance fun _ => .bind (skipTo _) fun _ => expect _)) fun _ =>
    .pure ()

theorem closeDeclarator {first : Nat} {pointers : List Nat} {parts : List PieceTree} :
    Suffices (n + 1) (Parse.closeDeclarator g first pointers parts)
      (Parse.closeDeclarator g' first pointers parts) := by
  have hinitial : Suffices (n + 1) (Parse.initialValue? g) (Parse.initialValue? g') :=
    .eat?_bind _ (fun equal => .bind h.assignment fun value => .pure (some (equal, value)))
      (.pure none)
  refine .bind arrayBounds fun _ => .bind hinitial fun initial => ?_
  cases initial with
  | none => exact close
  | some initial => exact close

theorem parameterDeclarator :
    Suffices (n + 1) (Parse.parameterDeclarator g) (Parse.parameterDeclarator g') :=
  .look fun _ => .bind pointers fun _ => .bind declaratorName? fun _ => closeDeclarator h

theorem parameter : Suffices (n + 1) (Parse.parameter g) (Parse.parameter g') := by
  refine .look fun s => .bind (specifiers h) fun found => .ite (.bind (.fail _) fun _ => ?_) ?_
  all_goals
    refine .look fun s => .ite close ?_
    exact .bind (parameterDeclarator h) fun _ => close

theorem parameterList : Suffices (n + 1) (Parse.parameterList g) (Parse.parameterList g') := by
  refine .bind advance fun lparen => .look fun s => .ite (.bind (.pure []) fun _ => ?_)
    (.bind (commaSeparated (parameter h)) fun _ => ?_)
  all_goals exact .bind (expect _) fun _ => .bind (eat? _) fun _ => close

theorem declarator : Suffices (n + 1) (Parse.declarator g) (Parse.declarator g') := by
  refine .look fun s => .bind pointers fun pointers => .bind declaratorName? fun core => ?_
  cases core with
  | none => exact .fail _
  | some core =>
    refine .look fun s => .ite ?_ ?_
    · exact .bind (parameterList h) fun _ => .bind (closeDeclarator h) fun t => .pure (t, true)
    · exact .bind (closeDeclarator h) fun t => .pure (t, false)

theorem simpleDeclaration (place : DeclarationPlace) :
    Suffices (n + 1) (Parse.simpleDeclaration g place) (Parse.simpleDeclaration g' place) := by
  have hclose {first : Nat} {parts : List PieceTree} :
      Suffices (n + 1) (closeDeclaration first parts) (closeDeclaration first parts) :=
    .bind (expect _) fun _ => close
  refine .look fun s => .bind (specifiers h) fun found => .look fun s => .ite hclose ?_
  refine .bind (declarator h) fun p => .look fun s => .ite (.bind (block h) fun _ => close) ?_
  have hothers : Suffices (n + 1)
      (do
        let _ ← Parse.advance
        return (← Parse.declarator g).1)
      (do
        let _ ← Parse.advance
        return (← Parse.declarator g').1) :=
    .bind advance fun _ => .bind (declarator h) fun p => .pure p.1
  exact .bind (collectWhile hothers) fun _ => hclose

theorem namespaceBody : Suffices (n + 1) (Parse.namespaceBody g) (Parse.namespaceBody g') :=
  .advance_bind fun _ => .bind (eat? _) fun _ => .bind (expect _) fun _ =>
    .bind (collectWhile h.declaration) fun _ => .bind (expect _) fun _ => close

theorem declaration : Suffices (n + 1) (Parse.declaration g) (Parse.declaration g') :=
  .look fun _ => .ite (namespaceBody h) (simpleDeclaration h _)

/-! ### Statements -/

theorem condition : Suffices (n + 1) (Parse.condition g) (Parse.condition g') := by
  refine .look fun s => .ite ?_ (assignment h)
  exact .look fun _ => .bind (specifiers h) fun _ => .bind (declarator h) fun _ => close

theorem controlCondition :
    Suffices (n + 1) (Parse.controlCondition g) (Parse.controlCondition g') :=
  .bind (expect _) fun lparen => .bind (condition h) fun c => .bind (expect _) fun rparen =>
    .pure (lparen, c, rparen)

theorem expressionBefore? (k : TokenKind) :
    Suffices (n + 1) (Parse.expressionBefore? g k) (Parse.expressionBefore? g' k) :=
  .look fun _ => .ite (.pure none) (.bind (assignment h) fun e => .pure (some e))

theorem expressionStatement :
    Suffices (n + 1) (Parse.expressionStatement g) (Parse.expressionStatement g') :=
  .look fun _ => .bind (expressionBefore? h _) fun _ => .bind (expect _) fun _ => close

theorem declarationStatement :
    Suffices (n + 1) (Parse.declarationStatement g) (Parse.declarationStatement g') :=
  .look fun _ => .bind (simpleDeclaration h _) fun _ => close

/-- The parsers of conditions when a token was taken before. -/
theorem controlCondition_of_taken :
    Suffices n (Parse.controlCondition g) (Parse.controlCondition g') :=
  (controlCondition h).mono (Nat.le_succ n)

theorem ifStatement : Suffices (n + 1) (Parse.ifStatement g) (Parse.ifStatement g') := by
  refine .advance_bind fun keyword => .bind (controlCondition_of_taken h) fun c => ?_
  refine .bind h.statement fun thenBranch => .bind (eat? _) fun elseToken => ?_
  cases elseToken with
  | none => exact close
  | some elseToken => exact .bind h.statement fun _ => close

theorem whileStatement : Suffices (n + 1) (Parse.whileStatement g) (Parse.whileStatement g') :=
  .advance_bind fun _ => .bind (controlCondition_of_taken h) fun _ => .bind h.statement fun _ =>
    close

theorem switchStatement :
    Suffices (n + 1) (Parse.switchStatement g) (Parse.switchStatement g') :=
  .advance_bind fun _ => .bind (controlCondition_of_taken h) fun _ => .bind h.statement fun _ =>
    close

theorem doStatement : Suffices (n + 1) (Parse.doStatement g) (Parse.doStatement g') :=
  .advance_bind fun _ => .bind h.statement fun _ => .bind (expect _) fun _ =>
    .bind (expect _) fun _ => .bind ((assignment h).mono (Nat.le_succ n)) fun _ =>
      .bind (expect _) fun _ => .bind (expect _) fun _ => close

theorem forStatement : Suffices (n + 1) (Parse.forStatement g) (Parse.forStatement g') := by
  have hexpression := (expressionBefore? h .rParen).mono (Nat.le_succ n)
  refine .advance_bind fun keyword => .bind (expect _) fun lparen => .look fun s =>
    .ite (.bind ((declarationStatement h).mono (Nat.le_succ n)) fun initial => ?_)
      (.bind ((expressionStatement h).mono (Nat.le_succ n)) fun initial => ?_)
  all_goals
    refine .look fun s => .ite (.bind (.pure none) fun condition => ?_)
      (.bind ((condition h).mono (Nat.le_succ n)) fun c => .bind (.pure (some c)) fun _ => ?_)
    all_goals
      exact .bind (expect _) fun _ => .bind hexpression fun _ => .bind (expect _) fun _ =>
        .bind h.statement fun _ => close

theorem caseLabel : Suffices (n + 1) (Parse.caseLabel g) (Parse.caseLabel g') :=
  .bind advance fun _ => .bind (conditional h) fun _ => .bind (expect _) fun _ => close

omit h in
/-- A keyword with the token after it. -/
theorem marked {kind : Nat → Nat → NodeKind} (k : TokenKind) :
    Suffices n (Parse.advance >>= fun i => Parse.expect k >>= fun j => Parse.close (kind i j) i [])
      (Parse.advance >>= fun i => Parse.expect k >>= fun j => Parse.close (kind i j) i []) :=
  .bind advance fun _ => .bind (expect _) fun _ => close

theorem returnStatement :
    Suffices (n + 1) (Parse.returnStatement g) (Parse.returnStatement g') :=
  .bind advance fun _ => .bind (expressionBefore? h _) fun _ => .bind (expect _) fun _ => close

theorem statement : Suffices (n + 1) (Parse.statement g) (Parse.statement g') := by
  refine .peek_bind fun k => ?_
  split
  case h_1 => exact .fail _
  case h_2 => exact block h
  case h_3 => exact ifStatement h
  case h_4 => exact whileStatement h
  case h_5 => exact doStatement h
  case h_6 => exact forStatement h
  case h_7 => exact switchStatement h
  case h_8 => exact caseLabel h
  case h_9 | h_10 | h_11 => exact marked _
  case h_12 => exact returnStatement h
  case h_13 => exact .look fun s => .ite (declarationStatement h) (expressionStatement h)

theorem file : Suffices n (Parse.file g) (Parse.file g') :=
  .bind (collectWhile h.declaration) fun _ => close

end Parse.Suffices

/-! ### Grammars -/

namespace Grammar

variable {n : Nat} {g g' : Grammar}

/-- When there are no tokens, nothing is called through the grammar. -/
theorem covers_zero (g g' : Grammar) : g.next.Covers 0 g'.next := by
  have hfails {p p' : Parse PieceTree} {what : Expectation}
      (h : ∀ s : TokenStream, s.rest = [] → p.run s = .error (s.error what))
      (h' : ∀ s : TokenStream, s.rest = [] → p'.run s = .error (s.error what)) :
      Parse.Suffices 0 p p' := by
    intro s hs
    have hnil := List.eq_nil_of_length_eq_zero (Nat.le_zero.1 hs)
    rw [h s hnil, h' s hnil]
    exact ⟨rfl, s, what, .refl s, rfl⟩
  have hempty {p : Parse PieceTree} {what : Expectation}
      (h : ∀ i k, p.run ⟨[], i, k⟩ = .error (TokenStream.error ⟨[], i, k⟩ what)) :
      ∀ s : TokenStream, s.rest = [] → p.run s = .error (s.error what) := by
    rintro ⟨rest, i, k⟩ rfl
    exact h i k
  exact
    { assignment := hfails (hempty fun _ _ => rfl) (hempty fun _ _ => rfl)
      statement := hfails (hempty fun _ _ => rfl) (hempty fun _ _ => rfl)
      simpleDeclaration := fun _ => hfails (hempty fun _ _ => rfl) (hempty fun _ _ => rfl)
      declaration := hfails (hempty fun _ _ => rfl) (hempty fun _ _ => rfl) }

/-- **Every call through the grammar is made after a token was taken.**  What the parsers do on
`n + 1` tokens depends on nothing but what the grammar does on `n` tokens. -/
theorem Covers.next (h : g.Covers n g') : g.next.Covers (n + 1) g'.next where
  assignment := .assignment h
  statement := .statement h
  simpleDeclaration := .simpleDeclaration h
  declaration := .declaration h

/-- **A round for every token is enough.**  More rounds do the same, as long as there is a round for
every token that is left, and one more. -/
theorem covers_forTokens (n d : Nat) : (forTokens (n + 1)).Covers n (forTokens (n + 1 + d)) := by
  induction n with
  | zero =>
    rw [Nat.add_right_comm]
    exact covers_zero _ _
  | succ n ih =>
    rw [Nat.add_right_comm (n + 1)]
    exact ih.next

end Grammar

/-- Files are read alike in any number of rounds that is enough. -/
theorem Parse.file_run_eq {s : TokenStream} {n : Nat} (h : s.rest.length < n) :
    (Parse.file (Grammar.forTokens n)).run s =
      (Parse.file (Grammar.forTokens (s.rest.length + 1))).run s := by
  obtain ⟨d, rfl⟩ := Nat.exists_eq_add_of_lt h
  rw [Nat.add_right_comm]
  exact (Parse.Suffices.file (Grammar.covers_forTokens s.rest.length d) s (Nat.le_refl _)).1

/-- Tokens without a tree have an error at one of them or behind all of them. -/
theorem PieceTree.exists_isTail_of_ofTokens {tokens : List Token} {length : Nat} {e : SyntaxError}
    (h : ofTokens tokens length = .error e) :
    ∃ (s : TokenStream) (what : Expectation), s.IsTail ⟨tokens, 0, length⟩ ∧ e = s.error what := by
  have hfile := (Parse.Suffices.file (Grammar.covers_forTokens tokens.length 0)
    ⟨tokens, 0, length⟩ (Nat.le_refl _)).2
  rw [ofTokens] at h
  split at h
  next => cases h
  next e' hrun =>
    cases h
    rw [hrun] at hfile
    exact hfile

/-- **The tree of a file that was read in more rounds** than its length asks for. -/
theorem PieceTree.ofTokens_of_yields {tokens : List Token} {length d : Nat} {t : PieceTree}
    {s : TokenStream} (h : (Parse.file (Grammar.forTokens (tokens.length + 1 + d))).Yields
      ⟨tokens, 0, length⟩ t s) : ofTokens tokens length = .ok t := by
  rw [Parse.Yields, Parse.file_run_eq (by simp only; omega)] at h
  rw [ofTokens, h]

end Mend
