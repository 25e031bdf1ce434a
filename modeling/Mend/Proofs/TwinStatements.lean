import Mend.Proofs.TwinDeclarations

/-!
# Statements side by side

Every parser of a statement, and that of a whole file, reads the same in two runs whose states
belong together.

## Main results

* `Twin.MatchesAt.statement` — statements, except for the one that another one stands for.
* `Twin.Matches.file` — files.
-/

namespace Mend

namespace Twin

open Parse Movable

variable {σ : Twin} {g g' : Grammar} {ts : List PieceTree} (hσ : σ.Couples g g')

include hσ

namespace Matches

/-! ### Parts of statements -/

theorem condition : σ.Matches ts (Parse.condition g) (Parse.condition g') := by
  refine .ite (fun h => isConditionDeclarationNext_eq_of_lookAlike h) ?_ (assignment hσ)
  refine .look fun s s' _ hposition => Matches.bind (specifiers hσ) fun found => ?_
  rw [hposition]
  refine Matches.bind (declarator hσ) fun p => close_congr rfl (by simp) ?_
  rw [List.map_append]
  rfl

theorem controlCondition :
    σ.Matches ts (Parse.controlCondition g) (Parse.controlCondition g') := by
  refine Matches.bind (expect _) fun lparen => Matches.bind (condition hσ) fun condition => ?_
  exact Matches.bind (expect _) fun rparen => .pure (x := (lparen, condition, rparen)) (by simp)

theorem expressionBefore? (k : TokenKind) :
    σ.Matches ts (Parse.expressionBefore? g k) (Parse.expressionBefore? g' k) :=
  .ite (fun h => TokenStream.isAt_eq_of_lookAlike h _) (.pure (x := none) (by simp))
    (Matches.bind (assignment hσ) fun e => .pure (x := some e) (by simp))

theorem expressionStatement :
    σ.Matches ts (Parse.expressionStatement g) (Parse.expressionStatement g') := by
  refine .look fun s s' _ hposition => Matches.bind (expressionBefore? hσ _) fun expression => ?_
  rw [hposition]
  exact Matches.bind (expect _) fun semicolon => close_congr rfl (by simp) (by simp)

theorem declarationStatement :
    σ.Matches ts (Parse.declarationStatement g) (Parse.declarationStatement g') := by
  refine .look fun s s' _ hposition => Matches.bind (simpleDeclaration hσ _) fun declared => ?_
  rw [hposition]
  exact close rfl (by simp)

/-! ### Statements by their keyword -/

theorem whileStatement :
    σ.Matches ts (Parse.whileStatement g) (Parse.whileStatement g') :=
  Matches.bind advance fun keyword => Matches.bind (controlCondition hσ) fun c =>
    Matches.bind (hσ.statement _) fun body => close rfl (by simp)

theorem doStatement : σ.Matches ts (Parse.doStatement g) (Parse.doStatement g') :=
  Matches.bind advance fun keyword => Matches.bind (hσ.statement _) fun body =>
    Matches.bind (expect _) fun whileToken => Matches.bind (expect _) fun lparen =>
      Matches.bind (assignment hσ) fun expression => Matches.bind (expect _) fun rparen =>
        Matches.bind (expect _) fun semicolon => close rfl (by simp)

theorem forStatement : σ.Matches ts (Parse.forStatement g) (Parse.forStatement g') := by
  refine Matches.bind advance fun keyword => Matches.bind (expect _) fun lparen => ?_
  have hend {us : List PieceTree} {initial : PieceTree} (condition : Option PieceTree)
      (hinitial : initial ∈ us) (hcondition : condition.toList ⊆ us) : σ.Matches us
      (do
        let semicolon ← Parse.expect .semicolon
        let expression ← Parse.expressionBefore? g .rParen
        let rparen ← Parse.expect .rParen
        let body ← g.statement
        Parse.close (.forStatement keyword lparen semicolon rparen condition.isSome) keyword
          (initial :: (condition.toList ++ expression.toList ++ [body])))
      (do
        let semicolon ← Parse.expect .semicolon
        let expression ← Parse.expressionBefore? g' .rParen
        let rparen ← Parse.expect .rParen
        let body ← g'.statement
        Parse.close (.forStatement (σ.carry keyword) (σ.carry lparen) semicolon rparen
            (σ.carry condition).isSome) (σ.carry keyword)
          (σ.carry initial :: ((σ.carry condition).toList ++ expression.toList ++ [body]))) := by
    refine Matches.bind (expect _) fun semicolon => ?_
    refine Matches.bind (expressionBefore? hσ _) fun expression => ?_
    refine Matches.bind (expect _) fun rparen => Matches.bind (hσ.statement _) fun body => ?_
    have hsome : (σ.carry condition).isSome = condition.isSome := Option.isSome_map
    rw [hsome]
    refine close_congr rfl ?_ ?_
    · refine List.cons_subset.2 ⟨by simp [hinitial], List.append_subset.2 ⟨?_, by simp⟩⟩
      exact List.append_subset.2 ⟨List.Subset.trans hcondition (by simp), by simp⟩
    · simp
  have hcondition {us : List PieceTree} {initial : PieceTree} (hinitial : initial ∈ us) :
      σ.Matches us
      (do
        let condition ←
          if (← get).isAt .semicolon then pure none else do pure (some (← Parse.condition g))
        let semicolon ← Parse.expect .semicolon
        let expression ← Parse.expressionBefore? g .rParen
        let rparen ← Parse.expect .rParen
        let body ← g.statement
        Parse.close (.forStatement keyword lparen semicolon rparen condition.isSome) keyword
          (initial :: (condition.toList ++ expression.toList ++ [body])))
      (do
        let condition ←
          if (← get).isAt .semicolon then pure none else do pure (some (← Parse.condition g'))
        let semicolon ← Parse.expect .semicolon
        let expression ← Parse.expressionBefore? g' .rParen
        let rparen ← Parse.expect .rParen
        let body ← g'.statement
        Parse.close (.forStatement (σ.carry keyword) (σ.carry lparen) semicolon rparen
            condition.isSome) (σ.carry keyword)
          (σ.carry initial :: (condition.toList ++ expression.toList ++ [body]))) := by
    refine .ite (fun h => TokenStream.isAt_eq_of_lookAlike h _) ?_ ?_
    · exact hend none hinitial (by simp)
    · exact Matches.bind (condition hσ) fun c => hend (some c) (by simp [hinitial])
        (by simp)
  refine .ite (fun h => isDeclarationNext_eq_of_lookAlike h) ?_ ?_
  · exact Matches.bind (declarationStatement hσ) fun initial => hcondition (by simp)
  · exact Matches.bind (expressionStatement hσ) fun initial => hcondition (by simp)

theorem switchStatement :
    σ.Matches ts (Parse.switchStatement g) (Parse.switchStatement g') :=
  Matches.bind advance fun keyword => Matches.bind (controlCondition hσ) fun c =>
    Matches.bind (hσ.statement _) fun body => close rfl (by simp)

theorem caseLabel : σ.Matches ts (Parse.caseLabel g) (Parse.caseLabel g') :=
  Matches.bind advance fun keyword => Matches.bind (conditional hσ) fun expression =>
    Matches.bind (expect _) fun colon => close rfl (by simp)

omit hσ in
theorem defaultLabel : σ.Matches ts Parse.defaultLabel Parse.defaultLabel :=
  Matches.bind advance fun keyword => Matches.bind (expect _) fun colon => close rfl (by simp)

omit hσ in
theorem breakStatement : σ.Matches ts Parse.breakStatement Parse.breakStatement :=
  Matches.bind advance fun keyword => Matches.bind (expect _) fun semicolon => close rfl (by simp)

omit hσ in
theorem continueStatement : σ.Matches ts Parse.continueStatement Parse.continueStatement :=
  Matches.bind advance fun keyword => Matches.bind (expect _) fun semicolon => close rfl (by simp)

theorem returnStatement :
    σ.Matches ts (Parse.returnStatement g) (Parse.returnStatement g') := by
  refine Matches.bind advance fun keyword => ?_
  refine Matches.bind (expressionBefore? hσ _) fun expression => ?_
  exact Matches.bind (expect _) fun semicolon => close_congr rfl (by simp) (by simp)

end Matches

/-- An `if` statement, unless another one stands for it. -/
theorem MatchesAt.ifStatement {ph : Phase} {s s' : TokenStream}
    (hs : ∀ p : Piece, p.kind.ifKeyword? = some s.position → ¬σ.IsSwapped p) :
    σ.MatchesAt ph s s' ts (Parse.ifStatement g) (Parse.ifStatement g') := by
  refine Matches.advance_bind (f := fun keyword => Parse.controlCondition g >>= fun c =>
    branches g keyword c.1 c.2.2 c.2.1) ?_
  refine Matches.bind (Matches.controlCondition hσ) fun c => ?_
  refine Matches.bind (hσ.statement _) fun thenBranch => ?_
  refine Matches.bind (Matches.eat? _) fun elseToken => ?_
  cases elseToken with
  | some elseToken =>
    exact Matches.bind (hσ.statement _) fun elseBranch =>
      .close_of_not_isSwapped (fun _ => hs _ rfl) (by simp)
  | none => exact .close_of_not_isSwapped (fun _ => hs _ rfl) (by simp)

/-- A statement, unless another one stands for it. -/
theorem MatchesAt.statement {ph : Phase} {s s' : TokenStream}
    (hs : s.next? = some .kwIf →
      ∀ p : Piece, p.kind.ifKeyword? = some s.position → ¬σ.IsSwapped p) :
    σ.MatchesAt ph s s' ts (Parse.statement g) (Parse.statement g') := by
  refine .peek_bind ?_
  split
  case h_1 => exact Matches.fail _ ph s s'
  case h_2 => exact Matches.block hσ ph s s'
  case h_3 hif => exact .ifStatement hσ (hs hif)
  case h_4 => exact Matches.whileStatement hσ ph s s'
  case h_5 => exact Matches.doStatement hσ ph s s'
  case h_6 => exact Matches.forStatement hσ ph s s'
  case h_7 => exact Matches.switchStatement hσ ph s s'
  case h_8 => exact Matches.caseLabel hσ ph s s'
  case h_9 => exact Matches.defaultLabel ph s s'
  case h_10 => exact Matches.breakStatement ph s s'
  case h_11 => exact Matches.continueStatement ph s s'
  case h_12 => exact Matches.returnStatement hσ ph s s'
  case h_13 =>
    exact Matches.ite (fun h => isDeclarationNext_eq_of_lookAlike h)
      (Matches.declarationStatement hσ) (Matches.expressionStatement hσ) ph s s'

/-- A file. -/
theorem Matches.file (hzero : σ.mark 0 = 0) : σ.Matches ts (Parse.file g) (Parse.file g') := by
  have hdeclarations : Items σ ts (fun s => !s.rest.isEmpty) g.declaration g'.declaration :=
    { sees := fun h => by rw [h.isEmpty]
      stops := fun h => by simp [h]
      shrinks := fun {s} _ => (hσ.sound.declaration s).imp fun _ _ h => h.takes.length_lt (by simp)
      shrinks' := fun {s} _ =>
        (hσ.sound'.declaration s).imp fun _ _ h => h.takes.length_lt (by simp)
      item := hσ.declaration ts }
  refine Matches.bind (collectWhile hdeclarations) fun declarations => ?_
  have hclose : σ.Matches (ts ++ trees declarations) (Parse.close .file 0 declarations) _ :=
    close rfl (by simp)
  rw [hzero] at hclose
  exact hclose

end Twin

end Mend
