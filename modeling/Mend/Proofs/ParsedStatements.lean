import Mend.Proofs.ParsedDeclarations

/-!
# Statements and files are laid out

Every parser of a statement takes the tokens of one tree, and the tree is laid out.  With that all
the parsers keep their promise when those that they contain do.  A grammar for no tokens at all
fails and so promises everything; by induction on the number of tokens, every grammar is sound.

## Main results

* `Parse.statement_ensures` — the promise for statements.
* `Grammar.isSound_forTokens` — the parsers for any number of tokens keep their promise.
* `PieceTree.isLaid_of_ofTokens_eq_ok` — **the tree of a file is laid out** and covers its tokens.
-/

namespace Mend

namespace Parse

open TokenStream TokenRun NodeKind

variable {g : Grammar} {s : TokenStream}

/-- The tree of a statement without branches is laid out, and no operator joins two operands
there. -/
theorem close_statement_ensures {s₀ : TokenStream} {kind : NodeKind} {first : Nat}
    {cs : List PieceTree} (hif : kind.isIf = false) (hbinary : kind.isBinary = false)
    (h : s₀.Takes (interleave (kind.slots (cs.map (·.label.kind))) (cs.map PieceTree.run)) s)
    (hlt : s₀.position < s.position) (hfirst : first = s₀.position) (hcs : ∀ c ∈ cs, c.IsLaid) :
    (close kind first cs).Ensures s fun t s' =>
      s₀.Reads t s' ∧ t.label.kind.isBinary = false :=
  (close_ensures_kind hif h hlt hfirst hcs).imp fun _ _ ht => ⟨ht.1, ht.2 ▸ hbinary⟩

/-! ### Parts of statements -/

theorem condition_ensures (hg : g.IsSound) : (condition g).Ensures s s.Reads := by
  refine .get_bind <| .ite (fun _ => .get_bind ?_) fun _ => assignment_ensures hg
  refine (specifiers_ensures hg).bind fun specifiers s₁ h₁ => ?_
  refine (declarator_ensures hg).bind fun p s₂ h₂ => ?_
  have h := h₁.append h₂.readsAll
  refine close_ensures rfl ?_ (h.takes.lt (by simp)) rfl h.isLaid
  simpa [slots, interleave] using h.takes

theorem controlCondition_ensures (hg : g.IsSound) :
    (controlCondition g).Ensures s fun p s' =>
      s.Takes [.single p.1, p.2.1.run, .single p.2.2] s' ∧ p.2.1.IsLaid := by
  refine (expect_ensures .lParen).bind fun lparen s₁ h₁ => ?_
  refine (condition_ensures hg).bind fun condition s₂ h₂ => ?_
  refine (expect_ensures .rParen).bind fun rparen s₃ h₃ => .pure ?_
  exact ⟨(h₁.append h₂.takes).append h₃, h₂.isLaid⟩

theorem expressionBefore?_ensures (hg : g.IsSound) (k : TokenKind) :
    (expressionBefore? g k).Ensures s fun o s' => s.ReadsAll o.toList s' :=
  .get_bind <| .ite (fun _ => .pure (.nil (.refl s))) fun _ =>
    (assignment_ensures hg).bind fun _ _ h => .pure h.readsAll

theorem expressionStatement_ensures (hg : g.IsSound) :
    (expressionStatement g).Ensures s fun t s' => s.Reads t s' ∧ t.label.kind.isBinary = false := by
  refine .get_bind <| (expressionBefore?_ensures hg .semicolon).bind fun expression s₁ h₁ => ?_
  refine (expect_ensures .semicolon).bind fun semicolon s₂ h₂ => ?_
  have h := h₁.takes.append h₂
  refine close_statement_ensures rfl rfl ?_ (h.lt (by simp)) rfl h₁.isLaid
  simpa [slots, interleave, List.take_of_length_le, List.drop_of_length_le] using h

theorem declarationStatement_ensures (hg : g.IsSound) :
    (declarationStatement g).Ensures s fun t s' =>
      s.Reads t s' ∧ t.label.kind.isBinary = false := by
  refine .get_bind <| (simpleDeclaration_ensures hg _).bind fun declared s₁ h₁ => ?_
  obtain ⟨h₁, -⟩ := h₁
  refine close_statement_ensures rfl rfl ?_ (h₁.takes.lt (by simp)) rfl h₁.readsAll.isLaid
  simpa [slots, interleave] using h₁.takes

/-! ### Statements by their keyword -/

theorem ifStatement_ensures (hg : g.IsSound) (hs : s.rest ≠ []) :
    (ifStatement g).Ensures s fun t s' => s.Reads t s' ∧ t.label.kind.isBinary = false := by
  refine (advance_ensures hs).bind fun keyword s₁ h₁ => ?_
  obtain ⟨rfl, h₁⟩ := h₁
  refine (controlCondition_ensures hg).bind fun p s₂ h₂ => ?_
  obtain ⟨h₂, hcondition⟩ := h₂
  refine (hg.statement s₂).bind fun thenBranch s₃ h₃ => ?_
  obtain ⟨h₃, hthen⟩ := h₃
  have h := (h₁.append h₂).append h₃.takes
  refine eat?_bind (fun elseToken s₄ h₄ => ?_) ?_
  · refine (hg.statement s₄).bind fun elseBranch s₅ h₅ => ?_
    obtain ⟨h₅, helse⟩ := h₅
    have h := (h.append h₄).append h₅.takes
    refine (close_ensures_of_branches (fun _ => by simp [hthen, helse]) ?_ (h.lt (by simp)) rfl
      (by simp [hcondition, h₃.isLaid, h₅.isLaid])).imp fun t s' ht => ⟨ht.1, ht.2 ▸ rfl⟩
    simpa [slots, interleave] using h
  · refine (close_ensures_of_branches (fun _ => by simp [hthen]) ?_ (h.lt (by simp)) rfl
      (by simp [hcondition, h₃.isLaid])).imp fun t s' ht => ⟨ht.1, ht.2 ▸ rfl⟩
    simpa [slots, interleave] using h

/-- A statement that is a keyword, a condition and a body. -/
theorem whileStatement_ensures (hg : g.IsSound) (hs : s.rest ≠ []) :
    (whileStatement g).Ensures s fun t s' => s.Reads t s' ∧ t.label.kind.isBinary = false := by
  refine (advance_ensures hs).bind fun keyword s₁ h₁ => ?_
  obtain ⟨rfl, h₁⟩ := h₁
  refine (controlCondition_ensures hg).bind fun p s₂ h₂ => ?_
  obtain ⟨h₂, hcondition⟩ := h₂
  refine (hg.statement s₂).bind fun body s₃ h₃ => ?_
  obtain ⟨h₃, -⟩ := h₃
  have h := (h₁.append h₂).append h₃.takes
  refine close_statement_ensures rfl rfl ?_ (h.lt (by simp)) rfl
    (by simp [hcondition, h₃.isLaid])
  simpa [slots, interleave] using h

theorem switchStatement_ensures (hg : g.IsSound) (hs : s.rest ≠ []) :
    (switchStatement g).Ensures s fun t s' => s.Reads t s' ∧ t.label.kind.isBinary = false := by
  refine (advance_ensures hs).bind fun keyword s₁ h₁ => ?_
  obtain ⟨rfl, h₁⟩ := h₁
  refine (controlCondition_ensures hg).bind fun p s₂ h₂ => ?_
  obtain ⟨h₂, hcondition⟩ := h₂
  refine (hg.statement s₂).bind fun body s₃ h₃ => ?_
  obtain ⟨h₃, -⟩ := h₃
  have h := (h₁.append h₂).append h₃.takes
  refine close_statement_ensures rfl rfl ?_ (h.lt (by simp)) rfl
    (by simp [hcondition, h₃.isLaid])
  simpa [slots, interleave] using h

theorem doStatement_ensures (hg : g.IsSound) (hs : s.rest ≠ []) :
    (doStatement g).Ensures s fun t s' => s.Reads t s' ∧ t.label.kind.isBinary = false := by
  refine (advance_ensures hs).bind fun keyword s₁ h₁ => ?_
  obtain ⟨rfl, h₁⟩ := h₁
  refine (hg.statement s₁).bind fun body s₂ h₂ => ?_
  obtain ⟨h₂, -⟩ := h₂
  refine (expect_ensures .kwWhile).bind fun whileToken s₃ h₃ => ?_
  refine (expect_ensures .lParen).bind fun lparen s₄ h₄ => ?_
  refine (assignment_ensures hg).bind fun expression s₅ h₅ => ?_
  refine (expect_ensures .rParen).bind fun rparen s₆ h₆ => ?_
  refine (expect_ensures .semicolon).bind fun semicolon s₇ h₇ => ?_
  have h := (((((h₁.append h₂.takes).append h₃).append h₄).append h₅.takes).append h₆).append h₇
  refine close_statement_ensures rfl rfl ?_ (h.lt (by simp)) rfl
    (by simp [h₂.isLaid, h₅.isLaid])
  simpa [slots, interleave] using h

theorem forStatement_ensures (hg : g.IsSound) (hs : s.rest ≠ []) :
    (forStatement g).Ensures s fun t s' => s.Reads t s' ∧ t.label.kind.isBinary = false := by
  refine (advance_ensures hs).bind fun keyword s₁ h₁ => ?_
  obtain ⟨rfl, h₁⟩ := h₁
  refine (expect_ensures .lParen).bind fun lparen s₂ h₂ => .get_bind ?_
  have hinitial : (if isDeclarationNext s₂ then declarationStatement g
      else expressionStatement g).Ensures s₂ s₂.Reads :=
    .ite (fun _ => (declarationStatement_ensures hg).imp fun _ _ h => h.1)
      fun _ => (expressionStatement_ensures hg).imp fun _ _ h => h.1
  refine .ite_bind hinitial fun initial s₃ h₃ => .get_bind ?_
  -- what follows the condition, whether there is one or not
  have hrest : ∀ (condition : Option PieceTree) (s₄ : TokenStream),
      s₃.ReadsAll condition.toList s₄ → (do
        let semicolon ← expect .semicolon
        let expression ← expressionBefore? g .rParen
        let rparen ← expect .rParen
        let body ← g.statement
        close (.forStatement s.position lparen semicolon rparen condition.isSome) s.position
          (initial :: (condition.toList ++ expression.toList ++ [body]))).Ensures s₄ fun t s' =>
        s.Reads t s' ∧ t.label.kind.isBinary = false := by
    intro condition s₄ h₄
    refine (expect_ensures .semicolon).bind fun semicolon s₅ h₅ => ?_
    refine (expressionBefore?_ensures hg .rParen).bind fun expression s₆ h₆ => ?_
    refine (expect_ensures .rParen).bind fun rparen s₇ h₇ => ?_
    refine (hg.statement s₇).bind fun body s₈ h₈ => ?_
    obtain ⟨h₈, -⟩ := h₈
    have h := ((((((h₁.append h₂).append h₃.takes).append h₄.takes).append h₅).append
      h₆.takes).append h₇).append h₈.takes
    refine close_statement_ensures rfl rfl ?_ (h.lt (by simp)) rfl
      (List.forall_mem_cons.2 ⟨h₃.isLaid, ?_⟩)
    · cases condition <;> cases expression <;> simpa [slots, interleave] using h
    · exact List.forall_mem_append.2
        ⟨List.forall_mem_append.2 ⟨h₄.isLaid, h₆.isLaid⟩, h₈.readsAll.isLaid⟩
  let Q (o : Option PieceTree) (s' : TokenStream) : Prop := s₃.ReadsAll o.toList s'
  refine .ite (fun _ => ?_) fun _ => ?_
  · exact Ensures.bind (.pure (show Q none s₃ from .nil (.refl s₃))) hrest
  · exact (condition_ensures hg).bind fun c s₄ h =>
      Ensures.bind (.pure (show Q (some c) s₄ from h.readsAll)) hrest

theorem caseLabel_ensures (hg : g.IsSound) (hs : s.rest ≠ []) :
    (caseLabel g).Ensures s fun t s' => s.Reads t s' ∧ t.label.kind.isBinary = false := by
  refine (advance_ensures hs).bind fun keyword s₁ h₁ => ?_
  obtain ⟨rfl, h₁⟩ := h₁
  refine (conditional_ensures hg).bind fun expression s₂ h₂ => ?_
  refine (expect_ensures .colon).bind fun colon s₃ h₃ => ?_
  have h := (h₁.append h₂.takes).append h₃
  refine close_statement_ensures rfl rfl ?_ (h.lt (by simp)) rfl h₂.readsAll.isLaid
  simpa [slots, interleave] using h

/-- A statement that is a keyword and a punctuation mark. -/
theorem marked_ensures {kind : Nat → Nat → NodeKind} {k : TokenKind} (hs : s.rest ≠ [])
    (hkind : ∀ keyword mark, (kind keyword mark).slots [] = [([keyword], 0), ([mark], 0)])
    (hif : ∀ keyword mark, (kind keyword mark).isIf = false)
    (hbinary : ∀ keyword mark, (kind keyword mark).isBinary = false) :
    (do
      let keyword ← advance
      let mark ← expect k
      close (kind keyword mark) keyword []).Ensures s fun t s' =>
        s.Reads t s' ∧ t.label.kind.isBinary = false := by
  refine (advance_ensures hs).bind fun keyword s₁ h₁ => ?_
  obtain ⟨rfl, h₁⟩ := h₁
  refine (expect_ensures k).bind fun mark s₂ h₂ => ?_
  have h := h₁.append h₂
  refine close_statement_ensures (hif _ _) (hbinary _ _) ?_ (h.lt (by simp)) rfl (by simp)
  simpa [hkind, interleave] using h

theorem returnStatement_ensures (hg : g.IsSound) (hs : s.rest ≠ []) :
    (returnStatement g).Ensures s fun t s' => s.Reads t s' ∧ t.label.kind.isBinary = false := by
  refine (advance_ensures hs).bind fun keyword s₁ h₁ => ?_
  obtain ⟨rfl, h₁⟩ := h₁
  refine (expressionBefore?_ensures hg .semicolon).bind fun expression s₂ h₂ => ?_
  refine (expect_ensures .semicolon).bind fun semicolon s₃ h₃ => ?_
  have h := (h₁.append h₂.takes).append h₃
  refine close_statement_ensures rfl rfl ?_ (h.lt (by simp)) rfl h₂.isLaid
  simpa [slots, interleave, List.take_of_length_le, List.drop_of_length_le] using h

theorem statement_ensures (hg : g.IsSound) :
    (statement g).Ensures s fun t s' => s.Reads t s' ∧ t.label.kind.isBinary = false := by
  refine peek_ensures.bind fun k s₁ h₁ => ?_
  obtain ⟨rfl, rfl⟩ := h₁
  have hne : ∀ {k}, s₁.next? = some k → s₁.rest ≠ [] := rest_ne_nil_of_next?_eq_some
  split
  case h_1 => exact fail_ensures _
  case h_2 => exact block_ensures hg
  case h_3 h => exact ifStatement_ensures hg (hne h)
  case h_4 h => exact whileStatement_ensures hg (hne h)
  case h_5 h => exact doStatement_ensures hg (hne h)
  case h_6 h => exact forStatement_ensures hg (hne h)
  case h_7 h => exact switchStatement_ensures hg (hne h)
  case h_8 h => exact caseLabel_ensures hg (hne h)
  case h_9 h => exact marked_ensures (hne h) (fun _ _ => rfl) (fun _ _ => rfl) fun _ _ => rfl
  case h_10 h => exact marked_ensures (hne h) (fun _ _ => rfl) (fun _ _ => rfl) fun _ _ => rfl
  case h_11 h => exact marked_ensures (hne h) (fun _ _ => rfl) (fun _ _ => rfl) fun _ _ => rfl
  case h_12 h => exact returnStatement_ensures hg (hne h)
  case h_13 =>
    exact .get_bind <| .ite (fun _ => declarationStatement_ensures hg)
      fun _ => expressionStatement_ensures hg

/-! ### Files -/

/-- A file: the tree covers all tokens, and at least one unless there is none. -/
theorem file_ensures (hg : g.IsSound) (hs : s.position = 0) :
    (file g).Ensures s fun t s' => t.IsLaid ∧ t.label.kind = .file ∧ s'.total = s.total ∧
      t.label.first = 0 ∧ t.label.last = s'.position - 1 := by
  refine (collectTrees_ensures (fun s _ => (hg.declaration s).imp fun _ _ h => h.readsAll) s).bind
    fun declarations s₁ h₁ => ?_
  rintro t s' ht
  cases ht
  refine ⟨Rose.all_node.2 ⟨⟨Nat.le_max_left _ _, ?_, nofun⟩, h₁.isLaid⟩, rfl,
    h₁.takes.total_eq, rfl, ?_⟩
  · have h := h₁.takes.inOrder
    rw [hs] at h
    have hrun : (declarations.map Rose.label).map Piece.run = declarations.map PieceTree.run := by
      rw [List.map_map]
      rfl
    rw [Piece.layout, hrun]
    exact h.mono (Nat.le_refl _) (by show s₁.position ≤ max 0 (s₁.position - 1) + 1; omega)
  · exact Nat.zero_max _

end Parse

namespace Grammar

open Parse

/-- Parsers that are made of others which keep their promise keep it too. -/
theorem IsSound.next {g : Grammar} (hg : g.IsSound) : g.next.IsSound where
  assignment _ := assignment_ensures hg
  statement _ := statement_ensures hg
  simpleDeclaration place _ := simpleDeclaration_ensures hg place
  declaration _ := declaration_ensures hg

/-- **The parsers for any number of tokens keep their promise.** -/
theorem isSound_forTokens (n : Nat) : (forTokens n).IsSound := by
  induction n with
  | zero =>
    exact ⟨fun _ => fail_ensures _, fun _ => fail_ensures _, fun _ _ => fail_ensures _,
      fun _ => fail_ensures _⟩
  | succ n ih => exact ih.next

end Grammar

namespace PieceTree

/-- **The tree of a file is laid out.**  It begins with the first token and ends with the last one,
if there is one. -/
theorem isLaid_of_ofTokens_eq_ok {tokens : List Token} {length : Nat} {t : PieceTree}
    (h : ofTokens tokens length = .ok t) : t.IsLaid ∧ t.label.kind = .file ∧ t.label.first = 0 ∧
      t.label.last ≤ tokens.length - 1 := by
  unfold ofTokens at h
  split at h
  next t' s hrun =>
    cases h
    obtain ⟨hlaid, hkind, htotal, hfirst, hlast⟩ :=
      Parse.file_ensures (Grammar.isSound_forTokens _) rfl _ _ hrun
    refine ⟨hlaid, hkind, hfirst, ?_⟩
    simp only [TokenStream.total] at htotal
    omega
  next => cases h

end PieceTree

end Mend
