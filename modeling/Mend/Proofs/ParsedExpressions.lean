import Mend.Proofs.ParserRules

/-!
# Expressions are laid out

Every parser of an expression or a name takes the tokens of one tree, and the tree is laid out.
A parser that contains others through the grammar keeps this promise when the grammar does.

## Main definitions

* `Grammar.IsSound` — the parsers of a grammar keep their promise.

## Main results

* `Parse.name_ensures`, `Parse.conditional_ensures`, `Parse.assignment_ensures` — the promise for
  names and expressions.
-/

namespace Mend

/-- The parsers of a grammar take the tokens of one tree each.  No declaration is a name, and no
statement is a binary expression. -/
structure Grammar.IsSound (g : Grammar) : Prop where
  /-- An expression. -/
  assignment : ∀ s : TokenStream, g.assignment.Ensures s s.Reads
  /-- A statement. -/
  statement : ∀ s : TokenStream, g.statement.Ensures s fun t s' =>
    s.Reads t s' ∧ t.label.kind.isBinary = false
  /-- A declaration that is no namespace. -/
  simpleDeclaration : ∀ (place : DeclarationPlace) (s : TokenStream),
    (g.simpleDeclaration place).Ensures s fun t s' => s.Reads t s' ∧ t.label.kind.isName = false
  /-- A declaration. -/
  declaration : ∀ s : TokenStream, g.declaration.Ensures s s.Reads

namespace Parse

open TokenStream TokenRun NodeKind

variable {g : Grammar} {s s₀ : TokenStream}

/-! ### Names -/

theorem qualifier_ensures (h : isQualifier s = true) :
    qualifier.Ensures s fun i s' => s.Takes [.single i] s' := by
  obtain ⟨rest, position, length⟩ := s
  match rest, h with
  | t :: u :: v :: rest, _ =>
    refine advance_ensures_tail.bind fun name s₁ h₁ => ?_
    obtain ⟨rfl, rfl⟩ := h₁
    refine (advance_ensures (by simp [tail])).bind fun _ s₂ h₂ => .pure ?_
    exact (takes_tail (by simp)).append h₂.2.nil

theorem unqualifiedName_ensures :
    unqualifiedName.Ensures s fun t s' => s.Reads t s' ∧ t.label.kind.isName = true := by
  refine .get_bind ?_
  refine eat?_bind (fun tilde s₁ h₁ => ?_) ?_
  · refine (expectName_ensures .className).bind fun token s₂ h₂ => ?_
    have h := h₁.append h₂
    refine (close_ensures_kind rfl ?_ (h.lt (by simp)) rfl (by simp)).imp
      fun t s' ht => ⟨ht.1, ht.2 ▸ rfl⟩
    simpa [slots, interleave] using h
  · refine (expectName_ensures .name).bind fun token s₁ h => ?_
    refine (close_ensures_kind rfl ?_ (h.lt (by simp)) rfl (by simp)).imp
      fun t s' ht => ⟨ht.1, ht.2 ▸ rfl⟩
    simpa [slots, interleave] using h

theorem name_ensures : name.Ensures s fun t s' => s.Reads t s' ∧ t.label.kind.isName = true := by
  refine .get_bind ?_
  refine (eat?_ensures .colonColon).bind fun colons s₁ h₁ => ?_
  refine (collectTokens_ensures (fun _ => qualifier_ensures) s₁).bind fun qualifiers s₂ h₂ => ?_
  refine unqualifiedName_ensures.bind fun unqualified s₃ h₃ => ?_
  obtain ⟨h₃, hname⟩ := h₃
  refine .ite (fun hbare => .pure ⟨?_, hname⟩) fun _ => ?_
  · -- nothing was taken before the name when it begins where the tokens do
    have hfirst : unqualified.label.first = s.position := by simp_all
    exact ⟨(h₁.nil.append h₂.nil).append h₃.takes, h₃.isLaid, hfirst, h₃.last_eq⟩
  · have h := (h₁.nil.append h₂).append h₃.takes
    refine (close_ensures_kind rfl ?_ (h.lt (by simp)) rfl (by simp [h₃.isLaid])).imp
      fun t s' ht => ⟨ht.1, ht.2 ▸ rfl⟩
    simpa [slots, interleave] using h

/-! ### Operands -/

theorem leaf_ensures {kind : Nat → NodeKind} (hs : s.rest ≠ [])
    (hif : ∀ i, (kind i).isIf = false) (hkind : ∀ i, (kind i).slots [] = [([i], 0)]) :
    (leaf kind).Ensures s s.Reads := by
  refine (advance_ensures hs).bind fun token s₁ h₁ => ?_
  obtain ⟨rfl, h₁⟩ := h₁
  refine close_ensures (hif _) ?_ (h₁.lt (by simp)) rfl (by simp)
  simpa [hkind, interleave] using h₁

theorem primary_ensures (hg : g.IsSound) : (primary g).Ensures s s.Reads := by
  refine .get_bind <| .ite (fun hsigned => ?_) fun _ => ?_
  · obtain ⟨hat, hstring⟩ : s.isAt .atSign ∧ s.tail.isAt .stringLiteral := by
      simpa [isSignedString] using hsigned
    refine advance_ensures_tail.bind fun sign s₁ h₁ => ?_
    obtain ⟨rfl, rfl⟩ := h₁
    refine (advance_ensures (rest_ne_nil_of_isAt hstring)).bind fun token s₂ h₂ => ?_
    have h := (takes_tail (rest_ne_nil_of_isAt hat)).append h₂.2
    refine close_ensures rfl ?_ (h.lt (by simp)) rfl (by simp)
    simpa [slots, interleave] using h
  · refine peek_ensures.bind fun k s₁ h₁ => ?_
    obtain ⟨rfl, rfl⟩ := h₁
    have hne : ∀ {k}, s₁.next? = some k → s₁.rest ≠ [] := rest_ne_nil_of_next?_eq_some
    split
    case h_1 h | h_2 h | h_3 h | h_4 h | h_5 h | h_6 h =>
      exact leaf_ensures (hne h) (fun _ => rfl) fun _ => rfl
    case h_7 h =>
      refine (advance_ensures (hne h)).bind fun lparen s₂ h₂ => ?_
      obtain ⟨rfl, h₂⟩ := h₂
      refine (hg.assignment s₂).bind fun inner s₃ h₃ => ?_
      refine (expect_ensures .rParen).bind fun rparen s₄ h₄ => ?_
      have h := (h₂.append h₃.takes).append h₄
      refine close_ensures rfl ?_ (h.lt (by simp)) rfl (by simp [h₃.isLaid])
      simpa [slots, interleave] using h
    case h_8 | h_9 => exact name_ensures.imp fun _ _ h => h.1
    case h_10 => exact fail_ensures _

theorem rest_ne_nil_of_isSuffix (h : isSuffix s = true) : s.rest ≠ [] := by
  intro hnil
  simp [isSuffix, next?, hnil] at h

/-- Arguments, which may be missing. -/
theorem arguments_ensures (hg : g.IsSound) :
    (if s.isAt .rParen then pure [] else commaSeparated g.assignment).Ensures s s.ReadsAll := by
  refine .ite (fun _ => .pure (.nil (.refl s))) fun _ => ?_
  refine (hg.assignment s).bind fun t s₁ h₁ => ?_
  refine (collectTrees_ensures (fun s hs => ?_) s₁).bind fun ts s₂ h₂ => .pure (.cons h₁ h₂)
  refine (advance_ensures (rest_ne_nil_of_isAt hs)).bind fun _ s₁ h₁ => ?_
  exact (hg.assignment s₁).imp fun t s' ht => (ReadsAll.nil h₁.2).append ht.readsAll

theorem suffix_ensures (hg : g.IsSound) {operand : PieceTree} (h₀ : s₀.Reads operand s)
    (hs : isSuffix s = true) : (suffix g operand).Ensures s s₀.Reads := by
  refine peek_ensures.bind fun k s₁ h₁ => ?_
  obtain ⟨rfl, rfl⟩ := h₁
  have hadvance := advance_ensures (rest_ne_nil_of_isSuffix hs)
  split
  case h_1 =>
    refine hadvance.bind fun lparen s₂ h₂ => .get_bind ?_
    refine .ite_bind (arguments_ensures hg) fun arguments s₃ h₃ => ?_
    refine (expect_ensures .rParen).bind fun rparen s₄ h₄ => ?_
    have h := ((h₀.takes.append h₂.2).append h₃.takes).append h₄
    refine close_ensures rfl ?_ (h.lt (by simp)) h₀.first_eq
      (List.forall_mem_cons.2 ⟨h₀.isLaid, h₃.isLaid⟩)
    simpa [slots, interleave, List.take_of_length_le, List.drop_of_length_le] using h
  case h_2 =>
    refine hadvance.bind fun lbracket s₂ h₂ => ?_
    refine (hg.assignment s₂).bind fun index s₃ h₃ => ?_
    refine (expect_ensures .rBracket).bind fun rbracket s₄ h₄ => ?_
    have h := ((h₀.takes.append h₂.2).append h₃.takes).append h₄
    refine close_ensures rfl ?_ (h.lt (by simp)) h₀.first_eq (by simp [h₀.isLaid, h₃.isLaid])
    simpa [slots, interleave] using h
  case h_3 | h_4 =>
    refine hadvance.bind fun access s₂ h₂ => ?_
    refine name_ensures.bind fun member s₃ h₃ => ?_
    obtain ⟨h₃, -⟩ := h₃
    have h := (h₀.takes.append h₂.2).append h₃.takes
    refine close_ensures rfl ?_ (h.lt (by simp)) h₀.first_eq (by simp [h₀.isLaid, h₃.isLaid])
    simpa [slots, interleave] using h
  case h_5 =>
    refine hadvance.bind fun operator s₂ h₂ => ?_
    have h := h₀.takes.append h₂.2
    refine close_ensures rfl ?_ (h.lt (by simp)) h₀.first_eq (by simp [h₀.isLaid])
    simpa [slots, interleave] using h

theorem suffixed_ensures (hg : g.IsSound) : (suffixed g).Ensures s s.Reads :=
  (primary_ensures hg).bind fun _ _ h =>
    repeatWhile_ensures (fun _ _ h hs => suffix_ensures hg h hs) h

theorem rest_ne_nil_of_isUnaryOperator (h : isUnaryOperator s = true) : s.rest ≠ [] := by
  intro hnil
  simp [isUnaryOperator, next?, hnil] at h

/-- The operators before an operand are closed from the inside out, so what they promise is told
for every operand that may follow. -/
def Prefixes (s : TokenStream) (operators : List Nat) (s₁ : TokenStream) : Prop :=
  ∀ operand s₂, s₁.Reads operand s₂ →
    (operators.foldrM (fun operator operand => close (.unary operator) operator [operand])
      operand).Ensures s₂ s.Reads

theorem unary_ensures (hg : g.IsSound) : (unary g).Ensures s s.Reads := by
  have hoperators : (collectWhile isUnaryOperator advance).Ensures s (Prefixes s) := by
    let one (s : TokenStream) (i : Nat) (s' : TokenStream) : Prop :=
      i = s.position ∧ s.Takes [.single i] s'
    refine .get_bind <| @items_ensures _ _ _ one Prefixes ?_ ?_ ?_ _ s
    · exact fun s operand s₂ h => .pure h
    · intro s operator s₁ operators s' _ hone hmany operand s₂ hoperand
      rw [List.foldrM_cons]
      refine (hmany operand s₂ hoperand).bind fun inner s₃ h₃ => ?_
      have h := hone.2.append h₃.takes
      refine close_ensures rfl ?_ (h.lt (by simp)) hone.1 (by simp [h₃.isLaid])
      simpa [slots, interleave] using h
    · exact fun s hs => advance_ensures (rest_ne_nil_of_isUnaryOperator hs)
  -- the operand comes last, and only then are the operators closed
  refine hoperators.bind fun operators s₁ h₁ => ?_
  exact (suffixed_ensures hg).bind fun operand s₂ h₂ => h₁ operand s₂ h₂

/-! ### Operators between operands -/

theorem joined_ensures {level : Nat} {operand : Parse PieceTree}
    (hoperand : ∀ s : TokenStream, operand.Ensures s s.Reads) :
    (joined level operand).Ensures s s.Reads := by
  refine (hoperand s).bind fun left s₁ h₁ => repeatWhile_ensures (fun left s₂ h₂ hs => ?_) h₁
  have hne : s₂.rest ≠ [] := by
    intro hnil
    simp [next?, hnil] at hs
  refine (advance_ensures hne).bind fun operator s₃ h₃ => ?_
  refine (hoperand s₃).bind fun right s₄ h₄ => ?_
  have h := (h₂.takes.append h₃.2).append h₄.takes
  refine close_ensures rfl ?_ (h.lt (by simp)) h₂.first_eq (by simp [h₂.isLaid, h₄.isLaid])
  simpa [slots, interleave] using h

theorem binaryLevel_ensures (hg : g.IsSound) (n : Nat) (s : TokenStream) :
    (binaryLevel g n).Ensures s s.Reads := by
  induction n generalizing s with
  | zero => exact unary_ensures hg
  | succ n ih => exact joined_ensures ih

theorem conditional_ensures (hg : g.IsSound) : (conditional g).Ensures s s.Reads := by
  refine (binaryLevel_ensures hg 10 s).bind fun condition s₁ h₁ => ?_
  refine eat?_bind (fun question s₂ h₂ => ?_) (.pure h₁)
  refine (hg.assignment s₂).bind fun left s₃ h₃ => ?_
  refine (expect_ensures .colon).bind fun colon s₄ h₄ => ?_
  refine (hg.assignment s₄).bind fun right s₅ h₅ => ?_
  have h := (((h₁.takes.append h₂).append h₃.takes).append h₄).append h₅.takes
  refine close_ensures rfl ?_ (h.lt (by simp)) h₁.first_eq
    (by simp [h₁.isLaid, h₃.isLaid, h₅.isLaid])
  simpa [slots, interleave] using h

theorem assignment_ensures (hg : g.IsSound) : (assignment g).Ensures s s.Reads := by
  refine (conditional_ensures hg).bind fun left s₁ h₁ => ?_
  refine peek_ensures.bind fun k s₂ h₂ => ?_
  obtain ⟨rfl, rfl⟩ := h₂
  refine .ite (fun hk => ?_) fun _ => .pure h₁
  have hne : s₂.rest ≠ [] := by
    intro hnil
    simp [next?, hnil] at hk
  refine (advance_ensures hne).bind fun operator s₃ h₃ => ?_
  refine (hg.assignment s₃).bind fun right s₄ h₄ => ?_
  have h := (h₁.takes.append h₃.2).append h₄.takes
  refine close_ensures rfl ?_ (h.lt (by simp)) h₁.first_eq (by simp [h₁.isLaid, h₄.isLaid])
  simpa [slots, interleave] using h

end Parse

end Mend
