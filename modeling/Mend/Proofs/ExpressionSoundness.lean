import Mend.Proofs.ParserRuns

/-!
# Parsed expressions follow the grammar

Whatever the parsers of names and expressions read is a phrase of the grammar, and the tree is the
one that belongs to its word.  The parts that contain everything else are read by a grammar for
fewer tokens, about which the same is supposed.

Nothing else would keep a choice off the left side of an assignment than the fact that its last
part takes all assignment operators, so the promise of an expression includes the token after it.

## Main definitions

* `TokenStream.nextLevel?` — the level of the operator that comes next.
* `TokenStream.Forms` — the tokens taken are a phrase.
* `Grammar.FollowsRules` — the expressions of a grammar are phrases.
* `Parse.joinRight` — an operator and its right operand.

## Main results

* `Parse.name_forms`, `Parse.unary_forms`, `Parse.binaryLevel_forms` — the promise for names and
  operands.
* `Grammar.followsRules_forTokens` — the promise for expressions, for any number of tokens.
-/

namespace Mend

open Phrase

/-- The level of the operator that comes next. -/
def TokenStream.nextLevel? (s : TokenStream) : Option Nat := s.next?.bind TokenKind.precedence?

/-- From one state to another the tokens of a phrase are consumed: a word for which a relation
between its position, its tokens and what is read from them holds. -/
def TokenStream.Forms {α : Type} (s : TokenStream) (R : Nat → List TokenKind → α → Prop) (a : α)
    (s' : TokenStream) : Prop :=
  ∃ w, s.Consumes w s' ∧ R s.position w a

/-- The expressions that a grammar reads are phrases, and no assignment operator comes next. -/
def Grammar.FollowsRules (g : Grammar) : Prop :=
  ∀ s : TokenStream, g.assignment.Ensures s fun e s' =>
    s.Forms (Derives .assignment) [e] s' ∧ s'.next?.any TokenKind.isAssignment = false

namespace Parse

open TokenStream

variable {g : Grammar} {s s₀ m s' : TokenStream}

/-! ### What comes next -/

theorem isSuffix_eq (s : TokenStream) : isSuffix s = s.next?.any TokenKind.startsSuffix := by
  unfold isSuffix
  cases s.next? with
  | none => rfl
  | some k => cases k <;> rfl

theorem isUnaryOperator_eq (s : TokenStream) :
    isUnaryOperator s = s.next?.any TokenKind.isUnaryOperator := by
  unfold isUnaryOperator
  cases s.next? with
  | none => rfl
  | some k => cases k <;> rfl

theorem isQualifier_eq_true_iff : isQualifier s = true ↔
    s.next? = some .identifier ∧ s.tail.next? = some .colonColon ∧
      (s.tail.tail.next? = some .identifier ∨ s.tail.tail.next? = some .tilde) := by
  obtain ⟨rest, position, length⟩ := s
  match rest with
  | [] | [_] | [_, _] => simp [isQualifier, tail, next?]
  | t :: u :: v :: rest => simp [isQualifier, tail, next?, and_assoc]

/-! ### Names -/

theorem qualifiers_forms (s : TokenStream) :
    (collectWhile isQualifier qualifier).Ensures s (s.Forms Qualifiers) := by
  let one (s : TokenStream) (q : Nat) (m : TokenStream) : Prop :=
    q = s.position ∧ s.Consumes [.identifier, .colonColon] m
  let many (s : TokenStream) (qs : List Nat) (s' : TokenStream) : Prop := s.Forms Qualifiers qs s'
  refine .get_bind <| @items_ensures _ _ _ one many ?_ ?_ ?_ _ s
  · exact fun s => ⟨[], .refl s, .nil _⟩
  · rintro s q m qs s' - ⟨rfl, hone⟩ ⟨v, hv, hqs⟩
    rw [hone.position_eq] at hqs
    exact ⟨_, hone.append hv, .cons hqs⟩
  · intro s hs
    obtain ⟨hname, hcolons, -⟩ := isQualifier_eq_true_iff.1 hs
    refine (advance_yields s).bind_ensures <| (advance_yields _).bind_ensures <| .pure ?_
    exact ⟨rfl, by simp [hname, hcolons]⟩

theorem unqualifiedName_forms (s : TokenStream) :
    unqualifiedName.Ensures s (s.Forms UnqualifiedName) := by
  refine .get_bind <| eat?_bind_ensures (fun htilde => ?_) fun _ => ?_
  · refine expectName_bind_ensures fun hname => ?_
    have h : s.Consumes [.tilde, .identifier] s.tail.tail := by simp [htilde, hname]
    rw [tail_position htilde]
    exact close_ensures_spanning h (by simp) rfl ⟨_, h, .destructor _⟩
  · refine expectName_bind_ensures fun hname => ?_
    have h := consumes_singleton.2 ⟨hname, rfl⟩
    exact close_ensures_spanning h (by simp) rfl ⟨_, h, .simple _⟩

theorem name_forms (s : TokenStream) : name.Ensures s (s.Forms Name) := by
  refine .get_bind <| eat?_bind_ensures (fun hcolons => ?_) fun _ => ?_
  · refine (qualifiers_forms s.tail).bind fun qs s₁ h₁ => ?_
    refine (unqualifiedName_forms s₁).bind fun e s₂ h₂ => ?_
    obtain ⟨v, hv, hqs⟩ := h₁
    obtain ⟨w, hw, he⟩ := h₂
    have hfirst := he.first_eq
    rw [hv.position_eq] at he hfirst
    rw [tail_position hcolons] at hqs he hfirst
    refine .ite (fun hbare => ?_) fun _ => ?_
    · -- the colons come before the name, so it does not begin where the tokens do
      simp only [hfirst, Bool.and_eq_true, beq_iff_eq] at hbare
      omega
    · have h := (consumes_cons.2 ⟨hcolons, hv⟩).append hw
      exact close_ensures_spanning h (by simp) rfl ⟨_, h, .global hqs he⟩
  · refine (qualifiers_forms s).bind fun qs s₁ h₁ => ?_
    refine (unqualifiedName_forms s₁).bind fun e s₂ h₂ => ?_
    obtain ⟨v, hv, hqs⟩ := h₁
    obtain ⟨w, hw, he⟩ := h₂
    rw [hv.position_eq] at he
    refine .ite (fun hbare => ?_) fun hbare => ?_
    · obtain rfl : qs = [] := by simpa using (Bool.and_eq_true_iff.1 hbare).1
      cases hqs
      exact .pure ⟨_, hv.append hw, .bare he⟩
    · have hne : qs ≠ [] := by
        rintro rfl
        cases hqs
        simp [he.first_eq] at hbare
      have h := hv.append hw
      have hnonempty : v ++ w ≠ [] := by cases he <;> simp
      exact close_ensures_spanning h hnonempty rfl ⟨_, h, .qualified hne hqs he⟩

/-! ### Operands -/

theorem leaf_ensures_spanning {kind : Nat → NodeKind} {k : TokenKind}
    {Q : PieceTree → TokenStream → Prop} (hk : s.next? = some k)
    (hQ : Q (.spanning (kind s.position) s.position [k] []) s.tail) : (leaf kind).Ensures s Q := by
  have h := consumes_singleton.2 ⟨hk, rfl⟩
  exact (advance_yields s).bind_ensures (close_ensures_spanning h (by simp) rfl hQ)

theorem primary_forms (hg : g.FollowsRules) (s : TokenStream) :
    (primary g).Ensures s fun e => s.Forms (Derives .primary) [e] := by
  refine .get_bind <| .ite (fun hsigned => ?_) fun _ => ?_
  · obtain ⟨hat, hstring⟩ : s.next? = some .atSign ∧ s.tail.next? = some .stringLiteral := by
      simpa [isSignedString, isAt_eq_true_iff] using hsigned
    have h : s.Consumes [.atSign, .stringLiteral] s.tail.tail := by simp [hat, hstring]
    refine (advance_yields s).bind_ensures <| (advance_yields _).bind_ensures ?_
    rw [tail_position hat]
    exact close_ensures_spanning h (by simp) rfl ⟨_, h, .signedString _⟩
  · refine (peek_yields s).bind_ensures ?_
    split
    case h_1 hk => exact leaf_ensures_spanning hk ⟨_, by simp [hk], .number _ (.inl rfl)⟩
    case h_2 hk => exact leaf_ensures_spanning hk ⟨_, by simp [hk], .number _ (.inr rfl)⟩
    case h_3 hk => exact leaf_ensures_spanning hk ⟨_, by simp [hk], .string _⟩
    case h_4 hk => exact leaf_ensures_spanning hk ⟨_, by simp [hk], .bool _ (.inl rfl)⟩
    case h_5 hk => exact leaf_ensures_spanning hk ⟨_, by simp [hk], .bool _ (.inr rfl)⟩
    case h_6 hk => exact leaf_ensures_spanning hk ⟨_, by simp [hk], .this _⟩
    case h_7 hk =>
      refine (advance_yields s).bind_ensures <| (hg s.tail).bind fun e s₁ h₁ => ?_
      refine expect_bind_ensures fun hrparen => ?_
      obtain ⟨⟨w, hw, he⟩, -⟩ := h₁
      have h := hw.between hk hrparen
      rw [hw.position_eq, tail_position hk]
      rw [tail_position hk] at he
      exact close_ensures_spanning h (by simp) rfl ⟨_, h, .nested he⟩
    case h_8 hk | h_9 hk =>
      -- the token that comes next is the first one of the name, and it is no tilde
      refine (name_forms s).imp fun e s' he => ?_
      obtain ⟨w, hw, hname⟩ := he
      refine ⟨w, hw, .name (fun htilde => ?_) hname⟩
      simp [hw.next?_eq htilde] at hk
    case h_10 => exact fail_ensures _

/-- Further arguments, as long as commas come next. -/
theorem furtherArguments_forms (hg : g.FollowsRules) (s : TokenStream) :
    (collectWhile (·.isAt .comma) (do let _ ← advance; g.assignment)).Ensures s
      (s.Forms (Derives .furtherArguments)) := by
  let one (s : TokenStream) (e : PieceTree) (m : TokenStream) : Prop :=
    s.next? = some .comma ∧ s.tail.Forms (Derives .assignment) [e] m
  let many (s : TokenStream) (es : List PieceTree) (s' : TokenStream) : Prop :=
    s.Forms (Derives .furtherArguments) es s'
  refine .get_bind <| @items_ensures _ _ _ one many ?_ ?_ ?_ _ s
  · exact fun s => ⟨[], .refl s, .noMore _⟩
  · rintro s e m es s' - ⟨hcomma, w, hw, he⟩ ⟨v, hv, hes⟩
    rw [hw.position_eq, tail_position hcomma] at hes
    rw [tail_position hcomma] at he
    exact ⟨_, consumes_cons.2 ⟨hcomma, hw.append hv⟩, .more he hes⟩
  · intro s hs
    refine (advance_yields s).bind_ensures <| (hg s.tail).imp fun e s' h => ?_
    exact ⟨isAt_eq_true_iff.1 hs, h.1⟩

theorem arguments_forms (hg : g.FollowsRules) (s : TokenStream) :
    (if s.isAt .rParen then pure [] else commaSeparated g.assignment).Ensures s
      (s.Forms (Derives .arguments)) := by
  refine .ite (fun _ => .pure ⟨[], .refl s, .noArguments _⟩) fun _ => ?_
  refine (hg s).bind fun e s₁ h₁ => (furtherArguments_forms hg s₁).bind fun es s₂ h₂ => .pure ?_
  obtain ⟨⟨w, hw, he⟩, -⟩ := h₁
  obtain ⟨v, hv, hes⟩ := h₂
  rw [hw.position_eq] at hes
  exact ⟨_, hw.append hv, .someArguments he hes⟩

theorem suffix_forms (hg : g.FollowsRules) {operand : PieceTree}
    (h₀ : s₀.Forms (Derives .suffixed) [operand] s) (hs : isSuffix s = true) :
    (suffix g operand).Ensures s fun e => s₀.Forms (Derives .suffixed) [e] := by
  obtain ⟨w, hw, hoperand⟩ := h₀
  have hfirst := hoperand.first_eq (by simp)
  have hpos : ∀ {k}, s.next? = some k → s.tail.position = s₀.position + w.length + 1 := by
    intro k hk
    rw [tail_position hk, hw.position_eq]
  refine (peek_yields s).bind_ensures ?_
  split
  case h_1 hk =>
    refine (advance_yields s).bind_ensures <| .get_bind ?_
    refine .ite_bind (arguments_forms hg s.tail) fun es s₁ h₁ => ?_
    refine expect_bind_ensures fun hrparen => ?_
    obtain ⟨v, hv, hes⟩ := h₁
    have h := hw.append (hv.between hk hrparen)
    rw [hpos hk] at hes
    rw [hv.position_eq, hpos hk, hw.position_eq]
    exact close_ensures_spanning h (by simp) hfirst ⟨_, h, .call hoperand hes⟩
  case h_2 hk =>
    refine (advance_yields s).bind_ensures <| (hg s.tail).bind fun x s₁ h₁ => ?_
    refine expect_bind_ensures fun hrbracket => ?_
    obtain ⟨⟨v, hv, hx⟩, -⟩ := h₁
    have h := hw.append (hv.between hk hrbracket)
    rw [hpos hk] at hx
    rw [hv.position_eq, hpos hk, hw.position_eq]
    exact close_ensures_spanning h (by simp) hfirst ⟨_, h, .item hoperand hx⟩
  case h_3 hk | h_4 hk =>
    refine (advance_yields s).bind_ensures <| (name_forms s.tail).bind fun member s₁ h₁ => ?_
    obtain ⟨v, hv, hmember⟩ := h₁
    have h := hw.append (consumes_cons.2 ⟨hk, hv⟩)
    rw [hpos hk] at hmember
    rw [hw.position_eq]
    exact close_ensures_spanning h (by simp) hfirst ⟨_, h, .member (by simp) hoperand hmember⟩
  case h_5 hparen hbracket hdot harrow =>
    obtain ⟨k, hk, hstep⟩ : ∃ k, s.next? = some k ∧ (k = .plusPlus ∨ k = .minusMinus) := by
      rw [isSuffix_eq] at hs
      cases hk : s.next? with
      | none => simp [hk] at hs
      | some k =>
        have hne : ∀ {k'}, ¬s.next? = some k' → k ≠ k' := fun hother h => hother (h ▸ hk)
        refine ⟨k, rfl, ?_⟩
        simpa [hk, TokenKind.startsSuffix, hne hparen, hne hbracket, hne hdot, hne harrow] using hs
    have h := hw.append (consumes_singleton.2 ⟨hk, rfl⟩)
    refine (advance_yields s).bind_ensures ?_
    rw [hw.position_eq]
    exact close_ensures_spanning h (by simp) hfirst ⟨_, h, .step hstep hoperand⟩

theorem suffixed_forms (hg : g.FollowsRules) (s : TokenStream) :
    (suffixed g).Ensures s fun e => s.Forms (Derives .suffixed) [e] := by
  refine (primary_forms hg s).bind fun operand s₁ h₁ => ?_
  obtain ⟨w, hw, hoperand⟩ := h₁
  exact repeatWhile_ensures (fun _ _ h hs => suffix_forms hg h hs) ⟨w, hw, .alone hoperand⟩

/-- Where an operator comes before an operand, it is read, and then the operand. -/
theorem unary_run_of_isUnaryOperator (h : isUnaryOperator s = true) :
    (unary g).run s = (do
      let operator ← advance
      let operand ← unary g
      close (.unary operator) operator [operand] : Parse PieceTree).run s := by
  let closeAll (operators : List Nat) : Parse PieceTree := do
    let operand ← suffixed g
    operators.foldrM (fun operator operand => close (.unary operator) operator [operand]) operand
  have hoperators : (collectWhile isUnaryOperator advance).run s =
      (do
        let operator ← advance
        let operators ← collectWhile isUnaryOperator advance
        return operator :: operators : Parse (List Nat)).run s := by
    obtain ⟨rest, position, length⟩ := s
    cases rest with
    | nil => simp [isUnaryOperator, next?] at h
    | cons t rest =>
      change StateT.run (if isUnaryOperator _ = true then _ else _) _ = _
      rw [if_pos h]
      rfl
  calc (unary g).run s = (collectWhile isUnaryOperator advance >>= closeAll).run s := rfl
    _ = ((do
        let operator ← advance
        let operators ← collectWhile isUnaryOperator advance
        return operator :: operators : Parse (List Nat)) >>= closeAll).run s :=
      run_bind_congr hoperators fun _ _ _ => rfl
    _ = _ := by
      simp only [bind_assoc, pure_bind, closeAll, List.foldrM_cons, unary]

/-- Where no operator comes before an operand, the operand is read. -/
theorem unary_run_of_not_isUnaryOperator (h : isUnaryOperator s = false) :
    (unary g).run s = (suffixed g).run s := by
  have hoperators : (collectWhile isUnaryOperator advance).Yields s [] s :=
    .get_bind (items_yields_nil h _)
  rw [unary, hoperators.run_bind]
  exact congrArg (StateT.run · s) (bind_pure (suffixed g))

theorem unary_forms (hg : g.FollowsRules) (s : TokenStream) :
    (unary g).Ensures s fun e => s.Forms (Derives .unary) [e] := by
  induction hn : s.rest.length using Nat.strongRecOn generalizing s with
  | ind n ih =>
    cases hs : isUnaryOperator s with
    | false =>
      refine Ensures.congr_run ?_ (unary_run_of_not_isUnaryOperator hs)
      exact (suffixed_forms hg s).imp fun e s' ⟨w, hw, he⟩ => ⟨w, hw, .bare he⟩
    | true =>
      obtain ⟨k, hk, hoperator⟩ : ∃ k, s.next? = some k ∧ k.isUnaryOperator = true := by
        simpa [isUnaryOperator_eq, Option.any_eq_true] using hs
      have hlt : s.tail.rest.length < n := by
        rw [← hn, tail_length hk]
        exact Nat.lt_succ_self _
      refine Ensures.congr_run ?_ (unary_run_of_isUnaryOperator hs)
      refine (advance_yields s).bind_ensures <| (ih _ hlt s.tail rfl).bind fun e s₁ h₁ => ?_
      obtain ⟨w, hw, he⟩ := h₁
      rw [tail_position hk] at he
      have h := consumes_cons.2 ⟨hk, hw⟩
      exact close_ensures_spanning h (by simp) rfl ⟨_, h, .unary hoperator he⟩

/-! ### Operators between operands -/

/-- Whether an operator of a level comes next. -/
def isAtLevel (p : Nat) (s : TokenStream) : Bool := s.nextLevel? == some p

/-- An operator and its right operand, after a left one. -/
def joinRight (operand : Parse PieceTree) (left : PieceTree) : Parse PieceTree := do
  let operator ← advance
  let right ← operand
  close (.binary operator) left.label.first [left, right]

theorem joined_eq (p : Nat) (operand : Parse PieceTree) :
    joined p operand = operand >>= repeatWhile (fun _ => isAtLevel p) (joinRight operand) := rfl

theorem nextLevel?_eq_some {p : Nat} (h : s.nextLevel? = some p) :
    ∃ op, s.next? = some op ∧ op.precedence? = some p :=
  Option.bind_eq_some_iff.1 h

theorem joined_forms {p : Nat} (hp : p ≤ 10) {operand : Parse PieceTree}
    (hoperand : ∀ s : TokenStream,
      operand.Ensures s fun e => s.Forms (Derives (.binary (p + 1))) [e]) (s : TokenStream) :
    (joined p operand).Ensures s fun e => s.Forms (Derives (.binary p)) [e] := by
  let I (e : PieceTree) (s' : TokenStream) : Prop := s.Forms (Derives (.binary p)) [e] s'
  rw [joined_eq]
  refine (hoperand s).bind fun left s₁ h₁ => repeatWhile_ensures (I := I) ?_ ?_
  · rintro left m ⟨w, hw, hleft⟩ hmore
    obtain ⟨op, hop, hlevel⟩ := nextLevel?_eq_some (eq_of_beq hmore)
    have hpos : m.tail.position = s.position + w.length + 1 := by
      rw [tail_position hop, hw.position_eq]
    refine (advance_yields m).bind_ensures <| (hoperand m.tail).bind fun right s₂ h₂ => ?_
    obtain ⟨v, hv, hright⟩ := h₂
    have h := hw.append (consumes_cons.2 ⟨hop, hv⟩)
    rw [hpos] at hright
    rw [hw.position_eq]
    exact close_ensures_spanning h (by simp) (hleft.first_eq (by simp))
      ⟨_, h, .join hlevel hleft hright⟩
  · obtain ⟨w, hw, hleft⟩ := h₁
    exact ⟨w, hw, .tighter hp hleft⟩

/-- Operands joined at the tightest levels. -/
theorem binaryLevel_forms (hg : g.FollowsRules) {n : Nat} (hn : n ≤ 10) (s : TokenStream) :
    (binaryLevel g n).Ensures s fun e => s.Forms (Derives (.binary (11 - n))) [e] := by
  induction n generalizing s with
  | zero => exact (unary_forms hg s).imp fun e s' ⟨w, hw, he⟩ => ⟨w, hw, .operand he⟩
  | succ n ih =>
    have hlevel : 11 - n = 10 - n + 1 := by omega
    rw [hlevel] at ih
    rw [Nat.add_sub_add_right 10 1 n]
    exact joined_forms (Nat.sub_le 10 n) (ih (by omega)) s

/-! ### Choices and assignments -/

theorem conditional_forms (hg : g.FollowsRules) (s : TokenStream) :
    (conditional g).Ensures s fun e s' => s.Forms (Derives (.binary 1)) [e] s' ∨
      s.Forms (Derives .assignment) [e] s' ∧ s'.next?.any TokenKind.isAssignment = false := by
  refine (binaryLevel_forms hg (Nat.le_refl 10) s).bind fun c s₁ h₁ => ?_
  refine eat?_bind_ensures (fun hquestion => ?_) fun _ => .pure (.inl h₁)
  refine (hg s₁.tail).bind fun l s₂ h₂ => expect_bind_ensures fun hcolon => ?_
  refine (hg s₂.tail).bind fun r s₃ h₃ => ?_
  obtain ⟨w, hw, hc⟩ := h₁
  obtain ⟨⟨v, hv, hl⟩, -⟩ := h₂
  obtain ⟨⟨u, hu, hr⟩, hnext⟩ := h₃
  have h := hw.append (consumes_cons.2 ⟨hquestion, hv.append (consumes_cons.2 ⟨hcolon, hu⟩)⟩)
  rw [tail_position hcolon, hv.position_eq] at hr
  rw [tail_position hquestion, hw.position_eq] at hl hr
  rw [hv.position_eq, tail_position hquestion, hw.position_eq]
  exact close_ensures_spanning h (by simp) (hc.first_eq (by simp))
    (.inr ⟨⟨_, h, .conditional hc hl hr⟩, hnext⟩)

theorem assignment_forms (hg : g.FollowsRules) (s : TokenStream) :
    (assignment g).Ensures s fun e s' =>
      s.Forms (Derives .assignment) [e] s' ∧ s'.next?.any TokenKind.isAssignment = false := by
  refine (conditional_forms hg s).bind fun l s₁ h₁ => (peek_yields s₁).bind_ensures ?_
  refine .ite (fun hassign => ?_) fun hnone => .pure ?_
  · obtain ⟨w, hw, hl⟩ : s.Forms (Derives (.binary 1)) [l] s₁ :=
      h₁.resolve_right fun h => by simp [hassign] at h
    obtain ⟨op, hop, hoperator⟩ : ∃ op, s₁.next? = some op ∧ op.isAssignment = true := by
      simpa [Option.any_eq_true] using hassign
    refine (advance_yields s₁).bind_ensures <| (hg s₁.tail).bind fun r s₂ h₂ => ?_
    obtain ⟨⟨v, hv, hr⟩, hnext⟩ := h₂
    have h := hw.append (consumes_cons.2 ⟨hop, hv⟩)
    rw [tail_position hop, hw.position_eq] at hr
    rw [hw.position_eq]
    exact close_ensures_spanning h (by simp) (hl.first_eq (by simp))
      ⟨⟨_, h, .assign hoperator hl hr⟩, hnext⟩
  · have hnext : s₁.next?.any TokenKind.isAssignment = false := by simpa using hnone
    rcases h₁ with ⟨w, hw, hl⟩ | h₁
    · exact ⟨⟨w, hw, .value hl⟩, hnext⟩
    · exact h₁

end Parse

/-- **The expressions that are read are phrases of the grammar**, for any number of tokens. -/
theorem Grammar.followsRules_forTokens (n : Nat) : (Grammar.forTokens n).FollowsRules := by
  induction n with
  | zero => exact fun s => Parse.fail_ensures _
  | succ n ih => exact Parse.assignment_forms ih

end Mend
