import Mend.Proofs.ExpressionSoundness
import Mend.Proofs.TwinRuns

/-!
# Names and expressions side by side

Every parser of a name, of an expression or of a part of one reads the same in two runs whose states
belong together.

An expression that another one stands for is exchanged where the operands of its level are joined.

## Main definitions

* `Twin.Pairs` — the parsers of two grammars match each other.
* `Twin.Couples` — so does the parser that reads the expression that another one stands for.

## Main results

* `Twin.Matches.name`, `Twin.Matches.conditional`, `Twin.Matches.assignment` — names and
  expressions.
-/

namespace Mend

namespace Parse

open TokenStream Phrase

/-- A name that is told by its parts: it stays as it is when neither colons nor qualifiers come
before it. -/
def nameOfParts : Parse PieceTree := do
  let first := (← get).position
  let colons ← eat? .colonColon
  let qualifiers ← collectWhile isQualifier qualifier
  let unqualified ← unqualifiedName
  if colons.isNone && qualifiers.isEmpty then return unqualified
  else close (.qualifiedName qualifiers) first [unqualified]

theorem eat?_ensures_position (k : TokenKind) (s : TokenStream) :
    (eat? k).Ensures s fun o s' => s'.position = s.position + o.toList.length := by
  by_cases h : s.next? = some k
  · exact (eat?_yields_some h).ensures (tail_position h)
  · exact (eat?_yields_none h).ensures rfl

theorem name_run (s : TokenStream) : name.run s = nameOfParts.run s := by
  have hget (f : TokenStream → Parse PieceTree) : (get >>= f).run s = (f s).run s := rfl
  rw [name, nameOfParts, hget, hget]
  refine run_bind_congr rfl ((eat?_ensures_position _ s).imp fun colons s₁ hcolons => ?_)
  refine run_bind_congr rfl ((qualifiers_forms s₁).imp fun qs s₂ hqs => ?_)
  refine run_bind_congr rfl ((unqualifiedName_forms s₂).imp fun e s₃ he => ?_)
  obtain ⟨v, hv, hqs⟩ := hqs
  obtain ⟨w, hw, he⟩ := he
  -- the name begins where the tokens do just when nothing was taken before it
  have hbegins : (qs.isEmpty && e.label.first == s.position) =
      (colons.isNone && qs.isEmpty) := by
    rw [he.first_eq, hv.position_eq, hcolons]
    cases hqs with
    | nil => cases colons <;> simp
    | cons => simp
  rw [hbegins]

end Parse

theorem Grammar.IsSound.assignment_lessens {g : Grammar} (hg : g.IsSound) (s : TokenStream) :
    g.assignment.Lessens s :=
  (hg.assignment s).imp fun _ _ h => h.takes.length_le

namespace Twin

open Parse Movable

/-- The parsers of two grammars match each other. -/
structure Pairs (σ : Twin) (g g' : Grammar) : Prop where
  /-- The first grammar is sound. -/
  sound : g.IsSound
  /-- So is the second one. -/
  sound' : g'.IsSound
  /-- An expression. -/
  assignment : ∀ ts, σ.Matches ts g.assignment g'.assignment
  /-- A statement. -/
  statement : ∀ ts, σ.Matches ts g.statement g'.statement
  /-- A declaration that is no namespace. -/
  simpleDeclaration : ∀ ts place,
    σ.Matches ts (g.simpleDeclaration place) (g'.simpleDeclaration place)
  /-- A declaration. -/
  declaration : ∀ ts, σ.Matches ts g.declaration g'.declaration

/-- The parsers of operands joined at some level match each other where the expression begins that
another one stands for. -/
def JoinsAt (σ : Twin) (g g' : Grammar) (level : Nat) : Prop :=
  ∀ {r}, σ.swap = some r → r.level? = some level → ∀ {ts ph s s'},
    s.position = r.old.label.first →
      σ.MatchesAt ph s s' ts (Parse.binaryLevel g (11 - level)) (Parse.binaryLevel g' (11 - level))

/-- The parsers of two grammars match each other, and so does the parser that reads the expression
that another one stands for. -/
structure Couples (σ : Twin) (g g' : Grammar) : Prop extends Pairs σ g g' where
  /-- The expression is exchanged. -/
  joinsAt : ∀ level, σ.JoinsAt g g' level

namespace Matches

variable {σ : Twin} {g g' : Grammar} {ts : List PieceTree}

/-! ### Names -/

theorem qualifier : σ.Matches ts Parse.qualifier Parse.qualifier :=
  Matches.bind advance fun name => Matches.bind advance fun _ => .pure (x := name) (by simp)

theorem unqualifiedName : σ.Matches ts Parse.unqualifiedName Parse.unqualifiedName := by
  refine .look fun s s' _ hposition => Matches.bind (eat? _) fun tilde => ?_
  rw [hposition]
  cases tilde with
  | none => exact Matches.bind (expectName _) fun token => close rfl (by simp)
  | some tilde => exact Matches.bind (expectName _) fun token => close rfl (by simp)

/-- Parsers that run alike match what the other one matches. -/
protected theorem congr {α : Type} [Movable α] {p p' q q' : Parse α} (h : σ.Matches ts p p')
    (hq : ∀ s, q.run s = p.run s) (hq' : ∀ s, q'.run s = p'.run s) : σ.Matches ts q q' := by
  intro ph s s' hat hfits
  refine ((h ph s s' hat hfits).congr_run (hq s)).imp fun x s₁ hx => ?_
  obtain ⟨ph₁, s₁', hat₁, hfits₁, hafter, hlost, hyields⟩ := hx
  exact ⟨ph₁, s₁', hat₁, hfits₁, hafter, hlost, fun hph => (hyields hph).congr_run (hq' s')⟩

theorem name : σ.Matches ts Parse.name Parse.name := by
  have hqualifiers : ∀ us, Items σ us isQualifier Parse.qualifier Parse.qualifier := fun us =>
    { sees := fun h => isQualifier_eq_of_lookAlike h
      stops := fun h => by simp [isQualifier, h]
      shrinks := fun h => (qualifier_ensures h).imp fun _ _ hi => hi.length_lt (by simp)
      shrinks' := fun h => (qualifier_ensures h).imp fun _ _ hi => hi.length_lt (by simp)
      item := qualifier }
  refine Matches.congr ?_ name_run name_run
  refine .look fun s s' _ hposition => Matches.bind (eat? _) fun colons => ?_
  refine Matches.bind (collectWhile (hqualifiers _)) fun qualifiers => ?_
  refine Matches.bind unqualifiedName fun unqualified => ?_
  rw [hposition]
  cases colons with
  | some colons => exact close rfl (by simp)
  | none =>
    cases qualifiers with
    | nil => exact Matches.pure (x := unqualified) (by simp)
    | cons q qs => exact close rfl (by simp)

/-! ### Operands -/

/-- A node made of the next token alone. -/
theorem leaf {kind : Nat → NodeKind} (hsort : ∀ i, (kind i).isExchangeable = false)
    (hkind : ∀ i, (kind i).moved σ.mark = kind (σ.mark i)) :
    σ.Matches ts (Parse.leaf kind) (Parse.leaf kind) := by
  refine Matches.bind advance fun token => ?_
  have hclose : σ.Matches (ts ++ trees token) (Parse.close (kind token) token []) _ :=
    close (hsort token) (by simp)
  rw [hkind] at hclose
  exact hclose

variable (hσ : σ.Pairs g g')

include hσ

theorem primary : σ.Matches ts (Parse.primary g) (Parse.primary g') := by
  refine .ite (fun h => isSignedString_eq_of_lookAlike h) ?_ ?_
  · exact Matches.bind advance fun sign => Matches.bind advance fun token => close rfl (by simp)
  · refine .peek_bind fun k => ?_
    split
    case h_1 | h_2 | h_3 | h_4 | h_5 | h_6 => exact leaf (fun _ => rfl) fun _ => rfl
    case h_7 =>
      refine Matches.bind advance fun lparen => Matches.bind (hσ.assignment _) fun inner => ?_
      exact Matches.bind (expect _) fun rparen => close rfl (by simp)
    case h_8 | h_9 => exact name
    case h_10 => exact .fail _

omit hσ in
/-- One item or several, with commas between them. -/
theorem commaSeparated {α : Type} [Movable α] {item item' : Parse α}
    (hlessens : ∀ s, item.Lessens s) (hlessens' : ∀ s, item'.Lessens s)
    (h : ∀ us, σ.Matches us item item') :
    σ.Matches ts (Parse.commaSeparated item) (Parse.commaSeparated item') := by
  have hitems : ∀ us, Items σ us (·.isAt .comma) (Parse.advance >>= fun _ => item)
      (Parse.advance >>= fun _ => item') := fun us =>
    { sees := fun h => TokenStream.isAt_eq_of_lookAlike h _
      stops := fun h => by simp [TokenStream.isAt, TokenStream.next?, h]
      shrinks := fun h => advance_bind_shrinks (TokenStream.rest_ne_nil_of_isAt h)
        fun _ => hlessens
      shrinks' := fun h => advance_bind_shrinks (TokenStream.rest_ne_nil_of_isAt h)
        fun _ => hlessens'
      item := Matches.bind advance fun _ => h _ }
  refine Matches.bind (h _) fun x => Matches.bind (collectWhile (hitems _)) fun xs => ?_
  exact .pure (x := x :: xs) (by simp)

omit hσ in
/-- What stands between parentheses: nothing, or one item or several. -/
theorem listed {α : Type} [Movable α] {item item' : Parse α} {f f' : List α → Parse PieceTree}
    (hlessens : ∀ s, item.Lessens s) (hlessens' : ∀ s, item'.Lessens s)
    (hitem : ∀ us, σ.Matches us item item')
    (h : ∀ xs, σ.Matches (ts ++ trees xs) (f xs) (f' (σ.carry xs))) :
    σ.Matches ts
      (get >>= fun s => if s.isAt .rParen then pure [] >>= f
        else Parse.commaSeparated item >>= f)
      (get >>= fun s => if s.isAt .rParen then pure [] >>= f'
        else Parse.commaSeparated item' >>= f') := by
  refine .ite (fun h => TokenStream.isAt_eq_of_lookAlike h _) ((h []).mono (by simp)) ?_
  exact Matches.bind (commaSeparated hlessens hlessens' hitem) h

theorem suffix {operand : PieceTree} (hoperand : operand ∈ ts) :
    σ.Matches ts (Parse.suffix g operand) (Parse.suffix g' (σ.carry operand)) := by
  refine .of_first hoperand fun hfirst => .peek_bind fun k => ?_
  rw [hfirst]
  split
  case h_1 =>
    refine Matches.bind advance fun lparen => listed (hσ.sound.assignment_lessens)
      (hσ.sound'.assignment_lessens) hσ.assignment fun es => ?_
    exact Matches.bind (expect _) fun rparen => close rfl (by simp [hoperand])
  case h_2 =>
    refine Matches.bind advance fun lbracket => Matches.bind (hσ.assignment _) fun index => ?_
    exact Matches.bind (expect _) fun rbracket => close rfl (by simp [hoperand])
  case h_3 | h_4 =>
    refine Matches.bind advance fun access => Matches.bind name fun member => ?_
    exact close rfl (by simp [hoperand])
  case h_5 => exact Matches.bind advance fun operator => close rfl (by simp [hoperand])

omit hσ in
/-- A suffix takes a token. -/
theorem suffix_shrinks {s : TokenStream} (hg : g.IsSound) (operand : PieceTree)
    (hs : isSuffix s = true) : (Parse.suffix g operand).Shrinks s := by
  refine peek_ensures.bind fun k s₁ h₁ => ?_
  obtain ⟨rfl, rfl⟩ := h₁
  have hne := rest_ne_nil_of_isSuffix hs
  split
  case h_1 =>
    refine advance_bind_shrinks hne fun lparen s₂ => .get_bind ?_
    refine .ite_bind (arguments_ensures hg) fun arguments s₃ h₃ => ?_
    refine (expect_ensures .rParen).bind fun rparen s₄ h₄ => ?_
    exact close_ensures_eq.imp fun _ _ h => h ▸ (h₃.takes.append h₄).length_le
  case h_2 =>
    refine advance_bind_shrinks hne fun lbracket s₂ => ?_
    refine (hg.assignment s₂).bind fun index s₃ h₃ => ?_
    refine (expect_ensures .rBracket).bind fun rbracket s₄ h₄ => ?_
    exact close_ensures_eq.imp fun _ _ h => h ▸ (h₃.takes.append h₄).length_le
  case h_3 | h_4 =>
    refine advance_bind_shrinks hne fun access s₂ => ?_
    refine name_ensures.bind fun member s₃ h₃ => ?_
    exact close_ensures_eq.imp fun _ _ h => h ▸ h₃.1.takes.length_le
  case h_5 =>
    refine advance_bind_shrinks hne fun operator s₂ => ?_
    exact close_ensures_eq.imp fun _ _ h => h ▸ Nat.le_refl _

theorem suffixed : σ.Matches ts (Parse.suffixed g) (Parse.suffixed g') := by
  refine Matches.bind (primary hσ) fun operand => ?_
  have hsuffix : Rounds σ (ts ++ trees operand) False (fun _ => True) (fun _ => isSuffix)
      (Parse.suffix g) (Parse.suffix g') :=
    { sees := fun h => by
        rw [isSuffix, isSuffix, TokenStream.next?_eq_of_lookAlike h]
      stops := fun h => by simp [isSuffix, TokenStream.next?, h]
      shrinks := fun h => suffix_shrinks hσ.sound _ h
      shrinks' := fun h => suffix_shrinks hσ.sound' _ h
      keeps := fun _ _ _ _ => trivial
      step := fun _ hx _ _ _ => suffix hσ (hx (by simp)) _ _ _ }
  exact repeatWhile hsuffix (by simp) trivial

omit hσ in
/-- Operators before an operand are closed around it. -/
theorem closeUnary (operators : List Nat) {operand : PieceTree} (hoperand : operand ∈ ts) :
    σ.Matches ts
      (operators.foldrM (fun operator operand => Parse.close (.unary operator) operator [operand])
        operand)
      ((operators.map σ.mark).foldrM
        (fun operator operand => Parse.close (.unary operator) operator [operand])
        (σ.rewrite operand)) := by
  induction operators with
  | nil => exact .pure (x := operand) (by simp [hoperand])
  | cons operator operators ih =>
    rw [List.map_cons, List.foldrM_cons, List.foldrM_cons]
    exact Matches.bind ih fun inner => close rfl (by simp)

theorem unary : σ.Matches ts (Parse.unary g) (Parse.unary g') := by
  have hoperators : Items σ ts isUnaryOperator Parse.advance Parse.advance :=
    { sees := fun h => by
        rw [isUnaryOperator, isUnaryOperator, TokenStream.next?_eq_of_lookAlike h]
      stops := fun h => by simp [isUnaryOperator, TokenStream.next?, h]
      shrinks := fun h => advance_shrinks (rest_ne_nil_of_isUnaryOperator h)
      shrinks' := fun h => advance_shrinks (rest_ne_nil_of_isUnaryOperator h)
      item := advance }
  refine Matches.bind (collectWhile hoperators) fun operators => ?_
  exact Matches.bind (suffixed hσ) fun operand => closeUnary operators (by simp)

/-! ### Operators between operands -/

omit hσ in
theorem rest_ne_nil_of_precedence? {s : TokenStream} {level : Nat}
    (h : (s.next?.bind TokenKind.precedence? == some level) = true) : s.rest ≠ [] := by
  intro hnil
  simp [TokenStream.next?, hnil] at h

omit hσ in
/-- Another operand is joined to those that were read, unless that makes the expression that another
one stands for. -/
theorem join {n : Nat} (hoperand : ∀ ts, σ.Matches ts (Parse.binaryLevel g n)
      (Parse.binaryLevel g' n))
    {left : PieceTree} {ph : Phase} {s s' : TokenStream} (hleft : left ∈ ts)
    (hs : σ.At ph s s' → ∀ last, ¬σ.IsSwapped ⟨.binary s.position, left.label.first, last⟩) :
    σ.MatchesAt ph s s' ts
      (do
        let operator ← Parse.advance
        let right ← Parse.binaryLevel g n
        Parse.close (.binary operator) left.label.first [left, right])
      (do
        let operator ← Parse.advance
        let right ← Parse.binaryLevel g' n
        Parse.close (.binary operator) (σ.carry left).label.first [σ.carry left, right]) := by
  refine .of_first hleft fun hfirst => ?_
  rw [hfirst]
  intro hat
  refine advance_bind (f := fun operator => Parse.binaryLevel g n >>= fun right =>
    Parse.close (.binary operator) left.label.first [left, right]) ?_ hat
  exact Matches.bind (hoperand _) fun right =>
    close_of_not_isSwapped (hs hat) (by simp [hleft])

/-- Operands joined one after the other, unless that makes the expression that another one stands
for. -/
theorem joins {n : Nat} (hoperand : ∀ ts, σ.Matches ts (Parse.binaryLevel g n)
      (Parse.binaryLevel g' n)) {isAfter : Prop} {first : Nat}
    (hs : ∀ {ph s s'}, (isAfter → ph = .after) → σ.At ph s s' →
      s.next?.bind TokenKind.precedence? = some (10 - n) →
        ∀ last, ¬σ.IsSwapped ⟨.binary s.position, first, last⟩) :
    Rounds σ ts isAfter (fun left => left.label.first = first)
      (fun _ s => s.next?.bind TokenKind.precedence? == some (10 - n))
      (fun left => do
        let operator ← Parse.advance
        let right ← Parse.binaryLevel g n
        Parse.close (.binary operator) left.label.first [left, right])
      (fun left => do
        let operator ← Parse.advance
        let right ← Parse.binaryLevel g' n
        Parse.close (.binary operator) left.label.first [left, right]) where
  sees h := by rw [TokenStream.next?_eq_of_lookAlike h]
  stops h := by simp [TokenStream.next?, h]
  shrinks h := advance_bind_shrinks (rest_ne_nil_of_precedence? h) fun _ s₁ =>
    (binaryLevel_ensures hσ.sound n s₁).bind fun _ _ h₁ =>
      close_ensures_eq.imp fun _ _ h => h ▸ h₁.takes.length_le
  shrinks' h := advance_bind_shrinks (rest_ne_nil_of_precedence? h) fun _ s₁ =>
    (binaryLevel_ensures hσ.sound' n s₁).bind fun _ _ h₁ =>
      close_ensures_eq.imp fun _ _ h => h ▸ h₁.takes.length_le
  keeps {left s} hleft := by
    refine advance_ensures_tail.bind fun operator s₁ _ => ?_
    refine (binaryLevel_ensures hσ.sound n s₁).bind fun right s₂ _ => ?_
    rintro t s₃ ht
    cases ht
    exact hleft
  step {us left ph s s'} _ hx hfirst hmore hph := by
    refine join hoperand (hx (List.mem_singleton_self _)) fun hat => ?_
    rw [hfirst]
    exact hs hph hat (eq_of_beq hmore)

theorem binaryLevel (n : Nat) (hn : n ≤ 10)
    (hsite : ∀ level, 11 - level ≤ n → σ.JoinsAt g g' level) :
    ∀ ts, σ.Matches ts (Parse.binaryLevel g n) (Parse.binaryLevel g' n) := by
  induction n with
  | zero => exact fun ts => unary hσ
  | succ n ih =>
    have ih := ih (Nat.le_of_succ_le hn) fun level hlevel => hsite level (Nat.le_succ_of_le hlevel)
    intro ts ph s s'
    -- the expression that another one stands for is read as a whole
    by_cases hat : ∃ r, σ.swap = some r ∧ r.level? = some (10 - n) ∧ s.position = r.old.label.first
    · obtain ⟨r, hr, hlevel, hposition⟩ := hat
      have hjoins : σ.MatchesAt ph s s' ts _ _ := hsite (10 - n) (by omega) hr hlevel hposition
      rwa [show 11 - (10 - n) = n + 1 by omega] at hjoins
    · refine MatchesAt.bind ((binaryLevel_ensures hσ.sound n s).imp fun _ _ h => h.first_eq)
        (ih ts ph s s') fun left hleft => ?_
      refine repeatWhile (joins hσ ih fun _ hat' hnext last => ?_) (by simp) hleft
      refine not_isSwapped_binary hat' fun r level hr hlevel hnext' hfirst =>
        hat ⟨r, hr, ?_, hfirst⟩
      rw [hlevel, ← hnext', hnext]

end Matches

namespace Matches

variable {σ : Twin} {g g' : Grammar} {ts : List PieceTree} (hσ : σ.Couples g g')

include hσ

theorem conditional : σ.Matches ts (Parse.conditional g) (Parse.conditional g') := by
  have hchain := binaryLevel hσ.toPairs 10 (Nat.le_refl _) fun level _ => hσ.joinsAt level
  refine Matches.bind (hchain ts) fun condition => ?_
  refine .of_first (t := condition) (by simp) fun hfirst => Matches.bind (eat? _) fun question => ?_
  cases question with
  | none => exact .pure (x := condition) (by simp)
  | some question =>
    refine Matches.bind (hσ.assignment _) fun left => Matches.bind (expect _) fun colon => ?_
    refine Matches.bind (hσ.assignment _) fun right => ?_
    rw [hfirst]
    exact close rfl (by simp)

theorem assignment : σ.Matches ts (Parse.assignment g) (Parse.assignment g') := by
  refine Matches.bind (conditional hσ) fun left => ?_
  refine .of_first (t := left) (by simp) fun hfirst ph s s' => MatchesAt.peek_bind ?_
  split
  next hassignment =>
    rw [hfirst]
    intro hat
    refine advance_bind (f := fun operator => g.assignment >>= fun right =>
      Parse.close (.binary operator) left.label.first [left, right]) ?_ hat
    refine Matches.bind (hσ.assignment _) fun right => close_of_not_isSwapped (fun _ =>
      not_isSwapped_binary hat fun r level _ _ hnext => ?_) (by simp)
    -- an assignment operator has no level
    obtain ⟨k, hk, hlevel⟩ := Option.bind_eq_some_iff.1 hnext
    rw [hk] at hassignment
    simp [Phrase.precedence?_of_isAssignment hassignment] at hlevel
  next => exact Matches.pure (x := left) (by simp) _ _ _

end Matches

end Twin

end Mend
