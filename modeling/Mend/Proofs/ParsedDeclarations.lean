import Mend.Proofs.ParsedExpressions

/-!
# Declarations are laid out

Every parser of a declaration, or of a part of one, takes the tokens of one tree, and the tree is
laid out.  There is one exception: a declarator in a parameter may have no part at all.  It takes no
token then, and the tree made for it covers a token that is not its own.  But the parameter list
that it stands in cannot be closed at that token, so no such tree comes of it.

## Main definitions

* `TokenStream.IsStuck` — a place at which a parameter list neither goes on nor ends.

## Main results

* `Parse.parameterList_ensures` — a parameter list that ends has a declarator or none in each
  parameter, and never an empty one.
* `Parse.simpleDeclaration_ensures`, `Parse.declaration_ensures` — the promise for declarations.
-/

namespace Mend

/-- A place at which a parameter list neither goes on nor ends. -/
def TokenStream.IsStuck (s : TokenStream) : Prop :=
  s.isAt .comma = false ∧ s.isAt .rParen = false

namespace Parse

open TokenStream TokenRun NodeKind

variable {g : Grammar} {s s₀ : TokenStream}

theorem block_ensures (hg : g.IsSound) :
    (block g).Ensures s fun t s' => s.Reads t s' ∧ t.label.kind.isBinary = false := by
  refine .get_bind ?_
  refine (expect_ensures .lBrace).bind fun lbrace s₁ h₁ => ?_
  refine (collectTrees_ensures (fun s _ => (hg.statement s).imp fun _ _ h => h.1.readsAll)
    s₁).bind fun statements s₂ h₂ => ?_
  refine (expect_ensures .rBrace).bind fun rbrace s₃ h₃ => ?_
  have h := (h₁.append h₂.takes).append h₃
  refine (close_ensures_kind rfl ?_ (h.lt (by simp)) rfl h₂.isLaid).imp
    fun t s' ht => ⟨ht.1, ht.2 ▸ rfl⟩
  simpa [slots, interleave, List.take_of_length_le, List.drop_of_length_le] using h

/-! ### Types -/

theorem enumerator_ensures (hg : g.IsSound) :
    (enumerator g).Ensures s fun t s' => s.Reads t s' ∧ t.label.kind.isName = false := by
  refine .get_bind ?_
  refine (expectName_ensures .enumerator).bind fun name s₁ h₁ => ?_
  refine eat?_bind (fun equal s₂ h₂ => ?_) ?_
  · refine (conditional_ensures hg).bind fun value s₃ h₃ => ?_
    have h := (h₁.append h₂).append h₃.takes
    refine (close_ensures_kind rfl ?_ (h.lt (by simp)) rfl (by simp [h₃.isLaid])).imp
      fun t s' ht => ⟨ht.1, ht.2 ▸ rfl⟩
    simpa [slots, interleave] using h
  · refine (close_ensures_kind rfl ?_ (h₁.lt (by simp)) rfl (by simp)).imp
      fun t s' ht => ⟨ht.1, ht.2 ▸ rfl⟩
    simpa [slots, interleave] using h₁

theorem enumerators_ensures (hg : g.IsSound) (n : Nat) (s : TokenStream) :
    (enumerators g n).Ensures s fun ts s' =>
      s.ReadsAll ts s' ∧ ∀ t ∈ ts, t.label.kind.isName = false := by
  induction n generalizing s with
  | zero => exact fail_ensures _
  | succ n ih =>
    refine .get_bind <| .ite (fun _ => .pure ⟨.nil (.refl s), by simp⟩) fun _ => ?_
    refine (enumerator_ensures hg).bind fun e s₁ h₁ => ?_
    obtain ⟨h₁, he⟩ := h₁
    refine eat?_bind (fun comma s₂ h₂ => ?_) (.pure ⟨h₁.readsAll, by simpa using he⟩)
    refine (ih s₂).bind fun es s₃ h₃ => .pure ?_
    exact ⟨.cons h₁ ((ReadsAll.nil h₂).append h₃.1), List.forall_mem_cons.2 ⟨he, h₃.2⟩⟩

theorem typeName?_ensures : typeName?.Ensures s fun o s' =>
    s.ReadsAll o.toList s' ∧ ∀ t ∈ o, t.label.kind.isName = true := by
  refine .get_bind <| .ite (fun _ => ?_) fun _ => .pure ⟨.nil (.refl s), by simp⟩
  exact name_ensures.bind fun t s' ht => .pure ⟨ht.1.readsAll, by simpa using ht.2⟩

/-- The parts of a type that is defined on the spot: its keyword, its name if it has one, and what
stands between its braces. -/
theorem interleave_definition {key lbrace rbrace : Nat} {name : Option PieceTree}
    {members : List PieceTree} (hname : ∀ t ∈ name, t.label.kind.isName = true)
    (hmembers : ∀ t ∈ members, t.label.kind.isName = false) :
    interleave ((NodeKind.classSpecifier key lbrace rbrace).slots
        ((name.toList ++ members).map (·.label.kind))) ((name.toList ++ members).map PieceTree.run)
      = [single key] ++ name.toList.map PieceTree.run ++ [single lbrace]
        ++ members.map PieceTree.run ++ [single rbrace] := by
  have hnone : (members.map (·.label.kind)).takeWhile isName = [] := by
    cases members with
    | nil => rfl
    | cons t ts => simp [hmembers t List.mem_cons_self]
  cases name with
  | none => simp [slots, interleave, hnone, List.take_of_length_le, List.drop_of_length_le]
  | some t =>
    simp [slots, interleave, hnone, hname t rfl, List.take_of_length_le, List.drop_of_length_le]

theorem enumSpecifier_ensures (hg : g.IsSound) (hs : s.rest ≠ []) :
    (enumSpecifier g).Ensures s s.Reads := by
  refine (advance_ensures hs).bind fun keyword s₁ h₁ => ?_
  obtain ⟨rfl, h₁⟩ := h₁
  refine typeName?_ensures.bind fun name s₂ h₂ => ?_
  obtain ⟨h₂, hname⟩ := h₂
  refine eat?_bind (fun lbrace s₃ h₃ => .get_bind ?_) ?_
  · refine (enumerators_ensures hg _ s₃).bind fun values s₄ h₄ => ?_
    obtain ⟨h₄, hvalues⟩ := h₄
    refine (expect_ensures .rBrace).bind fun rbrace s₅ h₅ => ?_
    have h := (((h₁.append h₂.takes).append h₃).append h₄.takes).append h₅
    refine close_ensures rfl ?_ (h.lt (by simp)) rfl
      (List.forall_mem_append.2 ⟨h₂.isLaid, h₄.isLaid⟩)
    exact (interleave_definition hname hvalues).symm ▸ h
  · cases name with
    | none => exact fail_ensures _
    | some name =>
      have h := h₁.append h₂.takes
      refine close_ensures rfl ?_ (h.lt (by simp)) rfl h₂.isLaid
      simpa [slots, interleave] using h

theorem accessLabel_ensures (hs : s.rest ≠ []) :
    accessLabel.Ensures s fun t s' => s.Reads t s' ∧ t.label.kind.isName = false := by
  refine (advance_ensures hs).bind fun access s₁ h₁ => ?_
  obtain ⟨rfl, h₁⟩ := h₁
  refine (eat?_ensures .kwSlots).bind fun slots' s₂ h₂ => ?_
  refine (expect_ensures .colon).bind fun colon s₃ h₃ => ?_
  have h := (h₁.append h₂).append h₃
  refine (close_ensures_kind rfl ?_ (h.lt (by simp)) rfl (by simp)).imp
    fun t s' ht => ⟨ht.1, ht.2 ▸ rfl⟩
  simpa [slots, interleave] using h

theorem macroMember_ensures (hs : s.rest ≠ []) :
    macroMember.Ensures s fun t s' => s.Reads t s' ∧ t.label.kind.isName = false := by
  refine (advance_ensures hs).bind fun token s₁ h₁ => ?_
  obtain ⟨rfl, h₁⟩ := h₁
  refine (eat?_ensures .semicolon).bind fun semicolon s₂ h₂ => ?_
  have h := h₁.append h₂.nil
  refine (close_ensures_kind rfl ?_ (h.lt (by simp)) rfl (by simp)).imp
    fun t s' ht => ⟨ht.1, ht.2 ▸ rfl⟩
  simpa [slots, interleave] using h

theorem member_ensures (hg : g.IsSound) :
    (member g).Ensures s fun t s' => s.Reads t s' ∧ t.label.kind.isName = false := by
  refine peek_ensures.bind fun k s₁ h₁ => ?_
  obtain ⟨rfl, rfl⟩ := h₁
  split
  case h_1 h | h_2 h | h_3 h | h_4 h =>
    exact accessLabel_ensures (rest_ne_nil_of_next?_eq_some h)
  case h_5 h =>
    exact .get_bind <| .ite (fun _ => macroMember_ensures (rest_ne_nil_of_next?_eq_some h))
      fun _ => hg.simpleDeclaration _ s₁
  case h_6 => exact hg.simpleDeclaration _ s₁

theorem classSpecifier_ensures (hg : g.IsSound) (hs : s.rest ≠ []) :
    (classSpecifier g).Ensures s s.Reads := by
  refine (advance_ensures hs).bind fun key s₁ h₁ => ?_
  obtain ⟨rfl, h₁⟩ := h₁
  refine typeName?_ensures.bind fun name s₂ h₂ => ?_
  obtain ⟨h₂, hname⟩ := h₂
  refine .get_bind <| .ite (fun _ => ?_) fun _ => ?_
  · refine (eat?_ensures .colon).bind fun colon s₃ h₃ => ?_
    refine .when_bind (fun _ => (skipTo_ensures .lBrace).imp fun _ _ h => h₃.nil.append h)
      (fun _ => h₃.nil) fun s₄ h₄ => ?_
    refine (expect_ensures .lBrace).bind fun lbrace s₅ h₅ => ?_
    refine (collectWhile_ensures (fun s _ => (member_ensures hg).imp
      fun t s' ht => ⟨ht.1.readsAll, ht.2⟩) s₅).bind fun members s₆ h₆ => ?_
    obtain ⟨h₆, hmembers⟩ := h₆
    refine (expect_ensures .rBrace).bind fun rbrace s₇ h₇ => ?_
    have h := (((h₁.append h₂.takes).append (h₄.append h₅)).append h₆.takes).append h₇
    refine close_ensures rfl ?_ (h.lt (by simp)) rfl
      (List.forall_mem_append.2 ⟨h₂.isLaid, h₆.isLaid⟩)
    exact (interleave_definition hname hmembers).symm ▸ h
  · cases name with
    | none => exact fail_ensures _
    | some name =>
      have h := h₁.append h₂.takes
      refine close_ensures rfl ?_ (h.lt (by simp)) rfl h₂.isLaid
      simpa [slots, interleave] using h

/-! ### Specifiers -/

theorem specifier_ensures (hg : g.IsSound) :
    (specifier g).Ensures s fun p s' => s.Reads p.1 s' := by
  refine .get_bind <| peek_ensures.bind fun k s₁ h₁ => ?_
  obtain ⟨rfl, rfl⟩ := h₁
  split
  case h_1 h =>
    exact (enumSpecifier_ensures hg (rest_ne_nil_of_next?_eq_some h)).bind fun _ _ ht => .pure ht
  case h_2 h =>
    have hne := rest_ne_nil_of_next?_eq_some h
    refine .ite (fun _ => ?_) fun _ => .ite (fun _ => ?_) fun _ => ?_
    · exact (classSpecifier_ensures hg hne).bind fun _ _ ht => .pure ht
    · refine (advance_ensures hne).bind fun token s₂ h₂ => ?_
      refine Ensures.bind (close_ensures rfl ?_ (h₂.2.lt (by simp)) rfl (by simp))
        fun _ _ ht => .pure ht
      simpa [slots, interleave] using h₂.2
    · refine name_ensures.bind fun name s₂ h₂ => ?_
      obtain ⟨h₂, -⟩ := h₂
      refine Ensures.bind (close_ensures rfl ?_ (h₂.takes.lt (by simp)) rfl h₂.readsAll.isLaid)
        fun _ _ ht => .pure ht
      simpa [slots, interleave] using h₂.takes
  case h_3 => exact fail_ensures _

theorem specifiers_ensures (hg : g.IsSound) : (specifiers g).Ensures s s.ReadsAll := by
  let I (p : List PieceTree × Bool) (s' : TokenStream) : Prop := s.ReadsAll p.1.reverse s'
  have hloop : (repeatWhile (fun p s => isSpecifierNext p.2 s)
      (fun p => do
        let q ← specifier g
        return (q.1 :: p.1, p.2 || q.2))
      (([] : List PieceTree), false)).Ensures s I := by
    refine repeatWhile_ensures (fun p s₁ h₁ _ => ?_) (ReadsAll.nil (.refl s))
    refine (specifier_ensures hg).bind fun q s₂ h₂ => .pure ?_
    show s.ReadsAll (q.1 :: p.1).reverse s₂
    rw [List.reverse_cons]
    exact h₁.append h₂.readsAll
  exact hloop.bind fun p s₁ h₁ => .pure h₁

/-! ### Declarators -/

theorem rest_ne_nil_of_isPointerNext {seen : List Nat} (h : isPointerNext seen s = true) :
    s.rest ≠ [] := by
  intro hnil
  simp [isPointerNext, next?, hnil] at h

theorem pointers_ensures : pointers.Ensures s fun is s' => s.Takes (is.map .single) s' := by
  let I (seen : List Nat) (s' : TokenStream) : Prop := s.Takes (seen.reverse.map .single) s'
  have hloop : (repeatWhile isPointerNext (fun seen => do return (← advance) :: seen) []).Ensures
      s I := by
    refine repeatWhile_ensures (fun seen s₁ h₁ hs => ?_) (Takes.refl s)
    refine (advance_ensures (rest_ne_nil_of_isPointerNext hs)).bind fun i s₂ h₂ => .pure ?_
    show s.Takes ((i :: seen).reverse.map single) s₂
    rw [List.reverse_cons, List.map_append]
    exact h₁.append h₂.2
  exact hloop.bind fun p s₁ h₁ => .pure h₁

theorem declaratorName?_ensures :
    declaratorName?.Ensures s fun o s' => s.ReadsAll o.toList s' := by
  refine .get_bind <| peek_ensures.bind fun k s₁ h₁ => ?_
  obtain ⟨rfl, rfl⟩ := h₁
  split
  case h_1 | h_2 | h_3 =>
    refine name_ensures.bind fun name s₂ h₂ => ?_
    obtain ⟨h₂, -⟩ := h₂
    refine Ensures.bind (close_ensures rfl ?_ (h₂.takes.lt (by simp)) rfl h₂.readsAll.isLaid)
      fun _ _ ht => .pure ht.readsAll
    simpa [slots, interleave] using h₂.takes
  case h_4 => exact .pure (.nil (.refl s₁))

theorem arrayBounds_ensures : arrayBounds.Ensures s fun _ s' => s.Takes [] s' := by
  refine (collectTokens_ensures (fun s hs => ?_) s).bind fun _ _ h => .pure h.nil
  refine (advance_ensures (rest_ne_nil_of_isAt hs)).bind fun _ s₁ h₁ => ?_
  refine (skipTo_ensures .rBracket).bind fun _ s₂ h₂ => ?_
  exact (expect_ensures .rBracket).imp fun _ _ h => (h₁.2.nil.append h₂).append h

/-- Two ways to go on, with an initial value and without one. -/
theorem initialValue?_bind {α : Type} {f : Option (Nat × PieceTree) → Parse α}
    {Q : α → TokenStream → Prop} (hg : g.IsSound)
    (hsome : ∀ equal value s', s.Takes [.single equal, value.run] s' → value.IsLaid →
      (f (some (equal, value))).Ensures s' Q)
    (hnone : (f none).Ensures s Q) : (initialValue? g >>= f).Ensures s Q := by
  have hvalue : (initialValue? g).Ensures s fun o s' =>
      (∃ equal value, o = some (equal, value) ∧ s.Takes [.single equal, value.run] s' ∧
        value.IsLaid) ∨ o = none ∧ s' = s := by
    refine eat?_bind (fun equal s₁ h₁ => ?_) (.pure (.inr ⟨rfl, rfl⟩))
    refine (hg.assignment s₁).bind fun value s₂ h₂ => .pure ?_
    exact .inl ⟨equal, value, rfl, h₁.append h₂.takes, h₂.isLaid⟩
  refine hvalue.bind fun o s' ho => ?_
  rcases ho with ⟨equal, value, rfl, htakes, hlaid⟩ | ⟨rfl, rfl⟩
  · exact hsome equal value s' htakes hlaid
  · exact hnone

/-- A node for which no token may have been taken. -/
theorem close_ensures_or_eq {kind : NodeKind} {first : Nat} {cs : List PieceTree}
    (hif : kind.isIf = false)
    (h : s₀.Takes (interleave (kind.slots (cs.map (·.label.kind))) (cs.map PieceTree.run)) s)
    (hfirst : first = s₀.position) (hcs : ∀ c ∈ cs, c.IsLaid) :
    (close kind first cs).Ensures s fun t s' => s' = s ∧ (s₀.Reads t s' ∨ s' = s₀) := by
  by_cases hlt : s₀.position < s.position
  · exact (close_ensures_eq.and (close_ensures hif h hlt hfirst hcs)).imp
      fun t s' ht => ⟨ht.1, .inl ht.2⟩
  · have hsame : s = s₀ := h.eq_of_position_eq (Nat.le_antisymm (Nat.le_of_not_lt hlt) h.le)
    exact close_ensures_eq.imp fun t s' ht => ⟨ht, .inr (ht.trans hsame)⟩

/-- A declarator with its first parts takes the tokens of one tree, or no token at all. -/
theorem closeDeclarator_ensures (hg : g.IsSound) {first : Nat} {pointers : List Nat}
    {parts : List PieceTree} (hfirst : first = s₀.position)
    (h₀ : s₀.Takes (pointers.map .single ++ parts.map PieceTree.run) s)
    (hparts : ∀ t ∈ parts, t.IsLaid) :
    (closeDeclarator g first pointers parts).Ensures s fun t s' =>
      s.position ≤ s'.position ∧ (s₀.Reads t s' ∨ s' = s₀) := by
  refine arrayBounds_ensures.bind fun _ s₁ h₁ => ?_
  refine initialValue?_bind hg (fun equal value s₂ h₂ hvalue => ?_) ?_
  · refine (close_ensures_or_eq rfl ?_ hfirst
      (List.forall_mem_append.2 ⟨hparts, by simpa using hvalue⟩)).imp
      fun t s' ht => ⟨ht.1 ▸ (h₁.append h₂).le, ht.2⟩
    simpa [slots, interleave, List.take_append, List.take_of_length_le,
      List.drop_of_length_le] using (h₀.append h₁).append h₂
  · refine (close_ensures_or_eq rfl ?_ hfirst hparts).imp fun t s' ht => ⟨ht.1 ▸ h₁.le, ht.2⟩
    simpa [slots, interleave, List.take_of_length_le, List.drop_of_length_le] using h₀.append h₁

/-! ### Parameters -/

/-- A declarator in a parameter may have no part at all. -/
theorem parameterDeclarator_ensures (hg : g.IsSound) :
    (parameterDeclarator g).Ensures s fun t s' => s.Reads t s' ∨ s' = s := by
  refine .get_bind ?_
  refine pointers_ensures.bind fun pointers s₁ h₁ => ?_
  refine declaratorName?_ensures.bind fun core s₂ h₂ => ?_
  exact (closeDeclarator_ensures hg rfl (h₁.append h₂.takes) h₂.isLaid).imp fun _ _ ht => ht.2

/-- A parameter is read, or its declarator has no part and the list goes no further. -/
theorem parameter_ensures (hg : g.IsSound) :
    (parameter g).Ensures s fun t s' => s.Reads t s' ∨ s'.IsStuck := by
  refine .get_bind <| (specifiers_ensures hg).bind fun specifiers s₁ h₁ => ?_
  refine .ite (fun _ => (fail_ensures _ (Q := fun _ _ => False)).bind fun _ _ h => h.elim)
    fun hne => .get_bind ?_
  have hlt : s.position < s₁.position := h₁.takes.lt (by simpa using hne)
  refine .ite (fun _ => ?_) fun hmore => ?_
  · refine (close_ensures rfl ?_ hlt rfl h₁.isLaid).imp fun _ _ ht => .inl ht
    simpa [slots, interleave] using h₁.takes
  · refine (parameterDeclarator_ensures hg).bind fun declarator s₂ h₂ => ?_
    rcases h₂ with h₂ | rfl
    · have h := h₁.append h₂.readsAll
      refine (close_ensures rfl ?_ (Nat.lt_of_lt_of_le hlt h₂.takes.le) rfl h.isLaid).imp
        fun _ _ ht => .inl ht
      simpa [slots, interleave] using h.takes
    · exact close_ensures_eq.imp fun _ _ ht => .inr (by simpa [IsStuck, ht] using hmore)

/-- **A list that goes no further** after one of its items has not ended: all items are read, or the
place after the last one is such a place. -/
theorem commaSeparated_ensures_or_stuck {α : Type} {item : Parse α}
    (one : TokenStream → α → TokenStream → Prop) {many : TokenStream → List α → TokenStream → Prop}
    (hnil : ∀ s, many s [] s)
    (hcons : ∀ s a m as s', one s a m → many m as s' → many s (a :: as) s')
    (hcomma : ∀ s a s', s.isAt .comma = true → one s.tail a s' → one s a s')
    (hitem : ∀ s, item.Ensures s fun a s' => one s a s' ∨ s'.IsStuck) (s : TokenStream) :
    (commaSeparated item).Ensures s fun as s' => many s as s' ∨ s'.IsStuck := by
  -- a place where the list goes no further ends the loop
  let rest (s : TokenStream) (as : List α) (s' : TokenStream) : Prop :=
    (s.IsStuck → s' = s) ∧ (many s as s' ∨ s'.IsStuck)
  have hrest {s a m as s'} (hone : one s a m ∨ m.IsStuck) (hmany : rest m as s') :
      many s (a :: as) s' ∨ s'.IsStuck := by
    rcases hone with hone | hstuck
    · exact hmany.2.imp_left (hcons s a m as s' hone)
    · exact .inr (hmany.1 hstuck ▸ hstuck)
  have hloop : ∀ s : TokenStream, (collectWhile (·.isAt .comma) (do
      let _ ← advance
      item)).Ensures s (rest s) := by
    intro s
    refine .get_bind <| @items_ensures _ _ _ (fun s a s' => one s a s' ∨ s'.IsStuck) rest
      (fun s => ⟨fun _ => rfl, .inl (hnil s)⟩) (fun s a m as s' hmore hone hmany => ?_)
      (fun s hmore => ?_) _ s
    · exact ⟨fun hstuck => absurd hmore (by simp [hstuck.1]), hrest hone hmany⟩
    · refine advance_ensures_tail.bind fun _ s₁ h₁ => ?_
      obtain ⟨-, rfl⟩ := h₁
      exact (hitem s.tail).imp fun a s' ha => ha.imp_left (hcomma s a s' hmore)
  exact (hitem s).bind fun a s₁ h₁ => (hloop s₁).bind fun as s₂ h₂ => .pure (hrest h₁ h₂)

/-- Parameters are read, or the list goes no further and has not ended. -/
theorem parameters_ensures (hg : g.IsSound) :
    (if s.isAt .rParen then pure [] else commaSeparated (parameter g)).Ensures s fun ts s' =>
      s.ReadsAll ts s' ∨ s'.IsStuck := by
  refine .ite (fun _ => .pure (.inl (.nil (.refl s)))) fun _ => ?_
  refine commaSeparated_ensures_or_stuck (fun s t s' => s.ReadsAll [t] s')
    (fun s => .nil (.refl s)) (fun s t m ts s' => .append) (fun s t s' hcomma ht => ?_)
    (fun s => (parameter_ensures hg).imp fun t s' ht => ht.imp_left Reads.readsAll) s
  exact (ReadsAll.nil (takes_tail (rest_ne_nil_of_isAt hcomma))).append ht

/-- **A parameter list that ends holds no empty declarator.** -/
theorem parameterList_ensures (hg : g.IsSound) (hs : s.rest ≠ []) :
    (parameterList g).Ensures s s.Reads := by
  refine (advance_ensures hs).bind fun lparen s₁ h₁ => .get_bind ?_
  obtain ⟨rfl, h₁⟩ := h₁
  refine .ite_bind (parameters_ensures hg) fun parameters s₂ h₂ => ?_
  rcases h₂ with h₂ | hstuck
  · refine (expect_ensures .rParen).bind fun rparen s₃ h₃ => ?_
    refine (eat?_ensures .kwConst).bind fun const s₄ h₄ => ?_
    have h := ((h₁.append h₂.takes).append h₃).append h₄
    refine close_ensures rfl ?_ (h.lt (by simp)) rfl h₂.isLaid
    simpa [slots, interleave, List.take_of_length_le, List.drop_of_length_le] using h
  · exact (expect_ensures_of_isAt_eq_false hstuck.2 (Q := fun _ _ => False)).bind
      fun _ _ h => h.elim

theorem declarator_ensures (hg : g.IsSound) :
    (declarator g).Ensures s fun p s' => s.Reads p.1 s' := by
  refine .get_bind <| pointers_ensures.bind fun pointers s₁ h₁ => ?_
  refine declaratorName?_ensures.bind fun core s₂ h₂ => ?_
  cases core with
  | none => exact fail_ensures _
  | some core =>
    have hlt : s.position < s₂.position := (h₁.append h₂.takes).lt (by simp)
    refine .get_bind <| .ite (fun hs => ?_) fun _ => ?_
    · refine (parameterList_ensures hg (rest_ne_nil_of_isAt hs)).bind fun parameters s₃ h₃ => ?_
      have hparts := h₂.append h₃.readsAll
      refine Ensures.bind (closeDeclarator_ensures hg rfl (h₁.append hparts.takes) hparts.isLaid)
        fun t s' ht => .pure (ht.2.resolve_right fun heq => ?_)
      have := h₃.takes.le
      have := ht.1
      subst heq
      omega
    · refine Ensures.bind (closeDeclarator_ensures hg rfl (h₁.append h₂.takes) h₂.isLaid)
        fun t s' ht => .pure (ht.2.resolve_right fun heq => ?_)
      have := ht.1
      subst heq
      omega

/-! ### Declarations -/

theorem closeDeclaration_ensures {first : Nat} {parts : List PieceTree}
    (hfirst : first = s₀.position) (h₀ : s₀.ReadsAll parts s) :
    (closeDeclaration first parts).Ensures s fun t s' =>
      s₀.Reads t s' ∧ t.label.kind.isName = false := by
  refine (expect_ensures .semicolon).bind fun semicolon s₁ h₁ => ?_
  have h := h₀.takes.append h₁
  refine (close_ensures_kind rfl ?_ (h.lt (by simp)) hfirst h₀.isLaid).imp
    fun t s' ht => ⟨ht.1, ht.2 ▸ rfl⟩
  simpa [slots, interleave, List.take_of_length_le, List.drop_of_length_le] using h

theorem simpleDeclaration_ensures (hg : g.IsSound) (place : DeclarationPlace) :
    (simpleDeclaration g place).Ensures s fun t s' =>
      s.Reads t s' ∧ t.label.kind.isName = false := by
  refine .get_bind <| (specifiers_ensures hg).bind fun specifiers s₁ h₁ => ?_
  refine .get_bind <| .ite (fun _ => closeDeclaration_ensures rfl h₁) fun _ => ?_
  refine (declarator_ensures hg).bind fun p s₂ h₂ => .get_bind ?_
  refine .ite (fun _ => ?_) fun _ => ?_
  · refine (block_ensures hg).bind fun body s₃ h₃ => ?_
    obtain ⟨h₃, -⟩ := h₃
    have h := h₁.append (.cons h₂ h₃.readsAll)
    refine (close_ensures_kind rfl ?_ (h.takes.lt (by simp)) rfl h.isLaid).imp
      fun t s' ht => ⟨ht.1, ht.2 ▸ rfl⟩
    simpa [slots, interleave] using h.takes
  · refine (collectTrees_ensures (fun s hs => ?_) s₂).bind fun others s₃ h₃ =>
      closeDeclaration_ensures rfl (h₁.append (.cons h₂ h₃))
    refine (advance_ensures (rest_ne_nil_of_isAt hs)).bind fun _ s₃ h₃ => ?_
    exact (declarator_ensures hg).bind fun p s₄ h₄ =>
      .pure ((ReadsAll.nil h₃.2).append h₄.readsAll)

theorem namespaceBody_ensures (hg : g.IsSound) (hs : s.rest ≠ []) :
    (namespaceBody g).Ensures s s.Reads := by
  refine (advance_ensures hs).bind fun keyword s₁ h₁ => ?_
  obtain ⟨rfl, h₁⟩ := h₁
  refine (eat?_ensures .identifier).bind fun name s₂ h₂ => ?_
  refine (expect_ensures .lBrace).bind fun lbrace s₃ h₃ => ?_
  refine (collectTrees_ensures (fun s _ => (hg.declaration s).imp fun _ _ h => h.readsAll)
    s₃).bind fun declarations s₄ h₄ => ?_
  refine (expect_ensures .rBrace).bind fun rbrace s₅ h₅ => ?_
  have h := (((h₁.append h₂).append h₃).append h₄.takes).append h₅
  refine close_ensures rfl ?_ (h.lt (by simp)) rfl h₄.isLaid
  simpa [slots, interleave, List.take_of_length_le, List.drop_of_length_le] using h

theorem declaration_ensures (hg : g.IsSound) : (declaration g).Ensures s s.Reads :=
  .get_bind <| .ite (fun hs => namespaceBody_ensures hg (rest_ne_nil_of_isAt hs)) fun _ =>
    (simpleDeclaration_ensures hg _).imp fun _ _ h => h.1

end Parse

end Mend
