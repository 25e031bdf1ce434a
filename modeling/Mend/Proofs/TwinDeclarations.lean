import Mend.Proofs.TwinExpressions

/-!
# Declarations side by side

Every parser of a declaration or of a part of one reads the same in two runs whose states belong
together.

## Main results

* `Twin.Matches.specifiers`, `Twin.Matches.declarator` — the two halves of a declaration.
* `Twin.Matches.simpleDeclaration`, `Twin.Matches.declaration` — declarations.
-/

namespace Mend

namespace Twin

open Parse Movable

namespace Matches

variable {σ : Twin} {g g' : Grammar} {ts : List PieceTree} (hσ : σ.Couples g g')

include hσ

/-- The statements of a block. -/
theorem statements : Items σ ts (·.isBefore .rBrace) g.statement g'.statement where
  sees h := TokenStream.isBefore_eq_of_lookAlike h _
  stops h := by simp [TokenStream.isBefore, TokenStream.next?, h]
  shrinks {s} _ := (hσ.sound.statement s).imp fun _ _ h => h.1.takes.length_lt (by simp)
  shrinks' {s} _ := (hσ.sound'.statement s).imp fun _ _ h => h.1.takes.length_lt (by simp)
  item := hσ.statement ts

theorem block : σ.Matches ts (Parse.block g) (Parse.block g') := by
  refine .look fun s s' _ hposition => Matches.bind (expect _) fun lbrace => ?_
  refine Matches.bind (collectWhile (statements hσ)) fun statements => ?_
  rw [hposition]
  exact Matches.bind (expect _) fun rbrace => close rfl (by simp)

/-! ### Types -/

theorem enumerator : σ.Matches ts (Parse.enumerator g) (Parse.enumerator g') := by
  refine .look fun s s' _ hposition => Matches.bind (expectName _) fun name => ?_
  rw [hposition]
  refine Matches.bind (eat? _) fun equal => ?_
  cases equal with
  | some equal => exact Matches.bind (conditional hσ) fun value => close rfl (by simp)
  | none => exact close rfl (by simp)

omit hσ in
theorem typeName? : σ.Matches ts Parse.typeName? Parse.typeName? :=
  .ite (fun h => TokenStream.isAt_eq_of_lookAlike h _)
    (Matches.bind name fun t => .pure (x := some t) (by simp)) (.pure (x := none) (by simp))

/-- Enumerators, with any number of rounds that is enough for the tokens of the second run. -/
theorem enumerators_matches (n : Nat) {ph : Phase} {s s' : TokenStream} (hat : σ.At ph s s')
    (hfits : σ.Fits ph ts) :
    (enumerators g n).Ensures s fun xs s₁ => σ.Meets ph ts xs s₁ fun s₁' =>
      ∀ n', s'.rest.length < n' → (enumerators g' n').Yields s' (σ.carry xs) s₁' := by
  induction n generalizing ph s s' ts with
  | zero => exact fail_ensures _
  | succ n ih =>
    have hlook (hph : ph ≠ .lost) := TokenStream.isAt_eq_of_lookAlike (σ.lookAlike hat hph) .rBrace
    refine .get_bind <| .ite (fun hbrace => .pure ?_) fun hbrace => ?_
    · refine ⟨ph, s', hat, by simpa using hfits, id, id, fun hph n' hn' => ?_⟩
      cases n' with
      | zero => omega
      | succ n' =>
        refine .get_bind ?_
        rw [if_pos ((hlook hph).trans hbrace)]
        exact .pure _ _
    · refine (enumerator hσ ph s s' hat hfits).bind fun e s₁ he => ?_
      obtain ⟨ph₁, s₁', hat₁, hfits₁, hafter₁, hlost₁, hyields₁⟩ := he
      refine (eat? .comma ph₁ s₁ s₁' hat₁ hfits₁).bind fun comma s₂ hcomma => ?_
      obtain ⟨ph₂, s₂', hat₂, hfits₂, hafter₂, hlost₂, hyields₂⟩ := hcomma
      have hfits' : σ.Fits ph₂ (ts ++ [e]) := hfits₂.mono id (List.subset_append_left _ _)
      have hph₁ (hph : ph₂ ≠ .lost) : ph₁ ≠ .lost := mt hlost₂ hph
      cases comma with
      | none =>
        refine .pure ⟨ph₂, s₂', hat₂, by simpa using hfits', hafter₂ ∘ hafter₁, hlost₂ ∘ hlost₁,
          fun hph n' hn' => ?_⟩
        cases n' with
        | zero => omega
        | succ n' =>
          refine .get_bind ?_
          rw [if_neg (by rwa [hlook (mt hlost₁ (hph₁ hph))])]
          exact (hyields₁ (hph₁ hph)).bind ((hyields₂ hph).bind (.pure _ _))
      | some comma =>
        refine (ih hat₂ hfits').bind fun es s₃ hes => .pure ?_
        obtain ⟨ph₃, s₃', hat₃, hfits₃, hafter₃, hlost₃, hyields₃⟩ := hes
        refine ⟨ph₃, s₃', hat₃, by simpa using hfits₃, hafter₃ ∘ hafter₂ ∘ hafter₁,
          hlost₃ ∘ hlost₂ ∘ hlost₁, fun hph n' hn' => ?_⟩
        have hph₂ : ph₂ ≠ .lost := mt hlost₃ hph
        have he := hyields₁ (hph₁ hph₂)
        have hcomma := hyields₂ hph₂
        have hlt := (enumerator_ensures hσ.sound' _ _ he).1.takes.length_lt (by simp)
        have hle := (eat?_ensures .comma _ _ hcomma).length_le
        cases n' with
        | zero => omega
        | succ n' =>
          refine .get_bind ?_
          rw [if_neg (by rwa [hlook (mt hlost₁ (hph₁ hph₂))])]
          exact he.bind (hcomma.bind ((hyields₃ hph n' (by omega)).bind (.pure _ _)))

theorem enumSpecifier : σ.Matches ts (Parse.enumSpecifier g) (Parse.enumSpecifier g') := by
  have henumerators : ∀ us, σ.Matches us
      (get >>= fun s => enumerators g (s.rest.length + 1))
      (get >>= fun s => enumerators g' (s.rest.length + 1)) := by
    intro us ph s s' hat hfits
    refine .get_bind <| (enumerators_matches hσ _ hat hfits).imp fun xs s₁ hxs => ?_
    obtain ⟨ph₁, s₁', hat₁, hfits₁, hafter, hlost, hyields⟩ := hxs
    exact ⟨ph₁, s₁', hat₁, hfits₁, hafter, hlost, fun hph =>
      .get_bind (hyields hph _ (Nat.lt_succ_self _))⟩
  have hvalues {us : List PieceTree} {f f' : List PieceTree → Parse PieceTree}
      (hf : ∀ xs, σ.Matches (us ++ trees xs) (f xs) (f' (σ.carry xs))) : σ.Matches us
        (get >>= fun s => enumerators g (s.rest.length + 1) >>= f)
        (get >>= fun s => enumerators g' (s.rest.length + 1) >>= f') :=
    .congr (Matches.bind (henumerators us) hf) (fun _ => rfl) fun _ => rfl
  refine Matches.bind advance fun keyword => Matches.bind typeName? fun name => ?_
  refine Matches.bind (eat? _) fun lbrace => ?_
  cases lbrace with
  | some lbrace =>
    exact hvalues fun values => Matches.bind (expect _) fun rbrace =>
      close_congr rfl (by simp) (by simp)
  | none =>
    cases name with
    | none => exact .fail _
    | some name => exact close rfl (by simp)

omit hσ in
theorem accessLabel : σ.Matches ts Parse.accessLabel Parse.accessLabel :=
  Matches.bind advance fun access => Matches.bind (eat? _) fun slots =>
    Matches.bind (expect _) fun colon => close rfl (by simp)

omit hσ in
theorem macroMember : σ.Matches ts Parse.macroMember Parse.macroMember :=
  Matches.bind advance fun token => Matches.bind (eat? _) fun _ => close rfl (by simp)

theorem member : σ.Matches ts (Parse.member g) (Parse.member g') := by
  refine .peek_bind fun k => ?_
  split
  case h_1 | h_2 | h_3 | h_4 => exact accessLabel
  case h_5 =>
    exact .ite (fun h => isSpelled_eq_of_lookAlike h _) macroMember (hσ.simpleDeclaration _ _)
  case h_6 => exact hσ.simpleDeclaration _ _

theorem classSpecifier : σ.Matches ts (Parse.classSpecifier g) (Parse.classSpecifier g') := by
  have hmembers : ∀ us, Items σ us (·.isBefore .rBrace) (Parse.member g) (Parse.member g') :=
    fun us =>
    { sees := fun h => TokenStream.isBefore_eq_of_lookAlike h _
      stops := fun h => by simp [TokenStream.isBefore, TokenStream.next?, h]
      shrinks := fun {s} _ =>
        (member_ensures hσ.sound).imp fun _ _ h => h.1.takes.length_lt (by simp)
      shrinks' := fun {s} _ =>
        (member_ensures hσ.sound').imp fun _ _ h => h.1.takes.length_lt (by simp)
      item := member hσ }
  refine Matches.bind advance fun key => Matches.bind typeName? fun name => ?_
  refine .ite (fun h => by
    rw [TokenStream.isAt_eq_of_lookAlike h, TokenStream.isAt_eq_of_lookAlike h]) ?_ ?_
  · refine Matches.bind (eat? _) fun colon => ?_
    have hbody : ∀ us, trees name ⊆ us → σ.Matches us
        (do
          let lbrace ← Parse.expect .lBrace
          let members ← Parse.collectWhile (·.isBefore .rBrace) (Parse.member g)
          let rbrace ← Parse.expect .rBrace
          Parse.close (.classSpecifier key lbrace rbrace) key (name.toList ++ members))
        (do
          let lbrace ← Parse.expect .lBrace
          let members ← Parse.collectWhile (·.isBefore .rBrace) (Parse.member g')
          let rbrace ← Parse.expect .rBrace
          Parse.close (.classSpecifier (σ.carry key) lbrace rbrace) (σ.carry key)
            ((σ.carry name).toList ++ members)) := by
      intro us hus
      refine Matches.bind (expect _) fun lbrace => ?_
      refine Matches.bind (collectWhile (hmembers _)) fun members => ?_
      refine Matches.bind (expect _) fun rbrace => close_congr rfl ?_ (by simp)
      have hname : name.toList ⊆ us := by simpa using hus
      refine List.append_subset.2 ⟨List.Subset.trans hname ?_, ?_⟩ <;> simp
    cases colon with
    | none => exact hbody _ (by simp)
    | some colon => exact Matches.bind (skipTo _) fun _ => hbody _ (by simp)
  · cases name with
    | none => exact .fail _
    | some name => exact close rfl (by simp)

/-! ### Specifiers -/

theorem specifier : σ.Matches ts (Parse.specifier g) (Parse.specifier g') := by
  refine .look fun s s' _ hposition => .peek_bind fun k => ?_
  rw [hposition]
  split
  · exact Matches.bind (enumSpecifier hσ) fun t => .pure (x := (t, true)) (by simp)
  · split
    · exact Matches.bind (classSpecifier hσ) fun t => .pure (x := (t, true)) (by simp)
    · split
      · exact Matches.bind advance fun token => Matches.bind (close rfl (by simp)) fun t =>
          .pure (x := (t, TokenKind.isTypeKeyword _)) (by simp)
      · exact Matches.bind name fun t => Matches.bind (close rfl (by simp)) fun t =>
          .pure (x := (t, true)) (by simp)
  · exact .fail _

theorem specifiers : σ.Matches ts (Parse.specifiers g) (Parse.specifiers g') := by
  have hspecifiers : Rounds σ ts False (fun _ => True) (fun p s => isSpecifierNext p.2 s)
      (fun p => do
        let q ← Parse.specifier g
        return (q.1 :: p.1, p.2 || q.2))
      (fun p => do
        let q ← Parse.specifier g'
        return (q.1 :: p.1, p.2 || q.2)) :=
    { sees := fun h => isSpecifierNext_eq_of_lookAlike h _
      stops := fun h => by simp [isSpecifierNext, TokenStream.next?, h]
      shrinks := fun _ => (specifier_ensures hσ.sound).bind fun _ _ h =>
        .pure (h.takes.length_lt (by simp))
      shrinks' := fun _ => (specifier_ensures hσ.sound').bind fun _ _ h =>
        .pure (h.takes.length_lt (by simp))
      keeps := fun _ _ _ _ => trivial
      step := fun {us x ph s s'} _ hx _ _ _ => by
        refine Matches.bind (specifier hσ) (fun q => ?_) ph s s'
        refine .pure (x := (q.1 :: x.1, x.2 || q.2)) ?_
        have hx : x.1 ⊆ us := by simpa using hx
        simp only [trees_prod, trees_list, trees_bool, flatMap_trees, trees_tree, List.append_nil]
        exact List.cons_subset.2 ⟨by simp, List.Subset.trans hx (by simp)⟩ }
  refine Matches.bind (repeatWhile hspecifiers (x := ([], false)) (by simp) trivial) fun p => ?_
  have hreverse : σ.carry p.1.reverse = (σ.carry p).1.reverse := List.map_reverse
  show σ.Matches _ (Pure.pure p.1.reverse) (Pure.pure (σ.carry p).1.reverse)
  rw [← hreverse]
  exact .pure (by simp)

/-! ### Declarators -/

omit hσ in
theorem pointers : σ.Matches ts Parse.pointers Parse.pointers := by
  have hpointers : Rounds σ ts False (fun _ => True) isPointerNext
      (fun seen => do return (← Parse.advance) :: seen)
      (fun seen => do return (← Parse.advance) :: seen) :=
    { sees := fun {x} _ _ h => by
        rw [isPointerNext, isPointerNext, TokenStream.next?_eq_of_lookAlike h]
        cases x <;> rfl
      stops := fun h => by simp [isPointerNext, TokenStream.next?, h]
      shrinks := fun h => advance_bind_shrinks (rest_ne_nil_of_isPointerNext h) fun _ _ =>
        .pure (Nat.le_refl _)
      shrinks' := fun h => advance_bind_shrinks (rest_ne_nil_of_isPointerNext h) fun _ _ =>
        .pure (Nat.le_refl _)
      keeps := fun _ _ _ _ => trivial
      step := fun {us x ph s s'} _ hx _ _ _ =>
        Matches.bind advance (fun i => .pure (x := i :: x) (by simp)) ph s s' }
  refine Matches.bind (repeatWhile hpointers (x := []) (by simp) trivial) fun seen => ?_
  have hreverse : σ.carry seen.reverse = (σ.carry seen).reverse := List.map_reverse
  show σ.Matches _ (Pure.pure seen.reverse) (Pure.pure (σ.carry seen).reverse)
  rw [← hreverse]
  exact .pure (by simp)

omit hσ in
theorem declaratorName? : σ.Matches ts Parse.declaratorName? Parse.declaratorName? := by
  refine .look fun s s' _ hposition => .peek_bind fun k => ?_
  rw [hposition]
  split
  case h_1 | h_2 | h_3 =>
    exact Matches.bind name fun t => Matches.bind (close rfl (by simp)) fun t =>
      .pure (x := some t) (by simp)
  case h_4 => exact .pure (x := none) (by simp)

omit hσ in
theorem arrayBounds : σ.Matches ts Parse.arrayBounds Parse.arrayBounds := by
  have hshrinks {s : TokenStream} (h : s.isAt .lBracket = true) : (do
      let _ ← Parse.advance
      Parse.skipTo .rBracket
      Parse.expect .rBracket : Parse Nat).Shrinks s :=
    advance_bind_shrinks (TokenStream.rest_ne_nil_of_isAt h) fun _ _ =>
      (skipTo_ensures _).bind fun _ _ h₁ =>
        (expect_ensures _).imp fun _ _ h₂ => (h₁.append h₂).length_le
  have hbounds : Items σ ts (·.isAt .lBracket)
      (do
        let _ ← Parse.advance
        Parse.skipTo .rBracket
        Parse.expect .rBracket)
      (do
        let _ ← Parse.advance
        Parse.skipTo .rBracket
        Parse.expect .rBracket) :=
    { sees := fun h => TokenStream.isAt_eq_of_lookAlike h _
      stops := fun h => by simp [TokenStream.isAt, TokenStream.next?, h]
      shrinks := hshrinks
      shrinks' := hshrinks
      item := Matches.bind advance fun _ => Matches.bind (skipTo _) fun _ => expect _ }
  exact Matches.bind (collectWhile hbounds) fun _ => .pure (x := ()) (by simp)

theorem initialValue? : σ.Matches ts (Parse.initialValue? g) (Parse.initialValue? g') := by
  refine Matches.bind (eat? _) fun equal => ?_
  cases equal with
  | some equal =>
    exact Matches.bind (hσ.assignment _) fun value => .pure (x := some (equal, value)) (by simp)
  | none => exact .pure (x := none) (by simp)

/-- The rest of a declarator. -/
theorem closeDeclarator {first : Nat} {pointers : List Nat} (parts : List PieceTree)
    (hparts : parts ⊆ ts) :
    σ.Matches ts (Parse.closeDeclarator g first pointers parts)
      (Parse.closeDeclarator g' (σ.mark first) (pointers.map σ.mark) (parts.map σ.rewrite)) := by
  refine Matches.bind arrayBounds fun _ => Matches.bind (initialValue? hσ) fun value => ?_
  cases value with
  | some value =>
    refine close_congr rfl (List.append_subset.2 ⟨List.Subset.trans hparts (by simp), by simp⟩) ?_
    simp
    rfl
  | none => exact close rfl (List.Subset.trans hparts (by simp))

theorem parameterDeclarator :
    σ.Matches ts (Parse.parameterDeclarator g) (Parse.parameterDeclarator g') := by
  refine .look fun s s' _ hposition => Matches.bind pointers fun seen => ?_
  rw [hposition]
  refine Matches.bind declaratorName? fun core => ?_
  rw [toList_carry]
  exact closeDeclarator hσ _ (by simp)

theorem parameter : σ.Matches ts (Parse.parameter g) (Parse.parameter g') := by
  refine .look fun s s' _ hposition => Matches.bind (specifiers hσ) fun found => ?_
  rw [hposition]
  have hrest : σ.Matches (ts ++ trees found)
      (get >>= fun s₁ => if s₁.isAt .comma || s₁.isAt .rParen then
          Parse.close .parameter s.position found
        else Parse.parameterDeclarator g >>= fun t =>
          Parse.close .parameter s.position (found ++ [t]))
      (get >>= fun s₁ => if s₁.isAt .comma || s₁.isAt .rParen then
          Parse.close .parameter (σ.mark s.position) (σ.carry found)
        else Parse.parameterDeclarator g' >>= fun t =>
          Parse.close .parameter (σ.mark s.position) (σ.carry found ++ [t])) := by
    refine .ite (fun h => by
      rw [TokenStream.isAt_eq_of_lookAlike h, TokenStream.isAt_eq_of_lookAlike h]) ?_ ?_
    · exact close rfl (by simp)
    · refine Matches.bind (parameterDeclarator hσ) fun t => close_congr rfl ?_ ?_
      · exact List.append_subset.2 ⟨by simp, by simp⟩
      · rw [List.map_append]
        rfl
  cases found with
  | nil => exact Matches.bind (.fail _) fun _ => hrest.mono (by simp)
  | cons t found => exact hrest

omit hσ in
/-- A parameter adds no tokens. -/
theorem parameter_lessens (hg : g.IsSound) (s : TokenStream) : (Parse.parameter g).Lessens s := by
  refine .get_bind <| (specifiers_ensures hg).bind fun found s₁ h₁ => ?_
  refine .ite (fun _ => (fail_ensures _ (Q := fun _ _ => False)).bind fun _ _ h => h.elim)
    fun _ => .get_bind <| .ite (fun _ => ?_) fun _ => ?_
  · exact close_ensures_eq.imp fun _ _ h => h ▸ h₁.takes.length_le
  · refine (parameterDeclarator_ensures hg).bind fun t s₂ h₂ => ?_
    refine close_ensures_eq.imp fun _ _ h => h ▸ ?_
    rcases h₂ with h₂ | rfl
    · exact (h₁.takes.append h₂.takes).length_le
    · exact h₁.takes.length_le

/-- A parameter list. -/
theorem parameterList : σ.Matches ts (Parse.parameterList g) (Parse.parameterList g') := by
  refine Matches.bind advance fun lparen => ?_
  refine listed (parameter_lessens hσ.sound) (parameter_lessens hσ.sound')
    (fun _ => parameter hσ) fun parameters => ?_
  refine Matches.bind (expect _) fun rparen => Matches.bind (eat? _) fun const => ?_
  exact close rfl (by simp)

theorem declarator : σ.Matches ts (Parse.declarator g) (Parse.declarator g') := by
  refine .look fun s s' _ hposition => Matches.bind pointers fun seen => ?_
  rw [hposition]
  refine Matches.bind declaratorName? fun core => ?_
  cases core with
  | none => exact .fail _
  | some core =>
    refine .ite (fun h => TokenStream.isAt_eq_of_lookAlike h _) ?_ ?_
    · refine Matches.bind (parameterList hσ) fun parameters => ?_
      exact Matches.bind (closeDeclarator hσ [core, parameters] (by simp)) fun t =>
        .pure (x := (t, true)) (by simp)
    · exact Matches.bind (closeDeclarator hσ [core] (by simp)) fun t =>
        .pure (x := (t, false)) (by simp)

/-! ### Declarations -/

omit hσ in
theorem closeDeclaration {first : Nat} {parts : List PieceTree} (hparts : parts ⊆ ts) :
    σ.Matches ts (Parse.closeDeclaration first parts)
      (Parse.closeDeclaration (σ.mark first) (parts.map σ.rewrite)) :=
  Matches.bind (expect _) fun semicolon => close rfl (List.Subset.trans hparts (by simp))

/-- The declarators after the first one. -/
theorem furtherDeclarators : Items σ ts (·.isAt .comma)
    (Parse.advance >>= fun _ => Parse.declarator g >>= fun p => Pure.pure p.1)
    (Parse.advance >>= fun _ => Parse.declarator g' >>= fun p => Pure.pure p.1) where
  sees h := TokenStream.isAt_eq_of_lookAlike h _
  stops h := by simp [TokenStream.isAt, TokenStream.next?, h]
  shrinks h := advance_bind_shrinks (TokenStream.rest_ne_nil_of_isAt h) fun _ _ =>
    (declarator_ensures hσ.sound).bind fun _ _ h => .pure h.takes.length_le
  shrinks' h := advance_bind_shrinks (TokenStream.rest_ne_nil_of_isAt h) fun _ _ =>
    (declarator_ensures hσ.sound').bind fun _ _ h => .pure h.takes.length_le
  item := Matches.bind advance fun _ => Matches.bind (declarator hσ) fun p =>
    .pure (x := p.1) (by simp)

theorem simpleDeclaration (place : DeclarationPlace) :
    σ.Matches ts (Parse.simpleDeclaration g place) (Parse.simpleDeclaration g' place) := by
  refine .look fun s s' _ hposition => Matches.bind (specifiers hσ) fun found => ?_
  rw [hposition]
  refine .ite (fun h => TokenStream.isAt_eq_of_lookAlike h _) (closeDeclaration (by simp)) ?_
  refine Matches.bind (declarator hσ) fun p => ?_
  refine .ite (fun h => by rw [TokenStream.isAt_eq_of_lookAlike h]) ?_ ?_
  · refine Matches.bind (block hσ) fun body => close_congr rfl (by simp) ?_
    rw [List.map_append]
    rfl
  · refine Matches.bind (collectWhile (furtherDeclarators hσ)) fun others => ?_
    have hparts : σ.carry found ++ σ.carry p.1 :: σ.carry others =
        (found ++ p.1 :: others).map σ.rewrite := by
      rw [List.map_append]
      rfl
    have hdeclaration : σ.Matches (ts ++ trees found ++ trees p ++ trees others)
        (Parse.closeDeclaration s.position (found ++ p.1 :: others)) _ :=
      closeDeclaration (by simp)
    rw [← hparts] at hdeclaration
    exact hdeclaration

theorem namespaceBody : σ.Matches ts (Parse.namespaceBody g) (Parse.namespaceBody g') := by
  have hdeclarations : ∀ us, Items σ us (·.isBefore .rBrace) g.declaration g'.declaration :=
    fun us =>
    { sees := fun h => TokenStream.isBefore_eq_of_lookAlike h _
      stops := fun h => by simp [TokenStream.isBefore, TokenStream.next?, h]
      shrinks := fun {s} _ => (hσ.sound.declaration s).imp fun _ _ h => h.takes.length_lt (by simp)
      shrinks' := fun {s} _ =>
        (hσ.sound'.declaration s).imp fun _ _ h => h.takes.length_lt (by simp)
      item := hσ.declaration us }
  refine Matches.bind advance fun keyword => Matches.bind (eat? _) fun name => ?_
  refine Matches.bind (expect _) fun lbrace => ?_
  refine Matches.bind (collectWhile (hdeclarations _)) fun declarations => ?_
  exact Matches.bind (expect _) fun rbrace => close rfl (by simp)

theorem declaration : σ.Matches ts (Parse.declaration g) (Parse.declaration g') :=
  .ite (fun h => TokenStream.isAt_eq_of_lookAlike h _) (namespaceBody hσ) (simpleDeclaration hσ _)

end Matches

end Twin

end Mend
