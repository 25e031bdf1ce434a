import Mend.Proofs.OfferedFixes
import Mend.Proofs.ReadDeclarations
import Mend.Proofs.WovenStretches

/-!
# Declarations that are split

Splitting a declaration records several changes for each declarator behind the first one: what the
declarator needs is put behind the declaration, piece by piece, and what separated it from the one
before it is removed.  All of it is put at one place, where the order of recording decides.

So the changes do two things.  They put the new declarations at the end of the old one, one after
another, and from the end of the first declarator to the end of the last one they take everything
away: each declarator with what stands before it, and no other character.

## Main definitions

* `Query.ownDeclaration` — the declaration that a declarator is moved to.

## Main results

* `Query.flatMap_placedAt_splitOffAll` — the new declarations are put where the old one ends.
* `Query.exists_destroys_splitOffAll_iff` — the list of declarators behind the first one is gone.
* `Query.weave_splitOffAll` — what the changes make of the text.
* `Query.splitDeclaration_moves_declarators` — **splitting a declaration moves every declarator once
  and in order.**
-/

namespace Mend

namespace Query

open Change

variable {q : Query} {specifiers : Span} {o p : Nat} {t d e : SyntaxTree} {ds : List SyntaxTree}

/-- The declaration of its own that a declarator gets, on a new line. -/
def ownDeclaration (q : Query) (specifiers : Span) (e : SyntaxTree) : Text :=
  "\n".toList ++ q.file.slice specifiers ++ " ".toList ++ q.file.textOf e ++ ";".toList

/-! ### What the changes do -/

/-- One declarator: its pieces are put at one place, in their order. -/
theorem flatMap_placedAt_splitOff :
    (q.splitOff specifiers o d e).flatMap (placedAt q.file.text p) =
      if o = p then q.ownDeclaration specifiers e else [] := by
  by_cases hp : o = p <;> simp [splitOff, placedAt, ownDeclaration, SourceCode.textOf,
    SourceCode.slice, hp]

/-- **The new declarations are put where the old one ends**, one after another. -/
theorem flatMap_placedAt_splitOffAll (q : Query) (specifiers : Span) (o : Nat) (d : SyntaxTree)
    (ds : List SyntaxTree) (p : Nat) :
    (q.splitOffAll specifiers o d ds).flatMap (placedAt q.file.text p) =
      if o = p then ds.flatMap (q.ownDeclaration specifiers) else [] := by
  induction ds generalizing d with
  | nil => simp [splitOffAll]
  | cons e ds ih =>
    have hcons : q.splitOffAll specifiers o d (e :: ds)
        = q.splitOff specifiers o d e ++ q.splitOffAll specifiers o e ds := rfl
    rw [hcons, List.flatMap_append, flatMap_placedAt_splitOff, ih, List.flatMap_cons]
    split <;> rfl

/-- One declarator: it is gone, with what stands before it. -/
theorem exists_destroys_splitOff_iff (hde : q.file.stopOf d ≤ q.file.startOf e)
    (he : q.file.startOf e ≤ q.file.stopOf e) :
    (∃ c ∈ q.splitOff specifiers o d e, c.Destroys p) ↔
      q.file.stopOf d ≤ p ∧ p < q.file.stopOf e := by
  simp only [splitOff, List.mem_cons, List.not_mem_nil, or_false, exists_eq_or_imp,
    exists_eq_left, Destroys, Span.Holds, SourceCode.spanOf, false_or]
  omega

/-- **The list of declarators behind the first one is gone**, and nothing else is. -/
theorem exists_destroys_splitOffAll_iff {lo : Nat}
    (h : Span.InOrder lo ((d :: ds).map q.file.spanOf) o) :
    (∃ c ∈ q.splitOffAll specifiers o d ds, c.Destroys p) ↔
      q.file.stopOf d ≤ p ∧ p < q.file.stopOf ((d :: ds).getLast (List.cons_ne_nil d ds)) := by
  induction ds generalizing d lo with
  | nil =>
    simp only [splitOffAll, List.zip_nil_right, List.flatMap_nil, List.not_mem_nil, false_and,
      exists_false, List.getLast_singleton, false_iff]
    omega
  | cons e ds ih =>
    obtain ⟨-, -, hrest⟩ := h
    have hde : q.file.stopOf d ≤ q.file.startOf e := hrest.1
    have he : q.file.startOf e ≤ q.file.stopOf e := hrest.2.1
    -- the last declarator does not stop before the next one
    have hlast : q.file.stopOf e ≤
        q.file.stopOf ((e :: ds).getLast (List.cons_ne_nil e ds)) := by
      rcases List.mem_cons.1 (List.getLast_mem (List.cons_ne_nil e ds)) with heq | hmem
      · rw [heq]
      · have hbehind := hrest.2.2.of_mem (List.mem_map_of_mem hmem)
        exact Nat.le_trans hbehind.1 hbehind.2.1
    have hcons : q.splitOffAll specifiers o d (e :: ds)
        = q.splitOff specifiers o d e ++ q.splitOffAll specifiers o e ds := rfl
    simp only [hcons, List.mem_append, or_and_right, exists_or, List.getLast_cons_cons]
    rw [exists_destroys_splitOff_iff hde he, ih hrest]
    omega

/-! ### What comes of the text -/

/-- **What the changes make of the text**: it stays up to the end of the first declarator and from
the end of the last one on, and the new declarations stand where the old one ends. -/
theorem weave_splitOffAll (specifiers : Span) {lo : Nat}
    (h : Span.InOrder lo ((d :: ds).map q.file.spanOf) o) (ho : o ≤ q.file.text.length) :
    Change.weave (q.splitOffAll specifiers o d ds) q.file.text =
      q.file.text.take (q.file.stopOf d) ++
        (q.file.slice ⟨q.file.stopOf ((d :: ds).getLast (List.cons_ne_nil d ds)), o⟩ ++
          (ds.flatMap (q.ownDeclaration specifiers) ++ q.file.text.drop o)) := by
  let last := (d :: ds).getLast (List.cons_ne_nil d ds)
  have hlast : q.file.stopOf last ≤ o :=
    (h.of_mem (List.mem_map_of_mem (List.getLast_mem (List.cons_ne_nil d ds)))).2.2
  have hd : q.file.stopOf d ≤ q.file.stopOf last := by
    rcases List.mem_cons.1 (List.getLast_mem (List.cons_ne_nil d ds)) with heq | hmem
    · exact Nat.le_of_eq (congrArg q.file.stopOf heq.symm)
    · have hbehind := h.2.2.of_mem (List.mem_map_of_mem hmem)
      exact Nat.le_trans hbehind.1 hbehind.2.1
  let gone : DeltaEdit :=
    ⟨q.file.stopOf d, q.file.slice ⟨q.file.stopOf d, q.file.stopOf last⟩, [], none⟩
  let put : DeltaEdit := ⟨o, [], ds.flatMap (q.ownDeclaration specifiers), none⟩
  have hgone : gone.reach = q.file.stopOf last := by
    simp only [gone, DeltaEdit.reach, SourceCode.slice, Text.length_slice]
    omega
  have hput : put.reach = o := rfl
  rw [weave_eq_applyFrom [gone, put]]
  · have hmax : max (q.file.stopOf last) o = o := Nat.max_eq_right hlast
    simp only [Delta.applyFrom, hgone, hput, Nat.zero_max, hmax]
    simp [gone, put, Text.slice, SourceCode.slice, last]
  · intro p
    rw [flatMap_placedAt_splitOffAll]
    by_cases hdp : q.file.stopOf d = p <;> by_cases hop : o = p <;>
      simp [Delta.insertedAt, gone, put, hdp, hop]
  · intro p
    rw [exists_destroys_splitOffAll_iff h]
    simp only [Delta.Covers, List.mem_cons, List.not_mem_nil, or_false, exists_eq_or_imp,
      exists_eq_left, hgone, hput]
    simp only [gone, put, last]
    omega
  · simpa [gone, put] using Nat.le_trans hd hlast
  · simp only [List.mem_cons, List.not_mem_nil, or_false, forall_eq_or_imp, forall_eq, gone, put]
    omega

/-! ### The fix -/

/-- Where the fix is offered, a declaration at the cursor declares several things, after
specifiers. -/
theorem exists_of_mem_splitDeclaration {x : Proposal} (hx : x ∈ q.splitDeclaration) :
    ∃ t depth semicolon specifiers d ds, (t, depth) ∈ q.outward ∧
      t.label.kind = .simpleDeclaration semicolon ∧ q.specifierSpan? t = some specifiers ∧
      t.declarators = d :: ds ∧ ds ≠ [] ∧
      x = q.propose "Split Declaration" depth
        (q.splitOffAll specifiers (q.file.stopOf t) d ds) [q.file.spanOf t] := by
  unfold splitDeclaration at hx
  dsimp only at hx
  split at hx
  next => cases hx
  next t depth ht =>
    obtain ⟨semicolon, hkind⟩ : ∃ semicolon, t.label.kind = .simpleDeclaration semicolon := by
      have hdeclares := List.find?_some ht
      split at hdeclares
      next semicolon hkind => exact ⟨semicolon, hkind⟩
      next => cases hdeclares
    split at hx
    next => cases hx
    next specifiers hspecifiers =>
      split at hx
      next hsplittable =>
        have hlength : 1 < t.declarators.length := by
          simp only [isSplittable, Bool.and_eq_true, decide_eq_true_eq] at hsplittable
          exact hsplittable.1.2
        match hdeclarators : t.declarators with
        | [] | [_] => simp [hdeclarators] at hlength
        | d :: e :: ds =>
          refine ⟨t, depth, semicolon, specifiers, d, e :: ds, List.mem_of_find?_eq_some ht, hkind,
            hspecifiers, hdeclarators, List.cons_ne_nil e ds, ?_⟩
          rw [List.mem_singleton.1 hx, hdeclarators]
          rfl
      next => cases hx

/-- **Splitting a declaration moves every declarator once and in order.**  Up to the end of the
first declarator the text stays; then comes what stood between the last declarator and the end of
the semicolon; then, for every other declarator, a new line with the specifiers, a space, the
declarator and a semicolon; and then the rest of the text. -/
theorem splitDeclaration_moves_declarators {x : Fix} (hx : x ∈ q.fixes)
    (hkind : x.kind = .splitDeclaration) :
    ∃ t semicolon specifiers d ds changes, (t, x.depth) ∈ q.outward ∧
      t.label.kind = .simpleDeclaration semicolon ∧
      q.file.kindOf? semicolon = some .semicolon ∧ q.specifierSpan? t = some specifiers ∧
      t.declarators = d :: ds ∧ ds ≠ [] ∧
      x.patch = .ok (NameMap.empty.insert q.file.path
        { changes, reindent := [q.file.spanOf t] }) ∧
      changes.applyTo q.file.text = .ok (q.file.text.take (q.file.stopOf d) ++
        (q.file.slice ⟨q.file.stopOf ((d :: ds).getLast (List.cons_ne_nil d ds)),
            q.file.tokenStop semicolon⟩ ++
          (ds.flatMap (q.ownDeclaration specifiers) ++
            q.file.text.drop (q.file.tokenStop semicolon)))) := by
  have hproposed := (exists_of_mem_fixes hx).1
  rw [hkind] at hproposed
  obtain ⟨t, depth, semicolon, specifiers, d, ds, ht, hkind, hspecifiers, hdeclarators, hne,
    hproposal⟩ := exists_of_mem_splitDeclaration hproposed
  have hmem := mem_subtrees_of_mem_outward ht
  obtain ⟨hlast, hsemicolon⟩ := SourceCode.ends_with_semicolon q.file.isReading hmem hkind
  have hstop : q.file.stopOf t = q.file.tokenStop semicolon := congrArg q.file.tokenStop hlast
  have hlies := q.file.isOrdered.spanOf hmem
  have hwithin := specifierSpan?_within hmem hspecifiers
  have hsub : t.declarators.Sublist t.children := List.filter_sublist
  have horder := (q.file.isOrdered.children hmem).sublist (hsub.map q.file.spanOf)
  rw [hdeclarators] at horder
  obtain ⟨changes, hchanges, happly⟩ := ChangeSet.exists_applyTo_eq_weave
    (fit_splitOffAll horder hlies.2 ⟨hwithin.1, Nat.le_trans hwithin.2 hlies.2⟩)
  have hwoven := weave_splitOffAll specifiers horder hlies.2
  refine ⟨t, semicolon, specifiers, d, ds, changes, ?_, hkind, hsemicolon, hspecifiers,
    hdeclarators, hne, ?_, ?_⟩
  · rw [show x.depth = depth from congrArg Proposal.depth hproposal]
    exact ht
  · rw [hproposal, patch_propose, Patch.ofChanges, hchanges]
  · rw [happly]
    exact congrArg Except.ok (hstop ▸ hwoven)

/-- Three declarators, one with an initial value and one with a sign: each gets a line. -/
theorem splitDeclaration_moves_declarators_three :
    let t : Text := "const int a = 1, *b, c[2] ;".toList
    let split : Text := "const int a = 1 ;\nconst int *b;\nconst int c[2];".toList
    ∃ f, ParsedFile.parse "a.cpp" 0 t = .ok f ∧
      let q : Query := ⟨Snapshot.add .empty f, f, {}, 10, none⟩
      ∃ x ∈ q.fixes, x.kind = .splitDeclaration ∧ ∃ p changes, x.patch = .ok p ∧
        (p.find? "a.cpp").map (·.changes) = some changes ∧ changes.applyTo t = .ok split := by
  intro t split
  let textOf (x : Fix) : Option Text := x.patch.toOption.bind fun p =>
    ((p.find? "a.cpp").map (·.changes)).bind fun c => (c.applyTo t).toOption
  have hread : (ParsedFile.parse "a.cpp" 0 t).map (fun f => (f.path, f.text)) =
      .ok ("a.cpp", t) := by decide +kernel
  have hoffered : (ParsedFile.parse "a.cpp" 0 t).map (fun f =>
      ((Query.mk (Snapshot.add .empty f) f {} 10 none).fixes.map fun x => (x.kind, textOf x))) =
        .ok [(.splitDeclaration, some split)] := by decide +kernel
  rcases hparse : ParsedFile.parse "a.cpp" 0 t with e | f
  · rw [hparse] at hread
    cases hread
  rw [hparse] at hread hoffered
  obtain ⟨hpath, htext⟩ : f.path = "a.cpp" ∧ f.text = t := by simpa [Except.map] using hread
  refine ⟨f, rfl, ?_⟩
  intro q
  have hfixes : q.fixes.map (fun x => (x.kind, textOf x)) = [(.splitDeclaration, some split)] :=
    Except.ok.inj hoffered
  obtain ⟨x, hx, hpair⟩ := List.mem_map.1 (hfixes ▸ List.mem_singleton_self _)
  obtain ⟨hkind, hsplit⟩ := Prod.mk.inj hpair
  obtain ⟨_, _, _, _, _, changes, -, -, -, -, -, -, hpatch, happly⟩ :=
    splitDeclaration_moves_declarators hx hkind
  have hfind (c : FileChange) : (NameMap.empty.insert q.file.path c).find? "a.cpp" = some c :=
    hpath ▸ NameMap.find?_insert_self _ _ _
  -- the text is the one that was computed
  rw [show q.file.text = t from htext] at happly
  refine ⟨x, hx, hkind, _, changes, hpatch, by rw [hfind, Option.map_some], ?_⟩
  rw [happly]
  simpa [textOf, hpatch, Except.toOption, hfind, happly, q] using hsplit

end Query

end Mend
