import Mend.Fix.Catalogue
import Mend.Proofs.Atomicity
import Mend.Proofs.BranchFixes
import Mend.Proofs.ComparisonFixes
import Mend.Proofs.DeclarationFixes
import Mend.Proofs.InsertionFixes
import Mend.Proofs.LiteralFixes

/-!
# No fix that is offered fails

Each kind of fixes proposes patches that fit the files of the snapshot, save that the type of a new
variable may be unknown.  A patch that fits can be planned on documents that are as they were when
they were read, and what can be planned can be applied.

## Main definitions

* `Workspace.Shows`, `Workspace.Mirrors` — a file, or every file of a snapshot, is open, as it was
  when it was read.
* `Fix.IsCurrent` — the files that a fix is about are shown.

## Main results

* `FixKind.succeeds_or_unresolvedType` — what a kind of fixes proposes does not fail.
* `Fix.exists_apply_eq_ok_of_isCurrent` — a patch that fits is applied.
* `Query.fixes_do_not_fail` — **no fix that is offered fails.**
-/

namespace Mend

/-! ### Proposals -/

namespace FixKind

/-- **What a kind of fixes proposes does not fail**, save that the type of a new variable may be
unknown. -/
theorem succeeds_or_unresolvedType {q : Query} (hq : q.IsProper) (k : FixKind) :
    ∀ x ∈ k.proposals q, x.Succeeds q.snapshot ∨
      (k = .declareLocal ∧ ∃ e, x.patch = .error (.unresolvedType e)) := by
  intro x hx
  cases k with
  | invertComparison => exact .inl (Query.succeeds_invertComparison hq x hx)
  | swapOperands => exact .inl (Query.succeeds_swapOperands hq x hx)
  | joinNegations => exact .inl (Query.succeeds_joinNegations hq x hx)
  | splitDeclaration => exact .inl (Query.succeeds_splitDeclaration hq x hx)
  | addBraces => exact .inl (Query.succeeds_addBraces hq x hx)
  | hoistFromIf => exact .inl (Query.succeeds_hoistFromIf hq x hx)
  | hoistFromWhile => exact .inl (Query.succeeds_hoistFromWhile hq x hx)
  | splitIf => exact .inl (Query.succeeds_splitIf hq x hx)
  | wrapLiteral => exact .inl (Query.succeeds_wrapLiteral hq x hx)
  | translateString => exact .inl (Query.succeeds_translateString hq x hx)
  | signString => exact .inl (Query.succeeds_signString hq x hx)
  | convertInteger => exact .inl (Query.succeeds_convertInteger hq x hx)
  | completeSwitch => exact .inl (Query.succeeds_completeSwitch hq x hx)
  | includeHeader => exact .inl (Query.succeeds_includeHeader hq x hx)
  | declareLocal =>
    exact (Query.succeeds_or_unresolvedType_declareLocal hq x hx).imp_right fun h => ⟨rfl, h⟩
  | renameToCamelCase => exact .inl (Query.succeeds_renameToCamelCase hq x hx)
  | declareMember => exact .inl (Query.succeeds_declareMember hq x hx)
  | defineMember => exact .inl (Query.succeeds_defineMember hq x hx)

end FixKind

/-- A fix that is offered is what its kind proposes for the query. -/
theorem Query.exists_of_mem_fixes {q : Query} {x : Fix} (hx : x ∈ q.fixes) :
    x.toProposal ∈ x.kind.proposals q ∧ x.query = q := by
  unfold fixes at hx
  split at hx
  next => cases hx
  next =>
    obtain ⟨k, -, hk⟩ := List.mem_flatMap.1 ((stableSort_perm _ _).mem_iff.1 hx)
    unfold fixesOf at hk
    split at hk
    next =>
      obtain ⟨p, hp, rfl⟩ := List.mem_map.1 hk
      exact ⟨hp, rfl⟩
    next => cases hk

/-! ### Workspaces as they were read -/

namespace Workspace

/-- The document of a file is open, at the revision and with the text that it was read with. -/
def Shows (w : Workspace) (f : ParsedFile) : Prop :=
  ∃ d, w.find? f.path = some d ∧ d.revision = f.revision ∧ d.text = f.text

/-- Every file of a snapshot is open, at the revision and with the text that it was read with. -/
def Mirrors (w : Workspace) (s : Snapshot) : Prop :=
  ∀ path f, s.find? path = some f →
    ∃ d, w.find? path = some d ∧ d.revision = f.revision ∧ d.text = f.text

variable {w : Workspace} {s : Snapshot}

/-- A file is not stale just when it is shown. -/
theorem staleness?_eq_none_iff {f : ParsedFile} : w.staleness? f = none ↔ w.Shows f := by
  rw [staleness?, Shows]
  cases w.find? f.path <;> simp

theorem Mirrors.shows (h : w.Mirrors s) {f : ParsedFile} (hf : s.find? f.path = some f) :
    w.Shows f :=
  h _ _ hf

end Workspace

namespace Fix

variable {x : Fix} {w : Workspace} {p : Patch}

/-- The files that a patch is about are shown: the one that the fix was asked for, and those that it
changes. -/
structure IsCurrent (x : Fix) (w : Workspace) (p : Patch) : Prop where
  /-- The file of the query. -/
  asked : w.Shows x.query.file
  /-- The files of the patch. -/
  changed : ∀ path ∈ p.keys, ∀ f, x.query.snapshot.find? path = some f → w.Shows f

/-- Where every file of the snapshot is shown, so are those of a patch. -/
theorem isCurrent_of_mirrors (hq : x.query.IsProper) (h : w.Mirrors x.query.snapshot) (p : Patch) :
    x.IsCurrent w p :=
  ⟨h.shows hq.file, fun path _ f hf => h.shows (hq.keyed path f hf ▸ hf)⟩

/-- No file of a patch is stale just when all of them are shown. -/
theorem staleness?_eq_none_iff :
    x.staleness? w p = none ↔
      ∀ path ∈ p.keys, ∀ f, x.query.snapshot.find? path = some f → w.Shows f := by
  simp only [staleness?, List.findSome?_eq_none_iff, Workspace.staleness?_eq_none_iff,
    List.mem_filterMap]
  constructor
  · exact fun h path hpath f hf => h f ⟨path, hpath, hf⟩
  · rintro h f ⟨path, hpath, hf⟩
    exact h path hpath f hf

/-- A patch that fits is not refused by documents that are as they were read: its changes hold for
the revisions of those. -/
theorem not_refuses_pinned (hkeyed : x.query.snapshot.IsKeyed) (hp : p.Fits x.query.snapshot)
    (h : x.IsCurrent w p) : ∀ e ∈ (x.pinned p).entries, ¬w.Refuses e.1 e.2 := by
  intro e he
  obtain ⟨⟨path, c⟩, hmem, rfl⟩ := List.mem_map.1 he
  obtain ⟨hrevision, -, f, hf, δ, hδ⟩ := hp path c (NameMap.find?_eq_some_iff.2 hmem)
  obtain ⟨d, hd, hsame, htext⟩ := h.changed path (List.mem_map_of_mem hmem) f hf
  rw [hkeyed path f hf] at hd
  have hplan : d.plan { c with baseRevision := some f.revision } = .ok δ := by
    simp [Document.plan, hsame, htext, hδ]
  -- a file is refused when it is not open, or when its changes cannot be planned
  rintro (hnone | ⟨d', e, hd', herror⟩)
  · rw [hd] at hnone
    cases hnone
  · rw [hd] at hd'
    cases hd'
    simp only [hrevision, hf] at herror
    cases hplan.symm.trans herror

/-- **A fix whose patch fits is applied** when the files that it is about are as they were read. -/
theorem exists_apply_eq_ok_of_isCurrent (hkeyed : x.query.snapshot.IsKeyed)
    (hpatch : x.patch = .ok p) (hp : p.Fits x.query.snapshot) (h : x.IsCurrent w p)
    (indenter : IndentStyle) : ∃ w' outcomes, x.apply w indenter = (w', .ok outcomes) := by
  rw [apply, Workspace.staleness?_eq_none_iff.2 h.asked, hpatch]
  dsimp only
  rw [staleness?_eq_none_iff.2 h.changed]
  cases hplan : w.plan (x.pinned p).entries with
  | error e =>
    obtain ⟨e, he, hrefuses⟩ := Workspace.plan_eq_error_iff.1 ⟨e, hplan⟩
    exact absurd hrefuses (not_refuses_pinned hkeyed hp h e he)
  | ok planned =>
    obtain ⟨w', outcomes, happly, -⟩ :=
      Workspace.exists_apply_eq hplan indenter x.query.settings
    rw [happly]
    exact ⟨w', outcomes, rfl⟩

/-- So it is where every file of the snapshot is open as it was read. -/
theorem exists_apply_eq_ok (hq : x.query.IsProper) (hpatch : x.patch = .ok p)
    (hp : p.Fits x.query.snapshot) (h : w.Mirrors x.query.snapshot) (indenter : IndentStyle) :
    ∃ w' outcomes, x.apply w indenter = (w', .ok outcomes) :=
  exists_apply_eq_ok_of_isCurrent hq.keyed hpatch hp (isCurrent_of_mirrors hq h p) indenter

end Fix

namespace Query

/-- **No fix that is offered fails.**  For a file of a snapshot, whatever the settings, the cursor
and the selection, a fix that is offered has a patch, save that the type of a new variable may be
unknown.  The changes of a patch contradict each other in no file, and they can be planned on the
text that the file was read with.  So where every file of the snapshot is open as it was read, a fix
that has a patch is applied. -/
theorem fixes_do_not_fail {q : Query} (hkeyed : q.snapshot.IsKeyed) {path : String}
    (hfile : q.snapshot.find? path = some q.file) :
    ∀ x ∈ q.fixes,
      ((∃ p, x.patch = .ok p) ∨
        (x.kind = .declareLocal ∧ ∃ e, x.patch = .error (.unresolvedType e))) ∧
      ∀ p, x.patch = .ok p →
        (∀ path c, p.find? path = some c → c.changes.refusal = none ∧
          ∃ f, q.snapshot.find? path = some f ∧ ∃ δ, c.changes.plan f.text = .ok δ) ∧
        ∀ w : Workspace, w.Mirrors q.snapshot → ∀ indenter,
          ∃ w' outcomes, x.apply w indenter = (w', .ok outcomes) := by
  intro x hx
  have hq : q.IsProper := ⟨hkeyed, by rw [hkeyed path q.file hfile, hfile]⟩
  obtain ⟨hproposed, hquery⟩ := exists_of_mem_fixes hx
  rcases x.kind.succeeds_or_unresolvedType hq _ hproposed with ⟨p, hp, hfits⟩ | ⟨hkind, e, he⟩
  · refine ⟨.inl ⟨p, hp⟩, fun p' hp' => ?_⟩
    obtain rfl : p = p' := Except.ok.inj (hp.symm.trans hp')
    refine ⟨fun path c hc => (hfits path c hc).2, fun w hw indenter => ?_⟩
    subst hquery
    exact x.exists_apply_eq_ok hq hp hfits hw indenter
  · refine ⟨.inr ⟨hkind, e, he⟩, fun p hp => ?_⟩
    cases he.symm.trans hp

/-- A document with a declaration of two variables is read and stays open: the declaration can be
split. -/
theorem fixes_do_not_fail_twoVariables :
    let t : Text := ['i', 'n', 't', ' ', 'a', ',', 'b', ';']
    let w := Workspace.empty.open "a.cpp" t
    ∃ f, ParsedFile.parse "a.cpp" 0 t = .ok f ∧
      let q : Query := ⟨Snapshot.add .empty f, f, {}, 4, none⟩
      q.fixes.map (·.kind) = [.splitDeclaration] ∧
        ∀ x ∈ q.fixes, ∃ p w' outcomes, x.patch = .ok p ∧ x.apply w {} = (w', .ok outcomes) := by
  intro t w
  -- what is read, and what is offered there
  have hread : (ParsedFile.parse "a.cpp" 0 t).map (fun f => (f.path, f.revision, f.text))
      = .ok ("a.cpp", 0, t) := by decide +kernel
  have hoffered : (ParsedFile.parse "a.cpp" 0 t).map (fun f =>
      (Query.mk (Snapshot.add .empty f) f {} 4 none).fixes.map (·.kind))
        = .ok [FixKind.splitDeclaration] := by decide +kernel
  rcases hparse : ParsedFile.parse "a.cpp" 0 t with e | f
  · rw [hparse] at hread
    cases hread
  rw [hparse] at hread hoffered
  obtain ⟨hpath, hrevision, htext⟩ : f.path = "a.cpp" ∧ f.revision = 0 ∧ f.text = t := by
    simpa [Except.map] using hread
  have hkinds := Except.ok.inj hoffered
  refine ⟨f, rfl, hkinds, fun x hx => ?_⟩
  have hfind : (Snapshot.add .empty f).find? "a.cpp" = some f :=
    hpath ▸ NameMap.find?_insert_self _ _ _
  have hmirrors : w.Mirrors (Snapshot.add .empty f) := by
    intro path g hg
    obtain rfl : path = f.path := by
      by_contra hne
      rw [Snapshot.add, NameMap.find?_insert_of_ne _ hne] at hg
      cases hg
    rw [hpath, hfind] at hg
    obtain rfl := Option.some.inj hg
    exact ⟨.open "a.cpp" t, by rw [hpath]; decide, hrevision.symm, htext.symm⟩
  obtain ⟨hpatch, happly⟩ :=
    fixes_do_not_fail (Snapshot.isKeyed_empty.add f) hfind x hx
  have hkind : x.kind ∈ [FixKind.splitDeclaration] := hkinds ▸ List.mem_map_of_mem hx
  rcases hpatch with ⟨p, hp⟩ | ⟨hkind', -⟩
  · obtain ⟨w', outcomes, h⟩ := (happly p hp).2 w hmirrors {}
    exact ⟨p, w', outcomes, hp, h⟩
  · rw [hkind'] at hkind
    cases List.mem_singleton.1 hkind

end Query

end Mend
