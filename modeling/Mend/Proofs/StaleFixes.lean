import Mend.Proofs.DocumentRun
import Mend.Proofs.OfferedFixes

/-!
# Stale fixes

Between the time a fix is listed and the time it is applied, the user may edit, undo, redo, and open
or close files.  A fix is applied only if every file that it is about still stands as it was read;
otherwise, and whatever else goes wrong, the workspace stays as it is.

Both revision and text are compared.  An edit that is undone leaves the text as it was, at a later
revision; a file that is opened again begins at the first revision, maybe with another text.

## Main definitions

* `Document.Later` — a document after a while: at a later revision, or with the same text.
* `WorkspaceEvent`, `Workspace.handle`, `Workspace.after` — what can happen to a workspace.
* `Workspace.LeftBehind` — the document of a file is closed or has a later revision.

## Main results

* `Document.later_handle` — **no event takes a document back.**
* `Workspace.LeftBehind.after` — a file that was left behind is so until it is opened again.
* `Fix.exists_apply_eq_error_of_leftBehind` — and until then its fixes are refused.
* `Fix.apply_eq_ok_iff` — a fix is applied just when its files are shown.
* `Workspace.stale_fix_touches_nothing` — **a stale fix never touches anything.**
-/

namespace Mend

/-! ### Revisions of a document -/

namespace Document

variable {d d' : Document}

/-- A document at the same revision as before with the same text, or at a later one. -/
def Later (d d' : Document) : Prop :=
  d.revision ≤ d'.revision ∧ (d'.revision = d.revision → d'.text = d.text)

theorem Later.refl (d : Document) : d.Later d := ⟨Nat.le_refl _, fun _ => rfl⟩

theorem Later.trans {d'' : Document} (h : d.Later d') (h' : d'.Later d'') : d.Later d'' := by
  refine ⟨Nat.le_trans h.1 h'.1, fun heq => ?_⟩
  have hle := h.1
  have hle' := h'.1
  rw [h'.2 (by omega), h.2 (by omega)]

/-- Both ends of a block lead to a later document. -/
theorem later_rollBack {b : Draft} (h : b.Follows d) : d.Later b.rollBack :=
  ⟨Nat.le_of_eq h.revision_eq.symm, fun _ => h.text_rollBack⟩

theorem later_commit_draft {b : Draft} (h : b.Follows d) : d.Later b.commit := by
  have hreplay := h.replay_eq
  rw [Draft.commit]
  split
  next hmade =>
    rw [hmade] at hreplay
    exact ⟨Nat.le_of_eq h.revision_eq.symm, fun _ => hreplay.symm⟩
  next =>
    have hrevision := h.revision_eq
    exact ⟨by dsimp only; omega, fun heq => by dsimp only at heq; omega⟩

theorem later_block (d : Document) (p : EditProgram) : d.Later (d.block p) := by
  have hfollows := (Draft.follows_ofDocument d).runProgram p
  rw [block]
  split
  next draft ok hrun =>
    rw [hrun] at hfollows
    split
    · exact later_commit_draft hfollows
    · exact later_rollBack hfollows

theorem later_commit (d : Document) (δ : Delta) (c : FileChange) (indenter : IndentStyle)
    (s : Settings) : d.Later (d.commit δ c indenter s).1 := by
  have hmade := (Draft.follows_ofDocument d).applyDelta δ
  rw [commit]
  split
  next draft e happly =>
    rw [happly] at hmade
    exact later_rollBack hmade
  next draft happly =>
    rw [happly] at hmade
    have hindented := hmade.reindentAfter δ c indenter s
    split
    next draft' e hre =>
      rw [hre] at hindented
      exact later_rollBack hindented
    next draft' indents hre =>
      rw [hre] at hindented
      exact later_commit_draft ((hindented.setCursor _).setSelection _)

theorem later_undo? (h : d.undo? = some d') : d.Later d' := by
  unfold undo? at h
  split at h
  next => cases h
  next =>
    cases h
    exact ⟨Nat.le_succ _, fun heq => absurd heq (Nat.succ_ne_self _)⟩

theorem later_redo? (h : d.redo? = some d') : d.Later d' := by
  unfold redo? at h
  split at h
  next => cases h
  next =>
    cases h
    exact ⟨Nat.le_succ _, fun heq => absurd heq (Nat.succ_ne_self _)⟩

/-- **No event takes a document back to an earlier revision, and one that changes the text leads to a
later one.** -/
theorem later_handle (d : Document) (e : DocumentEvent) : d.Later (d.handle e) := by
  cases e with
  | block p => exact later_block d p
  | change c indenter s =>
    rw [handle, apply]
    split
    · exact later_commit d _ c indenter s
    · exact .refl d
  | undo =>
    rw [handle]
    cases h : d.undo? with
    | none => exact .refl d
    | some d' => exact later_undo? h
  | redo =>
    rw [handle]
    cases h : d.redo? with
    | none => exact .refl d
    | some d' => exact later_redo? h
  | setCursor o => exact .refl _
  | setSelection s => exact .refl _

end Document

/-! ### Runs of a workspace -/

/-- What can happen to a workspace. -/
inductive WorkspaceEvent
  /-- Something happens to an open document. -/
  | document (path : String) (e : DocumentEvent)
  /-- A change of several files is applied. -/
  | change (files : NameMap FileChange) (indenter : IndentStyle) (s : Settings)
  /-- A document is opened, also in place of an open one. -/
  | open (path : String) (text : Text)
  /-- A document is closed. -/
  | close (path : String)

namespace Workspace

/-- The workspace after an event. -/
def handle (w : Workspace) : WorkspaceEvent → Workspace
  | .document path e =>
    match w.find? path with
    | some d => w.put path (d.handle e)
    | none => w
  | .change files indenter s => (w.apply files indenter s).1
  | .open path text => w.open path text
  | .close path => w.close path

/-- The workspace after a run of events. -/
def after (w : Workspace) (es : List WorkspaceEvent) : Workspace := es.foldl handle w

/-- A workspace in which every open document is one that was open before, and later than that. -/
def Later (w w' : Workspace) : Prop :=
  ∀ path d', w'.find? path = some d' → ∃ d, w.find? path = some d ∧ d.Later d'

/-- The document of a file is closed, or it has a later revision than the one that was read. -/
def LeftBehind (w : Workspace) (f : ParsedFile) : Prop :=
  ∀ d, w.find? f.path = some d → f.revision < d.revision

variable {w w' : Workspace} {f : ParsedFile}

/-! ### No event goes back -/

theorem Later.refl (w : Workspace) : w.Later w := fun _ d h => ⟨d, h, .refl d⟩

theorem Later.trans {w'' : Workspace} (h : w.Later w') (h' : w'.Later w'') : w.Later w'' := by
  intro path d'' hd''
  obtain ⟨d', hd', hlater'⟩ := h' path d'' hd''
  obtain ⟨d, hd, hlater⟩ := h path d' hd'
  exact ⟨d, hd, hlater.trans hlater'⟩

theorem later_put {path : String} {d d' : Document} (hd : w.find? path = some d)
    (h : d.Later d') : w.Later (w.put path d') := by
  intro path' d'' hfind
  by_cases hpath : path' = path
  · subst hpath
    rw [find?_put_self] at hfind
    cases hfind
    exact ⟨d, hd, h⟩
  · rw [find?_put_of_ne w hpath] at hfind
    exact ⟨d'', hfind, .refl d''⟩

theorem later_undo (w : Workspace) (path : String) : w.Later (w.undo path) := by
  rw [undo]
  split
  next d' h =>
    obtain ⟨d, hd, hundo⟩ := Option.bind_eq_some_iff.1 h
    exact later_put hd (Document.later_undo? hundo)
  next => exact .refl w

theorem later_foldl_undo (w : Workspace) (paths : List String) :
    w.Later (paths.foldl undo w) := by
  induction paths generalizing w with
  | nil => exact .refl w
  | cons path paths ih => exact (later_undo w path).trans (ih _)

/-- A change of several files does not go back, be it made as a whole or taken back halfway. -/
theorem later_commitEach (indenter : IndentStyle) (s : Settings) (changed : List String)
    (planned : List PlannedFile) : w.Later (commitEach indenter s w changed planned).1 := by
  induction planned generalizing w changed with
  | nil => exact .refl w
  | cons p planned ih =>
    rw [commitEach]
    split
    next => exact .refl w
    next d hfind =>
      have hcommit := Document.later_commit d p.delta p.change indenter s
      split
      next d' e hmade =>
        rw [hmade] at hcommit
        exact (later_put hfind hcommit).trans (later_foldl_undo _ changed)
      next d' o hmade =>
        rw [hmade] at hcommit
        have hrest := (later_put hfind hcommit).trans
          (ih (w := w.put p.path d') (if p.delta.edits = [] then changed else p.path :: changed))
        -- how the rest goes decides only what is reported
        dsimp only
        split <;> simp_all

theorem later_apply (w : Workspace) (files : NameMap FileChange) (indenter : IndentStyle)
    (s : Settings) : w.Later (w.apply files indenter s).1 := by
  rw [apply]
  split
  · exact .refl w
  · exact later_commitEach indenter s [] _

theorem later_close (w : Workspace) (path : String) : w.Later (w.close path) := by
  intro path' d hfind
  have hmem : (path', d) ∈ w.documents.entries :=
    List.mem_of_mem_filter (NameMap.find?_eq_some_iff.1 hfind)
  exact ⟨d, NameMap.find?_eq_some_iff.2 hmem, .refl d⟩

/-! ### Files that were left behind -/

theorem LeftBehind.later (h : w.LeftBehind f) (hlater : w.Later w') : w'.LeftBehind f := by
  intro d' hd'
  obtain ⟨d, hd, hle, -⟩ := hlater f.path d' hd'
  exact Nat.lt_of_lt_of_le (h d hd) hle

/-- Only opening its document brings a file back. -/
theorem LeftBehind.handle (h : w.LeftBehind f) {e : WorkspaceEvent}
    (he : ∀ text, e ≠ .open f.path text) : (w.handle e).LeftBehind f := by
  cases e with
  | document path e =>
    rw [Workspace.handle]
    split
    next d hfind => exact h.later (later_put hfind (Document.later_handle d e))
    next => exact h
  | change files indenter s => exact h.later (later_apply w files indenter s)
  | «open» path text =>
    have hpath : f.path ≠ path := by
      rintro rfl
      exact he text rfl
    intro d hd
    refine h d ?_
    rwa [Workspace.handle, Workspace.open, find?_put_of_ne w hpath] at hd
  | close path => exact h.later (later_close w path)

/-- **A file that was left behind is so until it is opened again.** -/
theorem LeftBehind.after (h : w.LeftBehind f) {es : List WorkspaceEvent}
    (hes : ∀ text, .open f.path text ∉ es) : (w.after es).LeftBehind f := by
  induction es generalizing w with
  | nil => exact h
  | cons e es ih =>
    refine ih (h.handle fun text heq => hes text ?_) fun text hmem => hes text ?_
    · exact heq ▸ List.mem_cons_self
    · exact List.mem_cons_of_mem e hmem

/-- A file that was left behind is not shown. -/
theorem LeftBehind.not_shows (h : w.LeftBehind f) : ¬w.Shows f := by
  rintro ⟨d, hd, hrevision, -⟩
  exact Nat.lt_irrefl _ (hrevision ▸ h d hd)

end Workspace

/-! ### Applying a fix later -/

namespace Fix

variable {x : Fix} {w : Workspace} {p : Patch}

/-- **A fix that is not applied changes nothing**, whatever the reason. -/
theorem workspace_apply_of_eq_error {indenter : IndentStyle} {e : FixError}
    (h : (x.apply w indenter).2 = .error e) : (x.apply w indenter).1 = w := by
  unfold apply at h ⊢
  split
  · rfl
  · split
    · rfl
    next p hpatch =>
      split
      · rfl
      next hfresh =>
        -- the change of several files was refused, so it was refused when it was planned
        cases hplan : w.plan (x.pinned p).entries with
        | error e => rw [Workspace.apply_of_plan_eq_error indenter x.query.settings hplan]
        | ok planned =>
          obtain ⟨w', outcomes, happly, -⟩ :=
            Workspace.exists_apply_eq hplan indenter x.query.settings
          simp [*, Except.mapError] at h

/-- A fix that is applied has a patch, and the files that it is about are shown. -/
theorem isCurrent_of_apply_eq_ok {indenter : IndentStyle} {outcomes : NameMap Outcome}
    (h : (x.apply w indenter).2 = .ok outcomes) : ∃ p, x.patch = .ok p ∧ x.IsCurrent w p := by
  unfold apply at h
  split at h
  · cases h
  next hasked =>
    split at h
    · cases h
    next p hpatch =>
      split at h
      · cases h
      next hchanged =>
        exact ⟨p, hpatch, Workspace.staleness?_eq_none_iff.1 hasked,
          staleness?_eq_none_iff.1 hchanged⟩

/-- **A fix whose file was left behind is refused until that file is opened again.** -/
theorem exists_apply_eq_error_of_leftBehind (h : w.LeftBehind x.query.file)
    {es : List WorkspaceEvent} (hes : ∀ text, .open x.query.file.path text ∉ es)
    (indenter : IndentStyle) : ∃ e, (x.apply (w.after es) indenter).2 = .error e := by
  cases happly : (x.apply (w.after es) indenter).2 with
  | error e => exact ⟨e, rfl⟩
  | ok outcomes =>
    obtain ⟨p, -, hcurrent⟩ := isCurrent_of_apply_eq_ok happly
    exact absurd hcurrent.asked (h.after hes).not_shows

/-- The patch of a fix that is offered fits the snapshot. -/
theorem fits_of_mem_fixes {q : Query} (hq : q.IsProper) (hx : x ∈ q.fixes) (hp : x.patch = .ok p) :
    p.Fits q.snapshot := by
  rcases x.kind.succeeds_or_unresolvedType hq _ (Query.exists_of_mem_fixes hx).1 with
    ⟨p', hp', hfits⟩ | ⟨-, e, he⟩
  · obtain rfl : p' = p := Except.ok.inj (hp'.symm.trans hp)
    exact hfits
  · cases he.symm.trans hp

/-- **A fix that is offered is applied just when it has a patch and its files are shown.** -/
theorem apply_eq_ok_iff {q : Query} (hq : q.IsProper) (hx : x ∈ q.fixes) (indenter : IndentStyle) :
    (∃ outcomes, (x.apply w indenter).2 = .ok outcomes) ↔
      ∃ p, x.patch = .ok p ∧ x.IsCurrent w p := by
  constructor
  · rintro ⟨outcomes, h⟩
    exact isCurrent_of_apply_eq_ok h
  · rintro ⟨p, hpatch, hcurrent⟩
    obtain rfl := (Query.exists_of_mem_fixes hx).2
    obtain ⟨w', outcomes, happly⟩ := exists_apply_eq_ok_of_isCurrent hq.keyed hpatch
      (fits_of_mem_fixes hq hx hpatch) hcurrent indenter
    exact ⟨outcomes, by rw [happly]⟩

end Fix

namespace Workspace

variable {w : Workspace} {s : Snapshot} {settings : Settings} {path : String} {cursor : Nat}
  {selection : Option Span} {x : Fix}

/-- A fix that is listed is one for the file of the path, as it was read. -/
theorem exists_of_mem_fixesAt (hx : x ∈ w.fixesAt s settings path cursor selection) :
    ∃ f, s.find? path = some f ∧ x ∈ (Query.mk s f settings cursor selection).fixes := by
  unfold fixesAt at hx
  split at hx
  · cases hx
  next f hf =>
    split at hx
    · cases hx
    · exact ⟨f, hf, hx⟩

/-- **A stale fix never touches anything.**  Whatever happens to a workspace after a fix was listed,
the fix is applied just when it has a patch and the documents that it is about — the one it was asked
for, and those that the patch changes — are open with the revision and the text that were read.
When it is not applied, whatever the reason, all documents stay as they are. -/
theorem stale_fix_touches_nothing (hkeyed : s.IsKeyed)
    (hx : x ∈ w.fixesAt s settings path cursor selection) (es : List WorkspaceEvent)
    (indenter : IndentStyle) :
    ((∃ outcomes, (x.apply (w.after es) indenter).2 = .ok outcomes) ↔
      ∃ p, x.patch = .ok p ∧ ∀ path', path' = path ∨ path' ∈ p.keys →
        ∃ f d, s.find? path' = some f ∧ (w.after es).find? path' = some d ∧
          d.revision = f.revision ∧ d.text = f.text) ∧
    ∀ e, (x.apply (w.after es) indenter).2 = .error e →
      (x.apply (w.after es) indenter).1 = w.after es := by
  obtain ⟨f, hf, hx⟩ := exists_of_mem_fixesAt hx
  have hq : Query.IsProper ⟨s, f, settings, cursor, selection⟩ :=
    ⟨hkeyed, by rw [hkeyed path f hf, hf]⟩
  have hquery := (Query.exists_of_mem_fixes hx).2
  refine ⟨?_, fun e he => Fix.workspace_apply_of_eq_error he⟩
  rw [Fix.apply_eq_ok_iff hq hx]
  refine exists_congr fun p => and_congr_right fun hp => ⟨?_, ?_⟩
  · -- every file of the patch is one of the snapshot
    rintro ⟨hasked, hchanged⟩ path' (rfl | hpath')
    · rw [hquery] at hasked
      obtain ⟨d, hd, hsame⟩ := hasked
      exact ⟨f, d, hf, hkeyed _ f hf ▸ hd, hsame⟩
    · obtain ⟨⟨_, c⟩, hmem, rfl⟩ := List.mem_map.1 hpath'
      obtain ⟨-, -, g, hg, -⟩ := Fix.fits_of_mem_fixes hq hx hp _ c (NameMap.find?_eq_some_iff.2 hmem)
      obtain ⟨d, hd, hsame⟩ := hchanged _ hpath' g (hquery ▸ hg)
      exact ⟨g, d, hg, hkeyed _ g hg ▸ hd, hsame⟩
  · intro h
    refine ⟨?_, fun path' hpath' g hg => ?_⟩
    · obtain ⟨f', d, hf', hd, hsame⟩ := h path (.inl rfl)
      obtain rfl : f' = f := Option.some.inj (hf'.symm.trans hf)
      rw [hquery]
      exact ⟨d, (hkeyed _ f' hf).symm ▸ hd, hsame⟩
    · obtain ⟨g', d, hg', hd, hsame⟩ := h path' (.inr hpath')
      rw [hquery] at hg
      obtain rfl : g' = g := Option.some.inj (hg'.symm.trans hg)
      exact ⟨d, (hkeyed _ g' hg).symm ▸ hd, hsame⟩

/-- A declaration of two variables can be split as it was read, but not after an edit that was undone:
the text is the same, at another revision. -/
theorem stale_fix_touches_nothing_twoVariables :
    let t : Text := ['i', 'n', 't', ' ', 'a', ',', 'b', ';']
    let w := empty.open "a.cpp" t
    let w₁ := w.after [.document "a.cpp" (.block (.ofCommands [.replace ⟨0, 3⟩ ['c']])),
      .document "a.cpp" .undo]
    ∃ f, ParsedFile.parse "a.cpp" 0 t = .ok f ∧
      let fixes := w.fixesAt (Snapshot.add .empty f) {} "a.cpp" 4 none
      fixes.map (·.kind) = [.splitDeclaration] ∧
        ∀ x ∈ fixes, (∃ outcomes, (x.apply (w.after []) {}).2 = .ok outcomes) ∧
          (w₁.find? "a.cpp").map (·.text) = some t ∧
          (∃ e, (x.apply w₁ {}).2 = .error e) ∧ (x.apply w₁ {}).1 = w₁ := by
  intro t w w₁
  have hread : (ParsedFile.parse "a.cpp" 0 t).map (fun f => (f.path, f.revision, f.text))
      = .ok ("a.cpp", 0, t) := by decide +kernel
  have hoffered : (ParsedFile.parse "a.cpp" 0 t).map (fun f =>
      (w.fixesAt (Snapshot.add .empty f) {} "a.cpp" 4 none).map (·.kind))
        = .ok [FixKind.splitDeclaration] := by decide +kernel
  rcases hparse : ParsedFile.parse "a.cpp" 0 t with e | f
  · rw [hparse] at hread
    cases hread
  rw [hparse] at hread hoffered
  obtain ⟨hpath, hrevision, htext⟩ : f.path = "a.cpp" ∧ f.revision = 0 ∧ f.text = t := by
    simpa [Except.map] using hread
  have hkinds := Except.ok.inj hoffered
  refine ⟨f, rfl, hkinds, fun x hx => ?_⟩
  have hkeyed : (Snapshot.add .empty f).IsKeyed := Snapshot.isKeyed_empty.add f
  have hfind : (Snapshot.add .empty f).find? "a.cpp" = some f :=
    hpath ▸ NameMap.find?_insert_self _ _ _
  -- the only file of the snapshot is the one that was read
  have honly : ∀ path g, (Snapshot.add .empty f).find? path = some g → path = "a.cpp" := by
    intro path g hg
    by_contra hne
    rw [Snapshot.add, NameMap.find?_insert_of_ne _ (hpath ▸ hne)] at hg
    cases hg
  have hnow := stale_fix_touches_nothing hkeyed hx [] {}
  have hlater := stale_fix_touches_nothing hkeyed hx
    [.document "a.cpp" (.block (.ofCommands [.replace ⟨0, 3⟩ ['c']])), .document "a.cpp" .undo] {}
  refine ⟨hnow.1.2 ?_, by decide, ?_⟩
  · obtain ⟨g, hg, hfix⟩ := exists_of_mem_fixesAt hx
    obtain rfl : f = g := Option.some.inj (hfind.symm.trans hg)
    have hq : Query.IsProper ⟨Snapshot.add .empty f, f, {}, 4, none⟩ :=
      ⟨hkeyed, by rw [hpath, hfind]⟩
    have hkind : x.kind ∈ [FixKind.splitDeclaration] := hkinds ▸ List.mem_map_of_mem hx
    rcases x.kind.succeeds_or_unresolvedType hq _ (Query.exists_of_mem_fixes hfix).1 with
      ⟨p, hp, hfits⟩ | ⟨hkind', -⟩
    · refine ⟨p, hp, fun path' hpath' => ⟨f, .open "a.cpp" t, ?_⟩⟩
      have hpath' : path' = "a.cpp" := by
        rcases hpath' with rfl | hkey
        · rfl
        · obtain ⟨⟨_, c⟩, hmem, rfl⟩ := List.mem_map.1 hkey
          obtain ⟨-, -, g, hg, -⟩ := hfits _ c (NameMap.find?_eq_some_iff.2 hmem)
          exact honly _ g hg
      subst hpath'
      exact ⟨hfind, by decide, hrevision.symm, htext.symm⟩
    · rw [hkind'] at hkind
      cases List.mem_singleton.1 hkind
  · cases happly : (x.apply w₁ {}).2 with
    | error e => exact ⟨⟨e, rfl⟩, hlater.2 e happly⟩
    | ok outcomes =>
      -- its revision is not the one that was read
      obtain ⟨p, -, hshown⟩ := hlater.1.1 ⟨outcomes, happly⟩
      obtain ⟨g, d, hg, hd, hsame, -⟩ := hshown "a.cpp" (.inl rfl)
      obtain rfl : f = g := Option.some.inj (hfind.symm.trans hg)
      have hlive : (w₁.find? "a.cpp").map (·.revision) = some 2 := by decide
      rw [hd, Option.map_some, hsame, hrevision] at hlive
      cases hlive

end Workspace

end Mend
