import Mend.Proofs.LiveDelta
import Mend.Proofs.Reindentation
import Mend.Workspace

/-!
# Changes of several files

A change of several files is planned before any document is touched.  A delta that was planned fits
its text, and giving lines their indentation is never refused, so nothing can go wrong once
everything is planned: either the whole change is made or nothing of it.

## Main definitions

* `FileChange.result` — the text that a planned change makes of another.
* `Document.Changed` — a document before and after a planned change.
* `Workspace.Refuses`, `Workspace.Resolves` — file changes that cannot be planned, and planned ones.

## Main results

* `Document.exists_commit_eq` — **a planned change of a document can be made.**
* `Workspace.exists_commitEach_eq` — so can any number of them.
* `Workspace.apply_all_or_nothing` — a change of several files is made in all of them or in none.
-/

namespace Mend

/-! ### One document -/

/-- The text that a file change makes of another one, when its delta has been planned: the lines
that were asked for get their indentation if this is wanted. -/
def FileChange.result (c : FileChange) (δ : Delta) (indenter : IndentStyle) (s : Settings)
    (t : Text) : Text :=
  if s.reindent && c.wantsReindent then
    indenter.reindentText s.indent (δ.applyTo t)
      (Document.linesToReindent (δ.applyTo t) δ c.reindent)
  else δ.applyTo t

namespace Document

variable {d d' : Document} {δ : Delta} {c : FileChange} {indenter : IndentStyle} {s : Settings}

/-- A document before and after a planned change. -/
structure Changed (d d' : Document) (δ : Delta) (c : FileChange) (indenter : IndentStyle)
    (s : Settings) : Prop where
  /-- The delta is made, and lines get their indentation. -/
  text_eq : d'.text = c.result δ indenter s d.text
  /-- All of it is one step of the history, if it is anything. -/
  advance : d.Advance d'
  /-- The path stays. -/
  path_eq : d'.path = d.path

/-- A planned delta is the one of its change set. -/
theorem plan_changes_of_plan_eq_ok (h : d.plan c = .ok δ) : c.changes.plan d.text = .ok δ := by
  unfold plan at h
  split at h
  next =>
    split at h
    next δ' hplan =>
      cases h
      exact hplan
    next => cases h
  next => cases h

/-- Lines get their indentation after a delta, if this is wanted. -/
theorem exists_reindentAfter_eq {draft : Draft} {t : Text} (htext : draft.text = δ.applyTo t)
    (c : FileChange) (indenter : IndentStyle) (s : Settings) :
    ∃ draft' cs, reindentAfter draft δ c indenter s = (draft', .ok cs) ∧
      draft'.text = c.result δ indenter s t := by
  rw [reindentAfter, FileChange.result, ← htext]
  split
  · exact Draft.exists_reindent?_eq _ _ _ _
  · exact ⟨draft, [], rfl, rfl⟩

/-- The two drafts of a delta that fits: first it is made, then lines get their indentation.  Neither
is refused. -/
theorem exists_drafts_of_fits (h : δ.Fits d.text) (c : FileChange) (indenter : IndentStyle)
    (s : Settings) :
    ∃ draft draft' cs, (Draft.ofDocument d).applyDelta δ = (draft, none) ∧
      reindentAfter draft δ c indenter s = (draft', .ok cs) ∧ draft.text = δ.applyTo d.text ∧
      draft'.text = c.result δ indenter s d.text ∧ draft'.Follows d := by
  obtain ⟨draft, happly, htext⟩ := Draft.exists_applyDelta_eq (d := .ofDocument d) h
  obtain ⟨draft', cs, hre, htext'⟩ := exists_reindentAfter_eq htext c indenter s
  have hmade : draft.Follows d := by
    have := (Draft.follows_ofDocument d).applyDelta δ
    rwa [happly] at this
  have hindented : draft'.Follows d := by
    have := hmade.reindentAfter δ c indenter s
    rwa [hre] at this
  exact ⟨draft, draft', cs, happly, hre, htext, htext', hindented⟩

/-- The two drafts of a planned change. -/
theorem exists_drafts_eq (h : d.plan c = .ok δ) (indenter : IndentStyle) (s : Settings) :
    ∃ draft draft' cs, (Draft.ofDocument d).applyDelta δ = (draft, none) ∧
      reindentAfter draft δ c indenter s = (draft', .ok cs) ∧ draft.text = δ.applyTo d.text ∧
      draft'.text = c.result δ indenter s d.text ∧ draft'.Follows d :=
  exists_drafts_of_fits (ChangeSet.fits_of_plan_eq_ok (plan_changes_of_plan_eq_ok h)) c indenter s

/-- **A planned change of a document can be made.** -/
theorem exists_commit_eq (h : d.plan c = .ok δ) (indenter : IndentStyle) (s : Settings) :
    ∃ d' o, d.commit δ c indenter s = (d', .ok o) ∧ d.Changed d' δ c indenter s := by
  obtain ⟨draft, draft', cs, happly, hre, -, htext, hindented⟩ := exists_drafts_eq h indenter s
  -- neither of the two ways to fail is taken
  rw [commit, happly]
  dsimp only
  rw [hre]
  refine ⟨_, _, rfl, ?_, ?_, ?_⟩
  · rw [Draft.text_commit]
    exact htext
  · exact ((hindented.setCursor _).setSelection _).advance_commit
  · rw [Draft.commit]
    split <;> exact hindented.path_eq

end Document

/-! ### Planning several files -/

namespace Workspace

variable {w : Workspace} {es : List (String × FileChange)} {planned : List PlannedFile}
  {indenter : IndentStyle} {s : Settings}

/-- A file change that cannot be planned: its document is not open, or refuses it. -/
def Refuses (w : Workspace) (path : String) (c : FileChange) : Prop :=
  w.find? path = none ∨ ∃ d e, w.find? path = some d ∧ d.plan c = .error e

/-- A file change with the delta that was planned for it. -/
def Resolves (w : Workspace) (p : PlannedFile) : Prop :=
  ∃ d, w.find? p.path = some d ∧ d.plan p.change = .ok p.delta

/-- Planning fails when one of the file changes cannot be planned. -/
theorem plan_eq_error_iff :
    (∃ e, w.plan es = .error e) ↔ ∃ p ∈ es, w.Refuses p.1 p.2 := by
  induction es with
  | nil => simp [plan]
  | cons p es ih =>
    obtain ⟨path, c⟩ := p
    rw [List.exists_mem_cons_iff, ← ih, Refuses]
    cases hfind : w.find? path with
    | none => simp [plan, hfind]
    | some d =>
      cases hplan : d.plan c with
      | error e => simp [plan, hfind, hplan]
      | ok δ => cases hrest : w.plan es <;> simp [plan, hfind, hplan, hrest]

/-- What is planned are the file changes, each with its delta. -/
theorem resolves_of_plan_eq_ok (h : w.plan es = .ok planned) :
    planned.map (fun p => (p.path, p.change)) = es ∧ ∀ p ∈ planned, w.Resolves p := by
  induction es generalizing planned with
  | nil =>
    cases h
    exact ⟨rfl, by simp⟩
  | cons p es ih =>
    obtain ⟨path, c⟩ := p
    unfold plan at h
    split at h
    next => cases h
    next d hfind =>
      split at h
      next => cases h
      next δ hplan =>
        split at h
        next => cases h
        next rest hrest =>
          cases h
          obtain ⟨hmap, hall⟩ := ih hrest
          exact ⟨by simp [hmap], List.forall_mem_cons.2 ⟨⟨d, hfind, hplan⟩, hall⟩⟩

/-! ### Committing several files -/

theorem find?_put_self (w : Workspace) (path : String) (d : Document) :
    (w.put path d).find? path = some d :=
  NameMap.find?_insert_self _ _ _

theorem find?_put_of_ne (w : Workspace) {path path' : String} (hne : path' ≠ path)
    (d : Document) : (w.put path d).find? path' = w.find? path' :=
  NameMap.find?_insert_of_ne _ hne _

/-- A planned file change stays one when another document changes. -/
theorem Resolves.put {p : PlannedFile} (hp : w.Resolves p) {path : String} (hne : p.path ≠ path)
    (d : Document) : (w.put path d).Resolves p := by
  obtain ⟨d', hfind, hplan⟩ := hp
  exact ⟨d', by rw [find?_put_of_ne w hne, hfind], hplan⟩

/-- **Planned changes of several documents can be made**, one after the other.  None of them
touches the document of another one. -/
theorem exists_commitEach_eq (indenter : IndentStyle) (s : Settings) (changed : List String)
    (hdistinct : planned.Pairwise fun p q => p.path ≠ q.path)
    (hplanned : ∀ p ∈ planned, w.Resolves p) :
    ∃ w' outcomes, commitEach indenter s w changed planned = (w', .ok outcomes) ∧
      (∀ path, path ∉ planned.map (·.path) → w'.find? path = w.find? path) ∧
      ∀ p ∈ planned, ∃ d d', w.find? p.path = some d ∧ d.plan p.change = .ok p.delta ∧
        w'.find? p.path = some d' ∧ d.Changed d' p.delta p.change indenter s := by
  induction planned generalizing w changed with
  | nil => exact ⟨w, .empty, rfl, fun _ _ => rfl, by simp⟩
  | cons p planned ih =>
    obtain ⟨hhead, htail⟩ := List.pairwise_cons.1 hdistinct
    obtain ⟨⟨d, hfind, hplan⟩, hrest⟩ := List.forall_mem_cons.1 hplanned
    obtain ⟨d', o, hcommit, hchanged⟩ := Document.exists_commit_eq hplan indenter s
    obtain ⟨w', outcomes, heach, hothers, hdone⟩ :=
      ih (w := w.put p.path d') (if p.delta.edits = [] then changed else p.path :: changed) htail
        fun q hq => (hrest q hq).put (Ne.symm (hhead q hq)) d'
    refine ⟨w', outcomes.insert p.path o, ?_, ?_, List.forall_mem_cons.2 ⟨?_, ?_⟩⟩
    · rw [commitEach, hfind]
      dsimp only
      rw [hcommit]
      dsimp only
      rw [heach]
    · intro path hpath
      rw [List.map_cons, List.mem_cons, not_or] at hpath
      rw [hothers path hpath.2, find?_put_of_ne w hpath.1]
    · -- later commits leave the first document alone
      have hnotin : p.path ∉ planned.map (·.path) := by
        intro hmem
        obtain ⟨q, hq, heq⟩ := List.mem_map.1 hmem
        exact hhead q hq heq.symm
      refine ⟨d, d', hfind, hplan, ?_, hchanged⟩
      rw [hothers _ hnotin, find?_put_self]
    · -- and the first commit left theirs alone
      intro q hq
      obtain ⟨e, e', he, hplan', he', hchanged'⟩ := hdone q hq
      rw [find?_put_of_ne w (Ne.symm (hhead q hq))] at he
      exact ⟨e, e', he, hplan', he', hchanged'⟩

/-- The files of a plan are distinct. -/
theorem pairwise_path_ne_of_plan_eq_ok {files : NameMap FileChange}
    (h : w.plan files.entries = .ok planned) : planned.Pairwise fun p q => p.path ≠ q.path := by
  have hascending := files.ascending
  rw [← (resolves_of_plan_eq_ok h).1, List.pairwise_map] at hascending
  refine hascending.imp ?_
  rintro ⟨path, c, δ⟩ ⟨path', c', δ'⟩ hlt rfl
  exact String.lt_irrefl path hlt

/-- A file that comes later in a plan is not one of those before it. -/
theorem path_not_mem_front {front back : List PlannedFile} {p : PlannedFile}
    (h : (front ++ p :: back).Pairwise fun p q => p.path ≠ q.path) :
    p.path ∉ front.map (·.path) := by
  intro hmem
  obtain ⟨q, hq, heq⟩ := List.mem_map.1 hmem
  exact (List.pairwise_append.1 h).2.2 q hq p List.mem_cons_self heq

/-- Whatever was committed before it, the next commit goes well. -/
theorem exists_commit_eq_after {front back : List PlannedFile} {p : PlannedFile}
    (hdistinct : (front ++ p :: back).Pairwise fun p q => p.path ≠ q.path)
    (hplanned : ∀ q ∈ front ++ p :: back, w.Resolves q) (indenter : IndentStyle) (s : Settings) :
    ∃ w' outcomes d d' o, commitEach indenter s w [] front = (w', .ok outcomes) ∧
      w'.find? p.path = some d ∧ d.commit p.delta p.change indenter s = (d', .ok o) := by
  have hfront := (List.pairwise_append.1 hdistinct).1
  obtain ⟨w', outcomes, heach, hothers, -⟩ := exists_commitEach_eq indenter s [] hfront
    fun q hq => hplanned q (List.mem_append_left _ hq)
  obtain ⟨d, hfind, hplan⟩ := hplanned p (List.mem_append_right _ List.mem_cons_self)
  obtain ⟨d', o, hcommit, -⟩ := Document.exists_commit_eq hplan indenter s
  rw [← hothers _ (path_not_mem_front hdistinct)] at hfind
  exact ⟨w', outcomes, d, d', o, heach, hfind, hcommit⟩

/-- A change of several files that can be planned is made, and it leaves other documents alone. -/
theorem exists_apply_eq {files : NameMap FileChange} (h : w.plan files.entries = .ok planned)
    (indenter : IndentStyle) (s : Settings) :
    ∃ w' outcomes, w.apply files indenter s = (w', .ok outcomes) ∧
      (∀ path, files.find? path = none → w'.find? path = w.find? path) ∧
      ∀ path c, files.find? path = some c → ∃ d δ d', w.find? path = some d ∧
        d.plan c = .ok δ ∧ w'.find? path = some d' ∧ d.Changed d' δ c indenter s := by
  obtain ⟨hentries, hresolves⟩ := resolves_of_plan_eq_ok h
  obtain ⟨w', outcomes, heach, hothers, hdone⟩ :=
    exists_commitEach_eq indenter s [] (pairwise_path_ne_of_plan_eq_ok h) hresolves
  refine ⟨w', outcomes, by rw [apply, h, ← heach], fun path hpath => hothers path ?_, ?_⟩
  · intro hmem
    obtain ⟨q, hq, rfl⟩ := List.mem_map.1 hmem
    have hlisted : (q.path, q.change) ∈ files.entries := hentries ▸ List.mem_map_of_mem hq
    rw [← NameMap.find?_eq_some_iff, hpath] at hlisted
    cases hlisted
  · intro path c hc
    rw [NameMap.find?_eq_some_iff, ← hentries] at hc
    obtain ⟨q, hq, heq⟩ := List.mem_map.1 hc
    obtain ⟨rfl, rfl⟩ := Prod.mk.inj heq
    obtain ⟨d, d', hfind, hplan, hfind', hchanged⟩ := hdone q hq
    exact ⟨d, q.delta, d', hfind, hplan, hfind', hchanged⟩

/-- **A change of several files is made in all of them or in none.**  It is refused just when one of
the files is not open or refuses its change, and then nothing changes.  Once everything is planned,
no commit fails, whatever was committed before it.  When the change is made, it changes the
documents it is about as planned and leaves the others alone. -/
theorem apply_all_or_nothing (w : Workspace) (files : NameMap FileChange) (indenter : IndentStyle)
    (s : Settings) :
    ((∃ e, (w.apply files indenter s).2 = .error e) ↔
      ∃ path c, files.find? path = some c ∧ w.Refuses path c) ∧
    (∀ e, (w.apply files indenter s).2 = .error e → (w.apply files indenter s).1 = w) ∧
    (∀ planned, w.plan files.entries = .ok planned →
      ∀ front p back, planned = front ++ p :: back →
        ∃ w' outcomes d d' o, commitEach indenter s w [] front = (w', .ok outcomes) ∧
          w'.find? p.path = some d ∧ d.commit p.delta p.change indenter s = (d', .ok o)) ∧
    ∀ outcomes, (w.apply files indenter s).2 = .ok outcomes →
      (∀ path, files.find? path = none → (w.apply files indenter s).1.find? path = w.find? path) ∧
      ∀ path c, files.find? path = some c → ∃ d δ d', w.find? path = some d ∧ d.plan c = .ok δ ∧
        (w.apply files indenter s).1.find? path = some d' ∧ d.Changed d' δ c indenter s := by
  have hrefused : (∃ p ∈ files.entries, w.Refuses p.1 p.2) ↔
      ∃ path c, files.find? path = some c ∧ w.Refuses path c := by
    simp only [NameMap.find?_eq_some_iff, Prod.exists]
  rw [← hrefused, ← plan_eq_error_iff]
  cases hplan : w.plan files.entries with
  | error e =>
    rw [apply_of_plan_eq_error indenter s hplan]
    simp
  | ok planned =>
    obtain ⟨w', outcomes, happly, hothers, hchanged⟩ := exists_apply_eq hplan indenter s
    rw [happly]
    refine ⟨by simp, by simp, ?_, fun _ _ => ⟨hothers, hchanged⟩⟩
    rintro _ ⟨⟩ front p back rfl
    exact exists_commit_eq_after (pairwise_path_ne_of_plan_eq_ok hplan)
      (resolves_of_plan_eq_ok hplan).2 indenter s

/-- A change of two files of which one is not open, and one of two open files. -/
theorem apply_all_or_nothing_twoFiles :
    let w := (Workspace.empty.open "a.cpp" ['a']).open "b.cpp" ['b', 'c']
    let add : FileChange := { changes := ChangeSet.empty.recordAll [.insert 1 ['x']] }
    let drop : FileChange := { changes := ChangeSet.empty.recordAll [.remove ⟨0, 1⟩] }
    let missing := NameMap.ofList [("a.cpp", add), ("c.cpp", drop)]
    let both := NameMap.ofList [("a.cpp", add), ("b.cpp", drop)]
    (w.apply missing {} {}).1 = w ∧
      ((w.apply both {} {}).1.find? "a.cpp").map (·.text) = some ['a', 'x'] ∧
      ∃ d δ d', w.find? "b.cpp" = some d ∧ d.plan drop = .ok δ ∧
        (w.apply both {} {}).1.find? "b.cpp" = some d' ∧ d.Changed d' δ drop {} {} := by
  intro w add drop missing both
  have hmissing := apply_all_or_nothing w missing {} {}
  have hboth := apply_all_or_nothing w both {} {}
  obtain ⟨e, he⟩ := hmissing.1.2 ⟨"c.cpp", drop, by decide, .inl (by decide)⟩
  have hok : (w.apply both {} {}).2.toBool = true := by decide
  refine ⟨hmissing.2.1 e he, by decide, ?_⟩
  rcases hmade : (w.apply both {} {}).2 with e | outcomes
  · rw [hmade] at hok
    cases hok
  · exact (hboth.2.2.2 outcomes hmade).2 "b.cpp" drop (by decide)

end Workspace

end Mend
