import Mend.Fix.Header
import Mend.Fix.Member
import Mend.Proofs.CursorPaths
import Mend.Proofs.FittingChanges

/-!
# Fixes that put text into a file do not fail

Headers, declarations and definitions are put at an offset of a file.  The offset is told by a row
and a column, and it lies in the text whatever the column is.  The file is one of the snapshot, and
it is found there under its path.

## Main definitions

* `InsertionPoint.LiesIn` — a place names a file and one of its rows.

## Main results

* `Text.rowOffset_le_length` — an offset told by a row and a column lies in the text.
* `Snapshot.IsKeyed.exists_of_mem_definitionPoints` — a place for a definition is in a file of the
  snapshot.
* `Query.succeeds_includeHeader`, `Query.succeeds_declareMember`, `Query.succeeds_defineMember` —
  **the fixes do not fail.**
-/

namespace Mend

/-! ### Rows -/

namespace Text

/-- The rows before a row, each with its line feed, and then the row itself open the text. -/
theorem prefix_join (separator : Text) {rs : List Text} {i : Nat} (h : i < rs.length) :
    ((rs.take i).flatMap (· ++ separator) ++ rs[i]).IsPrefix (join separator rs) := by
  induction rs generalizing i with
  | nil => cases h
  | cons r rs ih =>
    cases rs with
    | nil =>
      -- no line feed follows the last row
      obtain rfl : i = 0 := by simpa using h
      exact List.prefix_refl _
    | cons s rs =>
      have hjoin : join separator (r :: s :: rs) = r ++ separator ++ join separator (s :: rs) := rfl
      rw [hjoin]
      cases i with
      | zero => exact (List.prefix_append r separator).trans (List.prefix_append _ _)
      | succ i =>
        rw [List.take_succ_cons, List.flatMap_cons, List.append_assoc, List.getElem_cons_succ]
        exact (List.prefix_append_right_inj _).2 (ih (Nat.lt_of_succ_lt_succ h))

/-- A row ends within the text. -/
theorem rowStart_add_rowLength_le (t : Text) (row : Nat) :
    rowStart t row + rowLength t row ≤ t.length := by
  unfold rowLength
  rcases Nat.lt_or_ge row (rowCount t) with h | h
  · have hlt := rowCount_eq_length t ▸ h
    have hprefix := (prefix_join ['\n'] hlt).length_le
    rw [join_rows, List.length_append] at hprefix
    rwa [rowStart_of_lt h, List.getElem?_eq_getElem hlt]
  · rw [rowStart_of_le h, List.getElem?_eq_none (rowCount_eq_length t ▸ h)]
    exact Nat.le_refl _

theorem rowStart_le_length (t : Text) (row : Nat) : rowStart t row ≤ t.length :=
  Nat.le_trans (Nat.le_add_right _ _) (rowStart_add_rowLength_le t row)

/-- The rows behind the first one start behind a line feed of the text. -/
theorem rowStarts_pos {t : Text} {row start : Nat} (h : (rowStarts t)[row + 1]? = some start) :
    0 < start ∧ start ≤ t.length := by
  have hstart : rowStart t (row + 1) = start := by rw [rowStart, h]; rfl
  refine ⟨?_, hstart ▸ rowStart_le_length t (row + 1)⟩
  rw [rowStarts, List.getElem?_cons_succ, getElem?_rowStartsFrom] at h
  split at h
  next hlt =>
    cases h
    obtain ⟨r, rs, hrows⟩ := List.exists_cons_of_ne_nil (rows_ne_nil t)
    rw [rowsBefore, hrows, List.take_succ_cons, List.flatMap_cons]
    simp only [List.length_append, List.length_singleton]
    omega
  next => cases h

/-- **An offset told by a row and a column lies in the text.**  The row after the last offset would
be counted as the first one; a text with so many rows goes on behind every offset. -/
theorem rowOffset_le_length {t : Text} {row : Nat} (h : row < rowCount t) (column : Nat) :
    rowOffset t row column ≤ t.length := by
  have hrows : rowCount t ≤ t.length + 1 := by
    rw [rowCount_eq]
    exact Nat.succ_le_succ (List.count_le_length ..)
  unfold rowOffset rowStop
  refine Nat.le_trans (Nat.min_le_right _ _) (Nat.max_le.2 ⟨?_, rowStart_le_length t row⟩)
  split
  next start hnext =>
    cases hrow : wrapOffset (row + 1) with
    | zero =>
      have hlast : lastOffset + 1 ≤ row + 1 :=
        Nat.le_of_dvd (Nat.succ_pos row) (Nat.dvd_of_mod_eq_zero hrow)
      exact Nat.le_trans (wrapOffset_le _) (by omega)
    | succ row' =>
      rw [hrow] at hnext
      obtain ⟨hpos, hle⟩ := rowStarts_pos hnext
      rw [wrapOffset_pred hpos]
      exact Nat.le_trans (Nat.mod_le _ _) (by omega)
  next => exact Nat.le_refl _

end Text

/-! ### Headers -/

/-- A header is included within the text. -/
theorem ParsedFile.includeOffset_le_length (f : ParsedFile) (row : Nat) :
    f.includeOffset row ≤ f.text.length := by
  unfold includeOffset
  split
  next => exact Text.rowStart_le_length _ _
  next =>
    split
    next => exact Nat.zero_le _
    next =>
      have hfirst := f.isOrdered.tokenSpan 0
      exact Nat.le_trans hfirst.1 hfirst.2

theorem Query.succeeds_includeHeader {q : Query} (hq : q.IsProper) :
    ∀ x ∈ q.includeHeader, x.Succeeds q.snapshot := by
  intro x hx
  rw [includeHeader, Option.mem_toList] at hx
  obtain ⟨⟨t, depth⟩, -, hfound⟩ := List.exists_of_findSome?_eq_some hx
  have hinsert := fun row text =>
    Change.fit_insert (q.file.includeOffset_le_length row) text
  dsimp only at hfound
  split at hfound
  · split at hfound
    · split at hfound
      · cases hfound
      · cases hfound
        exact succeeds_propose hq (hinsert _ _) _ _ _
    · cases hfound
  · split at hfound
    · split at hfound
      · cases hfound
      · cases hfound
        exact succeeds_propose hq (hinsert _ _) _ _ _
    · cases hfound
  · cases hfound

/-! ### Places for members -/

/-- A place names a file and one of the rows of its text. -/
def InsertionPoint.LiesIn (p : InsertionPoint) (f : ParsedFile) : Prop :=
  p.file = f.path ∧ p.line ≤ Text.rowCount f.text

theorem InsertionPoint.liesIn_atOffset (f : ParsedFile) (o : Nat) (before after : String) :
    (atOffset f o before after).LiesIn f :=
  ⟨rfl, Text.rowOf_lt_rowCount _ _⟩

/-- A member is declared in the file of its class. -/
theorem ParsedFile.liesIn_memberPoint (f : ParsedFile) (c : ClassSymbol) (spec : AccessSpec) :
    (f.memberPoint c spec).LiesIn f := by
  unfold memberPoint
  dsimp only
  split
  next => exact InsertionPoint.liesIn_atOffset f _ _ _
  next => split <;> exact InsertionPoint.liesIn_atOffset f _ _ _

/-- Leaving out repetitions adds nothing. -/
theorem mem_of_mem_eraseReps {α : Type} [BEq α] {l : List α} {a : α} (h : a ∈ l.eraseReps) :
    a ∈ l := by
  -- the loop holds the last element that it has passed, and what it has kept before that
  have hloop : ∀ (l acc : List α) (b : α),
      a ∈ List.eraseRepsBy.loop (fun x y => x == y) b l acc → a ∈ acc ∨ a ∈ b :: l := by
    intro l
    induction l with
    | nil =>
      intro acc b h
      simpa [List.eraseRepsBy.loop, or_comm] using h
    | cons c l ih =>
      intro acc b h
      rw [List.eraseRepsBy.loop] at h
      split at h
      · refine (ih _ _ h).imp id fun h => ?_
        rcases List.mem_cons.1 h with rfl | h
        · exact List.mem_cons_self
        · exact List.mem_cons_of_mem _ (List.mem_cons_of_mem _ h)
      · rcases ih _ _ h with h | h
        · rcases List.mem_cons.1 h with rfl | h
          · exact .inr List.mem_cons_self
          · exact .inl h
        · exact .inr (List.mem_cons_of_mem _ h)
  cases l with
  | nil => exact h
  | cons b l => exact (hloop l [] b h).elim (fun h => absurd h List.not_mem_nil) id

namespace Snapshot

variable {s : Snapshot} {f : ParsedFile} {id : Nat}

theorem mem_values_of_find? {path : String} (h : s.find? path = some f) : f ∈ s.values :=
  List.mem_map_of_mem (NameMap.find?_eq_some_iff.1 h)

/-- A class is defined in a file of the snapshot. -/
theorem mem_values_of_classDefinition? {words : List String}
    (h : s.classDefinition? words = some (f, id)) : f ∈ s.values := by
  unfold classDefinition? at h
  split at h
  next => cases h
  next =>
    rw [Option.orElse_eq_orElse, Option.orElse_eq_or, Option.or_eq_some_iff] at h
    rcases h with h | ⟨-, h⟩
    all_goals
      obtain ⟨g, hg, h⟩ := List.exists_of_findSome?_eq_some h
      obtain ⟨n, -, heq⟩ := Option.map_eq_some_iff.1 h
      cases heq
      exact hg

/-- A place after a definition is in a file of the snapshot. -/
theorem exists_of_afterDefinition? {c : ClassSymbol} {member : FunctionSymbol} {p : InsertionPoint}
    (h : s.afterDefinition? c member = some p) : ∃ f ∈ s.values, p.LiesIn f := by
  unfold afterDefinition? at h
  obtain ⟨⟨f, id⟩, hdefinition, h⟩ := Option.bind_eq_some_iff.1 h
  obtain ⟨g, -, h⟩ := Option.bind_eq_some_iff.1 h
  cases h
  obtain ⟨g, hg, hmem⟩ := List.mem_flatMap.1 (List.mem_of_mem_head? hdefinition)
  obtain ⟨n, -, heq⟩ := List.mem_map.1 hmem
  cases heq
  exact ⟨f, hg, InsertionPoint.liesIn_atOffset f _ _ _⟩

/-- **A place for a definition is in a file of the snapshot**, which is found under its path. -/
theorem IsKeyed.exists_of_mem_definitionPoints (hs : s.IsKeyed) {file : String}
    {p : InsertionPoint} (h : p ∈ s.definitionPoints file id) :
    ∃ f, s.find? f.path = some f ∧ p.LiesIn f := by
  suffices hfile : ∃ f ∈ s.values, p.LiesIn f by
    obtain ⟨f, hf, hp⟩ := hfile
    exact ⟨f, hs.find?_path hf, hp⟩
  unfold definitionPoints at h
  split at h
  next => cases h
  next f hf =>
    split at h
    next => cases h
    next g _ =>
      have h := (List.mem_filter.1 (mem_of_mem_eraseReps h)).1
      rw [List.mem_append, List.mem_cons, Option.mem_toList, Option.mem_toList] at h
      rcases h with h | rfl | h
      · -- after the definition of a member before it
        split at h
        next =>
          obtain ⟨member, -, h⟩ := List.exists_of_findSome?_eq_some h
          exact exists_of_afterDefinition? h
        next => cases h
      · exact ⟨f, mem_values_of_find? hf, InsertionPoint.liesIn_atOffset f _ _ _⟩
      · obtain ⟨partner, hpartner, rfl⟩ := Option.map_eq_some_iff.1 h
        obtain ⟨path, -, hpath⟩ := List.exists_of_findSome?_eq_some hpartner
        exact ⟨partner, mem_values_of_find? hpath, InsertionPoint.liesIn_atOffset partner _ _ _⟩

end Snapshot

/-! ### Members -/

namespace Query

variable {q : Query}

/-- Generated code can be put at a place in a file of the snapshot. -/
theorem exists_insertAt_eq_ok {p : InsertionPoint} {f : ParsedFile}
    (hf : q.snapshot.find? f.path = some f) (hp : p.LiesIn f) (code : String) :
    ∃ patch, q.insertAt p code = .ok patch ∧ patch.Fits q.snapshot := by
  obtain ⟨hfile, hline⟩ := hp
  have hrow : p.line - 1 < Text.rowCount f.text := by
    have hsome : 0 < Text.rowCount f.text := Nat.zero_lt_of_lt (Text.rowOf_lt_rowCount f.text 0)
    omega
  rw [insertAt, hfile, hf]
  exact Patch.exists_ofChanges_eq_ok hf (Change.fit_insert (Text.rowOffset_le_length hrow _) _) _

theorem succeeds_declareMember (hq : q.IsProper) :
    ∀ x ∈ q.declareMember, x.Succeeds q.snapshot := by
  intro x hx
  unfold declareMember at hx
  split at hx
  next => cases hx
  next id g _ =>
    split at hx
    next => cases hx
    next file classId hclass =>
      obtain ⟨spec, -, rfl⟩ := List.mem_map.1 hx
      unfold undeclaredIn? at hclass
      split at hclass
      next => cases hclass
      next =>
        obtain ⟨⟨f, n⟩, hdefinition, hclass⟩ := Option.bind_eq_some_iff.1 hclass
        obtain ⟨c, hc, hclass⟩ := Option.bind_eq_some_iff.1 hclass
        split at hclass
        next => cases hclass
        next =>
          cases hclass
          have hfile := hq.keyed.find?_path (Snapshot.mem_values_of_classDefinition? hdefinition)
          have hpoint : q.snapshot.memberPoint? file.path classId spec
              = some (file.memberPoint c spec) := by
            simp [Snapshot.memberPoint?, hfile, hc]
          dsimp only [Proposal.Succeeds]
          rw [hpoint]
          exact exists_insertAt_eq_ok hfile (file.liesIn_memberPoint c spec) _

theorem succeeds_defineMember (hq : q.IsProper) :
    ∀ x ∈ q.defineMember, x.Succeeds q.snapshot := by
  intro x hx
  unfold defineMember at hx
  split at hx
  next => cases hx
  next =>
    split at hx
    next hpoint =>
      rw [List.mem_singleton.1 hx]
      obtain ⟨f, hf, hp⟩ := hq.keyed.exists_of_mem_definitionPoints (List.mem_of_mem_head? hpoint)
      exact exists_insertAt_eq_ok hf hp _
    next => cases hx

end Query

end Mend
