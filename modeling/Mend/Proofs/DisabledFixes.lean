import Mend.Fix.Catalogue

/-!
# Fixes that are turned off

A user turns fixes off by their names.  No kind of fixes looks at these names, so a kind that is
left on proposes what it would propose anyway.  Nor does the order of the list depend on what else
stands in it: an item is put before the first one that it may precede, and taking others out moves
it past none that stay.

## Main definitions

* `Settings.disableAll`, `Query.disabling` — settings with fixes turned off, and a query under them.
* `Proposal.IsByDepth` — a fix with the priority that its depth gives it.
* `Fix.foundBy` — a fix as another query finds it.
* `Fix.StandsBefore` — the order of a list of fixes.

## Main results

* `FixKind.proposals_disabling` — **no kind of fixes looks at which fixes are turned off.**
* `FixKind.isByDepth_of_mem_proposals` — **every fix has the priority that its depth gives it.**
* `Query.fixesOf_disabling` — a kind that is left on offers what it offered.
* `Query.disabling_only_removes` — **turning fixes off takes them out of the list and does nothing
  else**; and every list is in order.
-/

namespace Mend

/-! ### Settings -/

namespace Settings

/-- Turns fixes off. -/
def disableAll (s : Settings) (ids : List String) : Settings := ids.foldl disable s

/-- Turning a fix off turns no other fix off or on. -/
theorem isEnabled_disable (s : Settings) (id id' : String) :
    (s.disable id).isEnabled id' = (s.isEnabled id' && id' != id) := by
  unfold isEnabled disable NameSet.add NameMap.contains
  by_cases h : id' = id
  · subst h
    simp [NameMap.find?_insert_self]
  · simp [NameMap.find?_insert_of_ne _ h, h]

theorem isEnabled_disableAll (s : Settings) (ids : List String) (id : String) :
    (s.disableAll ids).isEnabled id = (s.isEnabled id && !ids.contains id) := by
  unfold disableAll
  induction ids generalizing s with
  | nil => simp
  | cons id' ids ih =>
    rw [List.foldl_cons, ih, isEnabled_disable, List.contains_cons, Bool.not_or, Bool.and_assoc]
    rfl

/-- Turning fixes off leaves all other choices alone. -/
theorem exists_disableAll_eq (s : Settings) (ids : List String) :
    ∃ disabled, s.disableAll ids = { s with disabledFixes := disabled } := by
  unfold disableAll
  induction ids generalizing s with
  | nil => exact ⟨s.disabledFixes, rfl⟩
  | cons id ids ih => exact ih (s.disable id)

end Settings

/-! ### What kinds of fixes propose -/

namespace Query

variable (q : Query)

/-- The query of a user who has turned more fixes off. -/
def disabling (ids : List String) : Query :=
  { q with settings := q.settings.disableAll ids }

/-- The walk into a condition looks at no settings. -/
theorem splitPoint?_withSettings (s : Settings) (hasElse : Bool) (seen : Option TokenKind)
    (ts : List (SyntaxTree × Nat)) :
    splitPoint? { q with settings := s } hasElse seen ts = q.splitPoint? hasElse seen ts := by
  induction ts generalizing seen with
  | nil => rfl
  | cons n ts ih =>
    unfold splitPoint?
    simp only [ih]
    rfl

/-- A condition is split alike under all settings. -/
theorem splitIf_withSettings (s : Settings) :
    splitIf { q with settings := s } = q.splitIf := by
  unfold splitIf
  simp only [splitPoint?_withSettings]
  rfl

end Query

/-- **No kind of fixes looks at which fixes are turned off.** -/
theorem FixKind.proposals_disabling (q : Query) (ids : List String) (k : FixKind) :
    k.proposals (q.disabling ids) = k.proposals q := by
  obtain ⟨disabled, heq⟩ := q.settings.exists_disableAll_eq ids
  unfold Query.disabling
  rw [heq]
  cases k with
  | splitIf => exact q.splitIf_withSettings _
  | _ => rfl

/-! ### How much fixes are preferred -/

/-- A fix has the priority that its depth gives it. -/
def Proposal.IsByDepth (x : Proposal) : Prop := x.priority = priorityAt x.depth

theorem Proposal.isByDepth_atDepth (description : String) (depth : Nat)
    (patch : Except FixError Patch) : (atDepth description depth patch).IsByDepth := by
  simp only [IsByDepth, atDepth]

theorem Query.isByDepth_propose (q : Query) (description : String) (depth : Nat)
    (changes : List Change) (reindent : List Span) :
    (q.propose description depth changes reindent).IsByDepth :=
  Proposal.isByDepth_atDepth _ _ _

/-- What is found first in a list has its priority by depth if all that can be found there do. -/
theorem Proposal.isByDepth_findSome? {α : Type} {l : List α} {f : α → Option Proposal}
    (h : ∀ a x, f a = some x → x.IsByDepth) : ∀ x ∈ (l.findSome? f).toList, x.IsByDepth := by
  intro x hx
  rw [Option.mem_toList] at hx
  obtain ⟨a, -, ha⟩ := List.exists_of_findSome?_eq_some hx
  exact h a x ha

theorem Query.isByDepth_decideOutward {q : Query}
    {decision : SyntaxTree → Nat → Option (Option Proposal)}
    (h : ∀ t depth x, decision t depth = some (some x) → x.IsByDepth) :
    ∀ x ∈ (q.decideOutward decision).toList, x.IsByDepth := by
  intro x hx
  rw [Option.mem_toList, decideOutward, Option.join_eq_some_iff] at hx
  obtain ⟨n, -, hn⟩ := List.exists_of_findSome?_eq_some hx
  exact h _ _ _ hn

/-- **Every fix has the priority that its depth gives it**, whatever its kind is. -/
theorem FixKind.isByDepth_of_mem_proposals (k : FixKind) (q : Query) :
    ∀ x ∈ k.proposals q, x.IsByDepth := by
  cases k with
  | invertComparison =>
    unfold proposals Query.invertComparison
    grind [Query.isByDepth_propose]
  | swapOperands =>
    unfold proposals Query.swapOperands
    grind [Query.isByDepth_propose]
  | joinNegations =>
    unfold proposals Query.joinNegations
    grind [Query.isByDepth_propose]
  | splitDeclaration =>
    unfold proposals Query.splitDeclaration
    grind [Query.isByDepth_propose]
  | splitIf =>
    unfold proposals Query.splitIf
    grind [Query.isByDepth_propose]
  | wrapLiteral =>
    unfold proposals Query.wrapLiteral
    grind [Query.isByDepth_propose]
  | translateString =>
    unfold proposals Query.translateString
    grind [Query.isByDepth_propose]
  | signString =>
    unfold proposals Query.signString
    grind [Query.isByDepth_propose]
  | convertInteger =>
    unfold proposals Query.convertInteger
    grind [Query.isByDepth_propose]
  | renameToCamelCase =>
    unfold proposals Query.renameToCamelCase
    grind [Query.isByDepth_propose]
  | declareMember =>
    unfold proposals Query.declareMember
    grind [Proposal.isByDepth_atDepth]
  | defineMember =>
    unfold proposals Query.defineMember
    grind [Proposal.isByDepth_atDepth]
  | hoistFromIf | hoistFromWhile | completeSwitch | declareLocal =>
    -- the first node that decides is looked for from the inside out
    refine Query.isByDepth_decideOutward ?_
    grind [Query.isByDepth_propose, Proposal.isByDepth_atDepth]
  | addBraces =>
    unfold proposals Query.addBraces Query.brace
    dsimp only
    split
    · grind [Query.isByDepth_propose]
    · refine Proposal.isByDepth_findSome? ?_
      grind [Query.isByDepth_propose]
  | includeHeader =>
    refine Proposal.isByDepth_findSome? ?_
    intro n x hx
    dsimp only at hx
    repeat' split at hx
    all_goals cases hx
    all_goals exact q.isByDepth_propose _ _ _ _

/-! ### The list of fixes -/

namespace Fix

/-- The same fix, as another query finds it. -/
def foundBy (x : Fix) (q : Query) : Fix := { x with query := q }

/-- The order of a list of fixes: those of a higher priority come first, then those of deeper nodes,
then those of kinds that come earlier. -/
def StandsBefore (x y : Fix) : Prop :=
  y.priority < x.priority ∨ x.priority = y.priority ∧
    (y.depth < x.depth ∨ x.depth = y.depth ∧ x.kind.order ≤ y.kind.order)

theorem mayPrecede_iff {x y : Fix} : x.mayPrecede y = true ↔ x.StandsBefore y := by
  simp [mayPrecede, StandsBefore]

theorem mayPrecede_total (x y : Fix) (h : x.mayPrecede y = false) : y.mayPrecede x = true := by
  rw [← Bool.not_eq_true, mayPrecede_iff, StandsBefore] at h
  rw [mayPrecede_iff, StandsBefore]
  omega

theorem mayPrecede_trans (x y z : Fix) (hxy : x.mayPrecede y = true)
    (hyz : y.mayPrecede z = true) : x.mayPrecede z = true := by
  rw [mayPrecede_iff, StandsBefore] at hxy hyz ⊢
  omega

end Fix

namespace Query

variable (q : Query)

theorem kind_of_mem_fixesOf {k : FixKind} {x : Fix} (hx : x ∈ q.fixesOf k) : x.kind = k := by
  unfold fixesOf at hx
  split at hx
  · obtain ⟨p, -, rfl⟩ := List.mem_map.1 hx
    rfl
  · cases hx

/-- The fixes of all kinds have their priorities by depth. -/
theorem isByDepth_of_mem_flatMap_fixesOf {x : Fix} (hx : x ∈ FixKind.all.flatMap q.fixesOf) :
    x.toProposal.IsByDepth := by
  obtain ⟨k, -, hx⟩ := List.mem_flatMap.1 hx
  unfold fixesOf at hx
  split at hx
  · obtain ⟨p, hp, rfl⟩ := List.mem_map.1 hx
    exact k.isByDepth_of_mem_proposals q p hp
  · cases hx

/-- A kind that is left on offers what it offered, and one that is turned off offers nothing. -/
theorem fixesOf_disabling (ids : List String) (k : FixKind) :
    (q.disabling ids).fixesOf k =
      ((q.fixesOf k).filter fun x => x.kind.id ∉ ids).map (·.foundBy (q.disabling ids)) := by
  have henabled : (q.disabling ids).settings.isEnabled k.id =
      (q.settings.isEnabled k.id && !ids.contains k.id) :=
    q.settings.isEnabled_disableAll ids k.id
  by_cases hid : k.id ∈ ids
  case pos =>
    have hnone : ((q.fixesOf k).filter fun x => x.kind.id ∉ ids) = [] := by
      refine List.filter_eq_nil_iff.2 ?_
      intro x hx
      rw [q.kind_of_mem_fixesOf hx]
      simpa using hid
    rw [hnone, fixesOf, henabled]
    simp [hid]
  case neg =>
    have hall : ((q.fixesOf k).filter fun x => x.kind.id ∉ ids) = q.fixesOf k := by
      refine List.filter_eq_self.2 ?_
      intro x hx
      rw [q.kind_of_mem_fixesOf hx]
      simpa using hid
    rw [hall, fixesOf, fixesOf, henabled, FixKind.proposals_disabling]
    cases q.settings.isEnabled k.id
    · simp
    · simp [hid, Function.comp_def, Fix.foundBy]

/-- Of the fixes of all kinds, those of one kind are the ones that it offers. -/
theorem filter_flatMap_fixesOf (k : FixKind) (depth : Nat) :
    (FixKind.all.flatMap q.fixesOf).filter (fun x => x.kind = k ∧ x.depth = depth) =
      (q.fixesOf k).filter fun x => x.depth = depth := by
  have hmem : k ∈ FixKind.all := by cases k <;> decide
  have hnodup : FixKind.all.Nodup := by decide
  obtain ⟨before, after, hsplit⟩ := List.append_of_mem hmem
  rw [hsplit, List.perm_middle.nodup_iff, List.nodup_cons] at hnodup
  have hother : ∀ ks : List FixKind, k ∉ ks →
      (ks.flatMap q.fixesOf).filter (fun x => x.kind = k ∧ x.depth = depth) = [] := by
    intro ks hk
    refine List.filter_eq_nil_iff.2 ?_
    intro x hx hkept
    obtain ⟨k', hk', hx⟩ := List.mem_flatMap.1 hx
    have hkind : x.kind = k := (of_decide_eq_true hkept).1
    rw [q.kind_of_mem_fixesOf hx] at hkind
    exact hk (hkind ▸ hk')
  have hself : (q.fixesOf k).filter (fun x => x.kind = k ∧ x.depth = depth) =
      (q.fixesOf k).filter fun x => x.depth = depth := by
    refine List.filter_congr ?_
    intro x hx
    simp [q.kind_of_mem_fixesOf hx]
  rw [hsplit, List.flatMap_append, List.flatMap_cons, List.filter_append, List.filter_append,
    hother before fun h => hnodup.1 (List.mem_append_left _ h),
    hother after fun h => hnodup.1 (List.mem_append_right _ h), hself, List.nil_append,
    List.append_nil]

/-- **Turning fixes off takes them out of the list and does nothing else.**  The fixes that are left
are the same, in the same order.  In every list those of a higher priority come first, then those of
deeper nodes, then those of kinds that come earlier; and the fixes of one kind that agree in all
this stand in the order in which their kind offers them. -/
theorem disabling_only_removes (ids : List String) :
    (q.disabling ids).fixes =
        (q.fixes.filter fun x => x.kind.id ∉ ids).map (·.foundBy (q.disabling ids)) ∧
      q.fixes.Pairwise Fix.StandsBefore ∧
      ∀ k depth, (q.fixes.filter fun x => x.kind = k ∧ x.depth = depth) =
        if q.path.isEmpty then [] else (q.fixesOf k).filter fun x => x.depth = depth := by
  have hpath : (q.disabling ids).path = q.path := rfl
  unfold fixes
  rw [hpath]
  split
  case isTrue => exact ⟨rfl, .nil, fun _ _ => rfl⟩
  case isFalse =>
    refine ⟨?_, ?_, ?_⟩
    · have hfound : FixKind.all.flatMap (q.disabling ids).fixesOf =
          ((FixKind.all.flatMap q.fixesOf).filter fun x => x.kind.id ∉ ids).map
            (·.foundBy (q.disabling ids)) := by
        rw [List.filter_flatMap, List.map_flatMap]
        exact congrArg (FixKind.all.flatMap ·) (funext fun k => q.fixesOf_disabling ids k)
      rw [hfound, stableSort_map]
      exact congrArg _ (stableSort_filter Fix.mayPrecede_total Fix.mayPrecede_trans _ _)
    · exact (pairwise_stableSort Fix.mayPrecede_total Fix.mayPrecede_trans _).imp
        Fix.mayPrecede_iff.1
    · intro k depth
      rw [← q.filter_flatMap_fixesOf k depth]
      refine filter_stableSort ?_
      intro x hx y hy hxk hyk
      -- either of two fixes of one kind and depth may precede the other
      obtain ⟨hxkind, hxdepth⟩ := of_decide_eq_true hxk
      obtain ⟨hykind, hydepth⟩ := of_decide_eq_true hyk
      have hpriority : x.priority = y.priority := by
        rw [q.isByDepth_of_mem_flatMap_fixesOf hx, q.isByDepth_of_mem_flatMap_fixesOf hy, hxdepth,
          hydepth]
      rw [Fix.mayPrecede_iff, Fix.StandsBefore, hxkind, hykind, hxdepth, hydepth]
      exact .inr ⟨hpriority, .inr ⟨rfl, Nat.le_refl _⟩⟩

end Query

end Mend
