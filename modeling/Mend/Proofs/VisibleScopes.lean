import Mathlib.Data.List.Perm.Subperm
import Mend.Proofs.BoundSymbols
import Mend.Snapshot.Lookup

/-!
# Visible scopes

A name is looked up in a scope and in the scopes around it.  A member function that is defined
outside of its class makes a detour: after its own scope comes the body of its class, and from there
the way leads outward to the scope that the function is written in.

The way leads there only if that scope is around the class.  It need not be: a namespace may be
opened a second time for the definition, and then what the second opening declares is not seen.

## Main definitions

* `ParsedFile.around?`, `ParsedFile.enclosing` — the scopes around a scope.
* `ParsedFile.memberBody?` — the body of the class that a function belongs to.
* `ParsedFile.classScopes` — the detour of a member function.
* `ParsedFile.IsWithClass` — the class of a function lies in the scope that the function is
  written in.

## Main results

* `ParsedFile.nodup_scopeChain` — no scope is visible twice.
* `ParsedFile.chainFrom_eq_visibleFrom` — which scopes are visible where functions are written with
  their classes.
* `ParsedFile.enclosing_scopes_visible` — **there every scope around is visible.**
* `ParsedFile.scopeChain_of_memberBody?` — which scopes are visible from a member function that
  lies apart from its class.
* `ParsedFile.exists_enclosing_scope_not_visible` — not all scopes around need be among them.
-/

namespace Mend

namespace ParsedFile

variable (f : ParsedFile)

/-! ### Scopes around scopes -/

/-- The scope right around a scope. -/
def around? (s : Nat) : Option Nat := (f.scope? s).bind (·.parent)

/-- A scope and all scopes around it, from the inside out.  A scope comes after the one around it,
so the way ends. -/
def enclosing (s : Nat) : List Nat :=
  match f.around? s with
  | some p => if p < s then s :: enclosing p else [s]
  | none => [s]
termination_by s

/-- The body of the class that the function with a scope is a member of. -/
def memberBody? (s : Nat) : Option Nat :=
  match f.scopeKind? s with
  | some (.functionScope id) => ((f.ownerClass? id).bind f.class?).map (·.bodyScope)
  | _ => none

/-- The detour from the scope of a member function: the body of its class and the scopes around
that, up to the scope that the function is written in. -/
def classScopes (s : Nat) : List Nat :=
  match f.memberBody? s, f.around? s with
  | some body, some p => (f.enclosing body).takeWhile (· != p)
  | _, _ => []

/-- After a scope comes the one around it. -/
def LeadsOut (s : Nat) : Prop := ∀ body ∈ f.memberBody? s, f.around? s = some body

/-- The scope that a member function is written in is around its class, and no other member
function that makes a detour stands between. -/
def IsWithClass (s : Nat) : Prop :=
  ∀ body ∈ f.memberBody? s, ∀ p ∈ f.around? s,
    p ∈ f.enclosing body ∧ ∀ k ∈ f.classScopes s, f.LeadsOut k

instance (f : ParsedFile) (s : Nat) : Decidable (f.LeadsOut s) :=
  inferInstanceAs (Decidable (∀ body ∈ f.memberBody? s, f.around? s = some body))

instance (f : ParsedFile) (s : Nat) : Decidable (f.IsWithClass s) :=
  inferInstanceAs (Decidable (∀ body ∈ f.memberBody? s, ∀ p ∈ f.around? s,
    p ∈ f.enclosing body ∧ ∀ k ∈ f.classScopes s, f.LeadsOut k))

/-- A scope and the scopes around it, each with its detour. -/
def visibleFrom (s : Nat) : List Nat := (f.enclosing s).flatMap fun i => i :: f.classScopes i

variable {f} {s p k body : Nat} {seen : List Nat}

/-- What is around a scope comes before it. -/
theorem lt_of_around? (h : f.around? s = some p) : p < s := f.isBound.nested.lt_of_isParent h

/-- What holds outside holds further in. -/
@[elab_as_elim]
theorem outward {motive : Nat → Prop} (outermost : ∀ s, f.around? s = none → motive s)
    (inner : ∀ s p, f.around? s = some p → motive p → motive s) (s : Nat) : motive s := by
  induction s using Nat.strongRecOn with
  | ind s ih =>
    cases h : f.around? s with
    | none => exact outermost s h
    | some p => exact inner s p h (ih p (lt_of_around? h))

theorem enclosing_of_none (h : f.around? s = none) : f.enclosing s = [s] := by
  rw [enclosing, h]

theorem enclosing_of_some (h : f.around? s = some p) : f.enclosing s = s :: f.enclosing p := by
  rw [enclosing, h]
  exact if_pos (lt_of_around? h)

theorem self_mem_enclosing (f : ParsedFile) (s : Nat) : s ∈ f.enclosing s := by
  cases h : f.around? s with
  | none => simp [enclosing_of_none h]
  | some p => simp [enclosing_of_some h]

theorem le_of_mem_enclosing (h : k ∈ f.enclosing s) : k ≤ s := by
  induction s using f.outward with
  | outermost s hs =>
    rw [enclosing_of_none hs, List.mem_singleton] at h
    exact Nat.le_of_eq h
  | inner s p hp ih =>
    rw [enclosing_of_some hp] at h
    rcases List.mem_cons.1 h with rfl | h
    · exact Nat.le_refl _
    · exact Nat.le_trans (ih h) (Nat.le_of_lt (lt_of_around? hp))

/-- The enclosing scopes are those that stand around a scope, directly or not. -/
theorem mem_enclosing : k ∈ f.enclosing s ↔
    Relation.ReflTransGen (Scope.IsParent f.symbols.scopes) k s := by
  induction s using f.outward with
  | outermost s hs =>
    rw [enclosing_of_none hs, List.mem_singleton, Relation.ReflTransGen.cases_tail_iff]
    refine ⟨fun h => .inl h.symm, ?_⟩
    rintro (h | ⟨p, -, hp⟩)
    · exact h.symm
    · cases hs.symm.trans hp
  | inner s p hp ih =>
    rw [enclosing_of_some hp, List.mem_cons, ih, Relation.ReflTransGen.cases_tail_iff _ k s]
    constructor
    · rintro (h | h)
      · exact .inl h.symm
      · exact .inr ⟨p, h, hp⟩
    · rintro (h | ⟨q, h, hq⟩)
      · exact .inl h.symm
      · obtain rfl : p = q := Option.some.inj (hp.symm.trans hq)
        exact .inr h

/-- What is around a scope around another one is around that one. -/
theorem enclosing_trans (hk : k ∈ f.enclosing p) (hp : p ∈ f.enclosing s) :
    k ∈ f.enclosing s :=
  mem_enclosing.2 ((mem_enclosing.1 hk).trans (mem_enclosing.1 hp))

theorem nodup_enclosing (f : ParsedFile) (s : Nat) : (f.enclosing s).Nodup := by
  induction s using f.outward with
  | outermost s hs => simp [enclosing_of_none hs]
  | inner s p hp ih =>
    rw [enclosing_of_some hp]
    refine List.nodup_cons.2 ⟨fun h => ?_, ih⟩
    exact Nat.not_le_of_lt (lt_of_around? hp) (le_of_mem_enclosing h)

/-! ### Between two scopes -/

@[simp] theorem takeWhile_enclosing_self (f : ParsedFile) (s : Nat) :
    (f.enclosing s).takeWhile (· != s) = [] := by
  cases h : f.around? s with
  | none => simp [enclosing_of_none h]
  | some p => simp [enclosing_of_some h]

theorem takeWhile_enclosing_of_ne {q : Nat} (hne : s ≠ p) (hq : f.around? s = some q) :
    (f.enclosing s).takeWhile (· != p) = s :: (f.enclosing q).takeWhile (· != p) := by
  simp [enclosing_of_some hq, hne]

/-- From a scope to one around it, unless they are the same, the way leads outward. -/
theorem exists_around_of_mem_enclosing (hp : p ∈ f.enclosing s) (hne : s ≠ p) :
    ∃ q, f.around? s = some q ∧ p ∈ f.enclosing q := by
  cases hq : f.around? s with
  | none =>
    rw [enclosing_of_none hq, List.mem_singleton] at hp
    exact absurd hp.symm hne
  | some q =>
    rw [enclosing_of_some hq] at hp
    exact ⟨q, rfl, (List.mem_cons.1 hp).resolve_left hne.symm⟩

/-- The scopes between a scope and one around it. -/
theorem mem_takeWhile_enclosing (hp : p ∈ f.enclosing s) :
    k ∈ (f.enclosing s).takeWhile (· != p) ↔
      k ∈ f.enclosing s ∧ p ∈ f.enclosing k ∧ p < k := by
  induction s using Nat.strongRecOn with
  | ind s ih =>
    by_cases hne : s = p
    · subst hne
      simp only [takeWhile_enclosing_self, List.not_mem_nil, false_iff]
      exact fun h => Nat.not_le_of_lt h.2.2 (le_of_mem_enclosing h.1)
    · obtain ⟨q, hq, hpq⟩ := exists_around_of_mem_enclosing hp hne
      have hps : p < s := Nat.lt_of_le_of_lt (le_of_mem_enclosing hpq) (lt_of_around? hq)
      rw [takeWhile_enclosing_of_ne hne hq, List.mem_cons, ih q (lt_of_around? hq) hpq,
        enclosing_of_some hq, List.mem_cons]
      constructor
      · rintro (rfl | ⟨hk, hpk, hlt⟩)
        · exact ⟨.inl rfl, hp, hps⟩
        · exact ⟨.inr hk, hpk, hlt⟩
      · rintro ⟨rfl | hk, hpk, hlt⟩
        · exact .inl rfl
        · exact .inr ⟨hk, hpk, hlt⟩

/-! ### Detours -/

theorem classScopes_of_none (h : f.memberBody? s = none) : f.classScopes s = [] := by
  rw [classScopes, h]

theorem classScopes_of_some (hbody : f.memberBody? s = some body) (hp : f.around? s = some p) :
    f.classScopes s = (f.enclosing body).takeWhile (· != p) := by
  rw [classScopes, hbody, hp]

/-- The file itself makes no detour. -/
theorem classScopes_of_around?_eq_none (h : f.around? s = none) : f.classScopes s = [] := by
  rw [classScopes, h]
  split <;> simp_all

/-- Where the detour of a member function leads. -/
theorem mem_classScopes (hwith : f.IsWithClass s) (hk : k ∈ f.classScopes s) :
    ∃ body p, f.memberBody? s = some body ∧ f.around? s = some p ∧ k ∈ f.enclosing body ∧
      p ∈ f.enclosing k ∧ p < k := by
  unfold classScopes at hk
  split at hk
  next body p hbody hp =>
    obtain ⟨hk, hpk⟩ := (mem_takeWhile_enclosing (hwith body hbody p hp).1).1 hk
    exact ⟨body, p, hbody, hp, hk, hpk⟩
  next => cases hk

/-- **A detour stays outside of the function that makes it.**  If it came to the scope of the
function, that scope would be part of the detour and make the detour again. -/
theorem not_mem_enclosing_of_mem_classScopes (hwith : f.IsWithClass s)
    (hk : k ∈ f.classScopes s) : s ∉ f.enclosing k := by
  intro hs
  obtain ⟨body, p, hbody, hp, hkbody, hpk, hlt⟩ := mem_classScopes hwith hk
  obtain ⟨hpbody, hout⟩ := hwith body hbody p hp
  have hself : s ∈ f.classScopes s := by
    rw [classScopes_of_some hbody hp, mem_takeWhile_enclosing hpbody]
    exact ⟨enclosing_trans hs hkbody, enclosing_of_some hp ▸
      List.mem_cons_of_mem _ (f.self_mem_enclosing p), lt_of_around? hp⟩
  obtain rfl : p = body := Option.some.inj (hp.symm.trans (hout s hself body hbody))
  rw [classScopes_of_some hbody hp, takeWhile_enclosing_self] at hself
  cases hself

theorem nodup_classScopes (f : ParsedFile) (s : Nat) : (f.classScopes s).Nodup := by
  unfold classScopes
  split
  · exact (f.nodup_enclosing _).sublist (List.takeWhile_sublist _)
  · exact List.nodup_nil

/-! ### All visible scopes -/

theorem visibleFrom_of_none (h : f.around? s = none) : f.visibleFrom s = [s] := by
  rw [visibleFrom, enclosing_of_none h, List.flatMap_singleton, classScopes_of_around?_eq_none h]

theorem visibleFrom_of_some (h : f.around? s = some p) :
    f.visibleFrom s = s :: (f.classScopes s ++ f.visibleFrom p) := by
  rw [visibleFrom, enclosing_of_some h, List.flatMap_cons, List.cons_append, visibleFrom]

/-- A visible scope is around the scope, or it belongs to a detour that is made around it. -/
theorem mem_visibleFrom : k ∈ f.visibleFrom s ↔
    k ∈ f.enclosing s ∨ ∃ i ∈ f.enclosing s, k ∈ f.classScopes i := by
  simp only [visibleFrom, List.mem_flatMap, List.mem_cons]
  constructor
  · rintro ⟨i, hi, rfl | hk⟩
    · exact .inl hi
    · exact .inr ⟨i, hi, hk⟩
  · rintro (hk | ⟨i, hi, hk⟩)
    · exact ⟨k, hk, .inl rfl⟩
    · exact ⟨i, hi, .inr hk⟩

/-- **Further out, nothing is visible that lies further in.** -/
theorem not_mem_visibleFrom (hwith : ∀ i ∈ f.enclosing p, f.IsWithClass i)
    (hpk : p ∈ f.enclosing k) (hlt : p < k) : k ∉ f.visibleFrom p := by
  intro hk
  rcases mem_visibleFrom.1 hk with hk | ⟨i, hi, hk⟩
  · exact Nat.not_le_of_lt hlt (le_of_mem_enclosing hk)
  · exact not_mem_enclosing_of_mem_classScopes (hwith i hi) hk (enclosing_trans hi hpk)

theorem nodup_visibleFrom (hwith : ∀ i ∈ f.enclosing s, f.IsWithClass i) :
    (f.visibleFrom s).Nodup := by
  induction s using f.outward with
  | outermost s hs => simp [visibleFrom_of_none hs]
  | inner s p hp ih =>
    rw [enclosing_of_some hp] at hwith
    obtain ⟨hself, hwith⟩ := List.forall_mem_cons.1 hwith
    have hps : p ∈ f.enclosing s := enclosing_of_some hp ▸
      List.mem_cons_of_mem _ (f.self_mem_enclosing p)
    rw [visibleFrom_of_some hp, List.nodup_cons, List.nodup_append]
    refine ⟨fun h => ?_, f.nodup_classScopes s, ih hwith, fun k hk u hu hku => ?_⟩
    · rcases List.mem_append.1 h with h | h
      · exact not_mem_enclosing_of_mem_classScopes hself h (f.self_mem_enclosing s)
      · exact not_mem_visibleFrom hwith hps (lt_of_around? hp) h
    · obtain ⟨-, q, -, hq, -, hqk, hlt⟩ := mem_classScopes hself hk
      obtain rfl : p = q := Option.some.inj (hp.symm.trans hq)
      exact not_mem_visibleFrom hwith hqk hlt (hku ▸ hu)

/-! ### The chain of scopes -/

/-- What comes after a scope: the class of a member function if it has not been seen, or else the
scope around. -/
theorem bind_scopeAfter? (f : ParsedFile) (seen : List Nat) (s : Nat) :
    (f.scope? s).bind (f.scopeAfter? seen) =
      ((f.memberBody? s).filter (!seen.contains ·) <|> f.around? s) := by
  unfold memberBody? scopeKind? around?
  cases f.scope? s with
  | none => rfl
  | some u =>
    rw [Option.bind_some, Option.bind_some, Option.map_some, scopeAfter?]
    cases u.kind <;> rfl

theorem chainFrom_eq_cons (hnew : s ∉ seen) (n : Nat) {q : Nat}
    (hq : (f.scope? s).bind (f.scopeAfter? (s :: seen)) = some q) :
    f.chainFrom (n + 1) seen s = s :: f.chainFrom n (s :: seen) q := by
  rw [chainFrom, if_neg (by simpa using hnew)]
  simp only [hq]

theorem chainFrom_eq_singleton (hnew : s ∉ seen) (n : Nat)
    (hnone : (f.scope? s).bind (f.scopeAfter? (s :: seen)) = none) :
    f.chainFrom (n + 1) seen s = [s] := by
  rw [chainFrom, if_neg (by simpa using hnew)]
  simp only [hnone]

/-- **No scope is visible twice**, nor one that has been seen before. -/
theorem nodup_chainFrom (f : ParsedFile) (n : Nat) (seen : List Nat) (s : Nat) :
    (f.chainFrom n seen s).Nodup ∧ ∀ k ∈ f.chainFrom n seen s, k ∉ seen := by
  induction n generalizing seen s with
  | zero => exact ⟨List.nodup_nil, nofun⟩
  | succ n ih =>
    rw [chainFrom]
    split
    · exact ⟨List.nodup_nil, nofun⟩
    next hnew =>
      have hnew : s ∉ seen := by simpa using hnew
      have hrest : ∀ ks : List Nat, ks.Nodup → (∀ k ∈ ks, k ∉ s :: seen) →
          (s :: ks).Nodup ∧ ∀ k ∈ s :: ks, k ∉ seen := by
        intro ks hks hseen
        refine ⟨List.nodup_cons.2 ⟨fun h => hseen s h List.mem_cons_self, hks⟩, ?_⟩
        exact List.forall_mem_cons.2
          ⟨hnew, fun k hk h => hseen k hk (List.mem_cons_of_mem _ h)⟩
      dsimp only
      split
      next q _ => exact hrest _ (ih (s :: seen) q).1 (ih (s :: seen) q).2
      next => exact hrest [] List.nodup_nil nofun

/-- **No scope is visible twice.** -/
theorem nodup_scopeChain (f : ParsedFile) (s : Nat) : (f.scopeChain s).Nodup :=
  (f.nodup_chainFrom _ [] s).1

/-- Only the scope of the file has none around it. -/
theorem eq_zero_of_around?_eq_none (hs : s < f.symbols.scopes.length) (h : f.around? s = none) :
    s = 0 := by
  cases s with
  | zero => rfl
  | succ j =>
    have hscope : f.scope? (j + 1) = some f.symbols.scopes[j + 1] := List.getElem?_eq_getElem hs
    obtain ⟨i, hi, -⟩ := f.isBound.nested.parent j _ hscope
    rw [around?, hscope, Option.bind_some, hi] at h
    cases h

/-- The file is no member of a class. -/
theorem memberBody?_of_around?_eq_none (h : f.around? s = none) : f.memberBody? s = none := by
  by_cases hs : s < f.symbols.scopes.length
  · have hfile : f.scope? 0 = _ := f.isBound.nested.file
    rw [eq_zero_of_around?_eq_none hs h, memberBody?, scopeKind?, hfile, Option.map_some]
  · have hnone : f.scope? s = none := List.getElem?_eq_none (Nat.le_of_not_lt hs)
    rw [memberBody?, scopeKind?, hnone, Option.map_none]

theorem bind_scopeAfter?_of_leadsOut (hout : f.LeadsOut s) (seen : List Nat) :
    (f.scope? s).bind (f.scopeAfter? seen) = f.around? s := by
  rw [bind_scopeAfter?]
  cases hbody : f.memberBody? s with
  | none => rfl
  | some body =>
    rw [hout body hbody, Option.filter_some]
    split <;> rfl

theorem classScopes_of_leadsOut (hout : f.LeadsOut s) : f.classScopes s = [] := by
  cases hbody : f.memberBody? s with
  | none => exact classScopes_of_none hbody
  | some body => rw [classScopes_of_some hbody (hout body hbody), takeWhile_enclosing_self]

/-- Scopes that make no detour are passed through outward. -/
theorem chainFrom_eq_takeWhile_append (hp : p ∈ f.enclosing s) (n : Nat)
    (hout : ∀ k ∈ (f.enclosing s).takeWhile (· != p), f.LeadsOut k)
    (hnew : ∀ k ∈ (f.enclosing s).takeWhile (· != p), k ∉ seen) :
    let between := (f.enclosing s).takeWhile (· != p)
    f.chainFrom (between.length + n) seen s =
      between ++ f.chainFrom n (between.reverse ++ seen) p := by
  intro between
  induction s using Nat.strongRecOn generalizing seen with
  | ind s ih =>
    by_cases hne : s = p
    · subst hne
      simp [between]
    · obtain ⟨q, hq, hpq⟩ := exists_around_of_mem_enclosing hp hne
      let rest := (f.enclosing q).takeWhile (· != p)
      have hbetween : between = s :: rest := takeWhile_enclosing_of_ne hne hq
      rw [takeWhile_enclosing_of_ne hne hq] at hout hnew
      obtain ⟨hself, hout⟩ := List.forall_mem_cons.1 hout
      obtain ⟨hsnew, hnew⟩ := List.forall_mem_cons.1 hnew
      have hrest : ∀ k ∈ rest, k ∉ s :: seen := by
        intro k hk
        have hkq : k ≤ q := le_of_mem_enclosing (List.takeWhile_subset _ hk)
        exact List.not_mem_cons_of_ne_of_not_mem
          (Nat.ne_of_lt (Nat.lt_of_le_of_lt hkq (lt_of_around? hq))) (hnew k hk)
      have hnext := (bind_scopeAfter?_of_leadsOut hself (s :: seen)).trans hq
      calc f.chainFrom (between.length + n) seen s
        _ = f.chainFrom (rest.length + n + 1) seen s := by
          rw [hbetween, List.length_cons, Nat.add_right_comm]
        _ = s :: f.chainFrom (rest.length + n) (s :: seen) q :=
          chainFrom_eq_cons hsnew _ hnext
        _ = s :: (rest ++ f.chainFrom n (rest.reverse ++ s :: seen) p) := by
          rw [ih q (lt_of_around? hq) hpq hout hrest]
        _ = between ++ f.chainFrom n (between.reverse ++ seen) p := by
          rw [hbetween, List.reverse_cons, List.append_assoc, List.singleton_append,
            List.cons_append]

/-- After the scope of a function comes its detour, and then the scope around it. -/
theorem chainFrom_eq_classScopes_append (hwith : f.IsWithClass s) (hp : f.around? s = some p)
    (n : Nat) (hnew : ∀ k ∈ s :: f.classScopes s, k ∉ seen) :
    f.chainFrom ((f.classScopes s).length + n + 1) seen s =
      s :: (f.classScopes s ++ f.chainFrom n ((f.classScopes s).reverse ++ s :: seen) p) := by
  obtain ⟨hsnew, hnew⟩ := List.forall_mem_cons.1 hnew
  by_cases hout : f.LeadsOut s
  · rw [chainFrom_eq_cons hsnew _ ((bind_scopeAfter?_of_leadsOut hout _).trans hp),
      classScopes_of_leadsOut hout]
    simp
  · obtain ⟨body, hbody, hne⟩ : ∃ body, f.memberBody? s = some body ∧ body ≠ p := by
      simpa [LeadsOut, hp, eq_comm] using hout
    obtain ⟨hpbody, hleads⟩ := hwith body hbody p hp
    have hscopes := classScopes_of_some hbody hp
    have hmem : body ∈ f.classScopes s := by
      obtain ⟨q, hq, -⟩ := exists_around_of_mem_enclosing hpbody hne
      rw [hscopes, takeWhile_enclosing_of_ne hne hq]
      exact List.mem_cons_self
    have hnewself : ∀ k ∈ f.classScopes s, k ∉ s :: seen := by
      intro k hk
      refine List.not_mem_cons_of_ne_of_not_mem ?_ (hnew k hk)
      rintro rfl
      exact not_mem_enclosing_of_mem_classScopes hwith hk (f.self_mem_enclosing _)
    have hnext : (f.scope? s).bind (f.scopeAfter? (s :: seen)) = some body := by
      have hbodynew := hnewself body hmem
      rw [bind_scopeAfter?, hbody, Option.filter_some_pos (by simpa using hbodynew)]
      rfl
    rw [chainFrom_eq_cons hsnew _ hnext, hscopes]
    rw [hscopes] at hleads hnewself
    rw [chainFrom_eq_takeWhile_append hpbody n hleads hnewself]

/-- **Which scopes are visible where functions are written with their classes.** -/
theorem chainFrom_eq_visibleFrom (hwith : ∀ i ∈ f.enclosing s, f.IsWithClass i) {n : Nat}
    (hn : (f.visibleFrom s).length ≤ n) (hnew : ∀ k ∈ f.visibleFrom s, k ∉ seen) :
    f.chainFrom n seen s = f.visibleFrom s := by
  induction s using f.outward generalizing n seen with
  | outermost s hs =>
    have hout : f.LeadsOut s := by
      rw [LeadsOut, memberBody?_of_around?_eq_none hs]
      exact nofun
    rw [visibleFrom_of_none hs] at hn hnew ⊢
    obtain ⟨n, rfl⟩ := Nat.exists_eq_add_one.2 hn
    exact chainFrom_eq_singleton (hnew s List.mem_cons_self) n
      ((bind_scopeAfter?_of_leadsOut hout _).trans hs)
  | inner s p hp ih =>
    have hnodup := nodup_visibleFrom hwith
    rw [enclosing_of_some hp] at hwith
    obtain ⟨hself, hwith⟩ := List.forall_mem_cons.1 hwith
    rw [visibleFrom_of_some hp] at hn hnew hnodup ⊢
    rw [List.length_cons, List.length_append] at hn
    rw [← List.cons_append] at hnew hnodup
    obtain ⟨hnewself, hnewrest⟩ := List.forall_mem_append.1 hnew
    obtain ⟨-, -, hapart⟩ := List.nodup_append.1 hnodup
    obtain ⟨m, rfl⟩ : ∃ m, n = (f.classScopes s).length + m + 1 :=
      ⟨n - (f.classScopes s).length - 1, by omega⟩
    have hseen : ∀ k ∈ f.visibleFrom p, k ∉ (f.classScopes s).reverse ++ s :: seen := by
      intro k hk hmem
      rcases List.mem_append.1 hmem with hmem | hmem
      · exact hapart k (List.mem_cons_of_mem _ (List.mem_reverse.1 hmem)) k hk rfl
      · rcases List.mem_cons.1 hmem with rfl | hmem
        · exact hapart k List.mem_cons_self k hk rfl
        · exact hnewrest k hk hmem
    rw [chainFrom_eq_classScopes_append hself hp m hnewself, ih hwith (by omega) hseen]

/-! ### Lookup where functions are written with their classes -/

theorem lt_length_of_memberBody? (h : f.memberBody? s = some body) :
    body < f.symbols.scopes.length := by
  unfold memberBody? at h
  split at h
  next =>
    obtain ⟨c, hc, rfl⟩ := Option.map_eq_some_iff.1 h
    obtain ⟨id, -, hid⟩ := Option.bind_eq_some_iff.1 hc
    obtain ⟨u, hu, -⟩ := (f.isBound.classes id c hid).body
    exact (List.getElem?_eq_some_iff.1 hu).1
  next => cases h

/-- All visible scopes are scopes of the file. -/
theorem lt_length_of_mem_visibleFrom (hs : s < f.symbols.scopes.length)
    (hwith : ∀ i ∈ f.enclosing s, f.IsWithClass i) (hk : k ∈ f.visibleFrom s) :
    k < f.symbols.scopes.length := by
  rcases mem_visibleFrom.1 hk with hk | ⟨i, hi, hk⟩
  · exact Nat.lt_of_le_of_lt (le_of_mem_enclosing hk) hs
  · obtain ⟨body, p, hbody, -, hkbody, -⟩ := mem_classScopes (hwith i hi) hk
    exact Nat.lt_of_le_of_lt (le_of_mem_enclosing hkbody) (lt_length_of_memberBody? hbody)

/-- There are no more visible scopes than the file has. -/
theorem length_visibleFrom_le (hs : s < f.symbols.scopes.length)
    (hwith : ∀ i ∈ f.enclosing s, f.IsWithClass i) :
    (f.visibleFrom s).length ≤ f.symbols.scopes.length := by
  have hsubset : f.visibleFrom s ⊆ List.range f.symbols.scopes.length :=
    fun k hk => List.mem_range.2 (lt_length_of_mem_visibleFrom hs hwith hk)
  have hle := (List.subperm_of_subset (nodup_visibleFrom hwith) hsubset).length_le
  rwa [List.length_range] at hle

/-- The scopes that are visible from a scope of the file. -/
theorem scopeChain_eq_visibleFrom (hs : s < f.symbols.scopes.length)
    (hwith : ∀ i ∈ f.enclosing s, f.IsWithClass i) : f.scopeChain s = f.visibleFrom s :=
  chainFrom_eq_visibleFrom hwith (Nat.le_succ_of_le (length_visibleFrom_le hs hwith))
    fun _ _ => List.not_mem_nil

/-- The scopes around a scope are met on the way, from the inside out. -/
theorem enclosing_sublist_visibleFrom (f : ParsedFile) (s : Nat) :
    (f.enclosing s).Sublist (f.visibleFrom s) := by
  induction s using f.outward with
  | outermost s hs => rw [enclosing_of_none hs, visibleFrom_of_none hs]
  | inner s p hp ih =>
    rw [enclosing_of_some hp, visibleFrom_of_some hp]
    exact (ih.trans (List.sublist_append_right _ _)).cons_cons s

/-- The way ends with the whole file. -/
theorem getLast?_visibleFrom (hs : s < f.symbols.scopes.length) :
    (f.visibleFrom s).getLast? = some 0 := by
  induction s using f.outward with
  | outermost s hnone =>
    rw [visibleFrom_of_none hnone, eq_zero_of_around?_eq_none hs hnone, List.getLast?_singleton]
  | inner s p hp ih =>
    rw [visibleFrom_of_some hp, ← List.cons_append, List.getLast?_append,
      ih (Nat.lt_trans (lt_of_around? hp) hs), Option.some_or]

/-- What is not found is declared in no visible scope. -/
theorem declaredIn_eq_nil_of_lookup_eq_nil {name : String} (h : f.lookup name s = [])
    (hk : k ∈ f.scopeChain s) : f.declaredIn name k = [] := by
  by_contra hne
  have hfind : (((f.scopeChain s).map (f.declaredIn name)).find? (!·.isEmpty)).isSome = true := by
    rw [List.find?_isSome]
    exact ⟨_, List.mem_map_of_mem hk, by simpa using hne⟩
  obtain ⟨found, hfound⟩ := Option.isSome_iff_exists.1 hfind
  have hnotempty := List.find?_some hfound
  rw [lookup, hfound, Option.getD_some] at h
  rw [h] at hnotempty
  cases hnotempty

/-- **Where functions are written with their classes, every scope around is visible.**  No scope is
visible twice, in any file.  If the class of every member function around a scope lies in the scope
that the function is written in, the scopes around are visible in order, the whole file last, and
only detours through classes come between them.  So a name that is not found is declared in none of
them. -/
theorem enclosing_scopes_visible (f : ParsedFile) (s : Nat) (hs : s < f.symbols.scopes.length) :
    (f.scopeChain s).Nodup ∧
      ((∀ i ∈ f.enclosing s, f.IsWithClass i) →
        f.scopeChain s = (f.enclosing s).flatMap (fun i => i :: f.classScopes i) ∧
        (f.scopeChain s).getLast? = some 0 ∧
        (f.enclosing s).Sublist (f.scopeChain s) ∧
        ∀ name, f.lookup name s = [] → ∀ i ∈ f.enclosing s, f.declaredIn name i = []) := by
  refine ⟨f.nodup_scopeChain s, fun hwith => ?_⟩
  have hchain : f.scopeChain s = f.visibleFrom s := scopeChain_eq_visibleFrom hs hwith
  have hsublist : (f.enclosing s).Sublist (f.scopeChain s) :=
    hchain ▸ f.enclosing_sublist_visibleFrom s
  exact ⟨hchain, hchain ▸ getLast?_visibleFrom hs, hsublist,
    fun name h i hi => declaredIn_eq_nil_of_lookup_eq_nil h (hsublist.subset hi)⟩

/-- In a namespace a class and the definition of its member function are read: in the function, the
data member is found on the detour. -/
theorem enclosing_scopes_visible_member :
    ∃ f, ParsedFile.parse "a.cpp" 0
        "namespace N { struct C { int x; void f(); }; void C::f() { x; } }".toList = .ok f ∧
      f.scopeAt 60 = 4 ∧ f.enclosing 4 = [4, 3, 1, 0] ∧ (f.scopeChain 4).Nodup ∧
      f.scopeChain 4 = [4, 3, 2, 1, 0] ∧ (f.scopeChain 4).getLast? = some 0 ∧
      (f.enclosing 4).Sublist (f.scopeChain 4) ∧ f.lookup "x" 4 = [.variableSymbol 0] ∧
      ∀ i ∈ f.enclosing 4, f.declaredIn "y" i = [] := by
  obtain ⟨f, hread, hat, henclosing, hflat, hlength, hwith, hx, hy⟩ :
      ∃ f, ParsedFile.parse "a.cpp" 0
          "namespace N { struct C { int x; void f(); }; void C::f() { x; } }".toList = .ok f ∧
        f.scopeAt 60 = 4 ∧ f.enclosing 4 = [4, 3, 1, 0] ∧
        (f.enclosing 4).flatMap (fun i => i :: f.classScopes i) = [4, 3, 2, 1, 0] ∧
        4 < f.symbols.scopes.length ∧ (∀ i ∈ f.enclosing 4, f.IsWithClass i) ∧
        f.lookup "x" 4 = [.variableSymbol 0] ∧ f.lookup "y" 4 = [] :=
    exists_of_map_decide (by decide +kernel)
  obtain ⟨hnodup, hvisible⟩ := enclosing_scopes_visible f 4 hlength
  obtain ⟨hchain, hlast, hsublist, hlookup⟩ := hvisible hwith
  exact ⟨f, hread, hat, henclosing, hnodup, hchain.trans hflat, hlast, hsublist, hx,
    hlookup "y" hy⟩

/-! ### Lookup where they are not -/

theorem LeadsOut.isWithClass (hout : f.LeadsOut s) : f.IsWithClass s := by
  intro body hbody p hp
  obtain rfl : p = body := Option.some.inj (hp.symm.trans (hout body hbody))
  refine ⟨f.self_mem_enclosing p, ?_⟩
  rw [classScopes_of_leadsOut hout]
  exact nofun

/-- Where no detours are made, the scopes around are visible and no others. -/
theorem visibleFrom_eq_enclosing (hout : ∀ i ∈ f.enclosing s, f.LeadsOut i) :
    f.visibleFrom s = f.enclosing s := by
  induction s using f.outward with
  | outermost s hs => rw [visibleFrom_of_none hs, enclosing_of_none hs]
  | inner s p hp ih =>
    rw [enclosing_of_some hp] at hout
    obtain ⟨hself, hout⟩ := List.forall_mem_cons.1 hout
    rw [visibleFrom_of_some hp, classScopes_of_leadsOut hself, ih hout, enclosing_of_some hp,
      List.nil_append]

/-- **From the scope of a member function that lies outside of its class, the class is visible with
the scopes around it, and nothing else.**  What is around the function is visible only if it is
around the class. -/
theorem scopeChain_of_memberBody? (hbody : f.memberBody? s = some body)
    (hout : ∀ k ∈ f.enclosing body, f.LeadsOut k) (hoff : s ∉ f.enclosing body) :
    f.scopeChain s = s :: f.enclosing body := by
  have hne : body ≠ s := fun h => hoff (h ▸ f.self_mem_enclosing body)
  have hwith : ∀ k ∈ f.enclosing body, f.IsWithClass k := fun k hk => (hout k hk).isWithClass
  have hnext : (f.scope? s).bind (f.scopeAfter? [s]) = some body := by
    rw [bind_scopeAfter?, hbody, Option.filter_some_pos (by simpa using hne)]
    rfl
  have hnew : ∀ k ∈ f.visibleFrom body, k ∉ [s] := by
    rw [visibleFrom_eq_enclosing hout]
    intro k hk hks
    exact hoff (List.mem_singleton.1 hks ▸ hk)
  rw [scopeChain, chainFrom_eq_cons List.not_mem_nil _ hnext, chainFrom_eq_visibleFrom hwith
    (length_visibleFrom_le (lt_length_of_memberBody? hbody) hwith) hnew,
    visibleFrom_eq_enclosing hout]

/-- A namespace that is opened a second time for the definition of a member function: what it
declares there is not visible in the function. -/
theorem exists_enclosing_scope_not_visible :
    ∃ f, ParsedFile.parse "a.cpp" 0
        ("namespace N { struct C { void f(); }; } " ++
          "namespace N { int y; void C::f() { y; } }").toList = .ok f ∧
      f.scopeAt 75 = 5 ∧ 3 ∈ f.enclosing 5 ∧ 3 ∉ f.scopeChain 5 ∧ f.lookup "y" 5 = [] ∧
      f.declaredIn "y" 3 = [.variableSymbol 0] :=
  exists_of_map_decide (by decide +kernel)

end ParsedFile

end Mend
