import Mend.Proofs.ArenaForests

/-!
# Rules for parsers that build

A parser that builds follows one that only reads when the two take the same tokens and fail with the
same errors, and when the nodes that are added are those of the tree that is read.  There is one
rule for each way in which such parsers are put together.

## Main definitions

* `Build.Follows` — a parser that builds follows one that reads, from arenas with a property.
* `Build.Plants`, `Build.PlantsAll`, `Build.PlantsOption` — what is read are the next trees in the
  arena.
* `Build.Grafts` — what is read takes the place of the last tree in the arena.

## Main results

* `Build.Follows.bind` — one parser and then another.
* `Build.Plants.add` — **the node of a tree is added when the trees of its children are there.**
* `Build.PlantsAll.collectWhile`, `Build.Follows.repeatWhile` — loops.
-/

namespace Mend

namespace Build

open Ast PieceTree

variable {α α' β β' : Type}

/-- From an arena with a property, a parser that builds follows one that reads: it fails with the
same error, or it takes the same tokens, answers with `out` of what has been read and leaves an
arena that has another property. -/
def Follows (P : Ast → Prop) (c : Build β) (p : Parse α) (out : α → β) (Q : α → Ast → Prop) :
    Prop :=
  ∀ a s, P a →
    match p.run s with
    | .ok (x, s') => ∃ a', (c.run a).run s = .ok ((out x, a'), s') ∧ Q x a'
    | .error e => (c.run a).run s = .error e

namespace Follows

variable {P P' : Ast → Prop} {c c' : Build β} {p p' : Parse α} {out : α → β} {Q Q' : α → Ast → Prop}

/-- An arena has what is asked for, and it is asked for less afterwards. -/
protected theorem imp (h : Follows P c p out Q) (hP : ∀ a, P' a → P a)
    (hQ : ∀ x a, Q x a → Q' x a) : Follows P' c p out Q' := by
  intro a s ha
  have hrun := h a s (hP a ha)
  cases hr : p.run s with
  | error e =>
    rw [hr] at hrun
    exact hrun
  | ok r =>
    rw [hr] at hrun
    obtain ⟨a', heq, hq⟩ := hrun
    exact ⟨a', heq, hQ _ _ hq⟩

protected theorem pure {x : α} {y : β} (hy : y = out x) (h : ∀ a, P a → Q x a) :
    Follows P (pure y) (pure x) out Q := by
  intro a s ha
  subst hy
  exact ⟨a, rfl, h a ha⟩

protected theorem fail (what : Expectation) :
    Follows P (Parse.fail what : Parse β) (Parse.fail what) out Q :=
  fun _ _ _ => rfl

/-- One parser, and then another that depends on what the first one has read. -/
protected theorem bind {d : β → Build β'} {q : α → Parse α'} {out' : α' → β'}
    {Q' : α' → Ast → Prop} (h : Follows P c p out Q)
    (hd : ∀ x, Follows (Q x) (d (out x)) (q x) out' Q') :
    Follows P (c >>= d) (p >>= q) out' Q' := by
  intro a s ha
  have hrun := h a s ha
  rw [StateT.run_bind]
  cases hr : p.run s with
  | error e =>
    rw [hr] at hrun
    simp only [StateT.run_bind, hrun]
    rfl
  | ok r =>
    rw [hr] at hrun
    obtain ⟨a', heq, hq⟩ := hrun
    simp only [StateT.run_bind, heq]
    exact hd r.1 a' r.2 hq

/-- Nothing is done first. -/
protected theorem pure_bind {γ γ' : Type} {x : γ} {y : γ'} {d : γ' → Build β} {q : γ → Parse α}
    (h : Follows P (d y) (q x) out Q) : Follows P (pure y >>= d) (pure x >>= q) out Q := by
  rwa [pure_bind, pure_bind]

/-- What has been read is told in another way. -/
protected theorem map {f : α → α'} {out' : α' → β} {Q' : α' → Ast → Prop}
    (h : Follows P c p out Q) (hout : ∀ x, out x = out' (f x))
    (hQ : ∀ x a, Q x a → Q' (f x) a) : Follows P c (p >>= fun x => pure (f x)) out' Q' := by
  rw [← bind_pure c]
  exact .bind h fun x => .pure (hout x) (hQ x)

/-- Tokens are taken, and no node is added. -/
theorem read (r : Parse α) : Follows P (r : Build α) r id fun _ => P := by
  intro a s ha
  have hrun : ((r : Build α).run a).run s = (r.run s).map fun x => ((x.1, a), x.2) := by
    show (r >>= fun x => pure (x, a)).run s = _
    rw [StateT.run_bind]
    cases r.run s <;> rfl
  rw [hrun]
  cases r.run s with
  | error e => rfl
  | ok x => exact ⟨a, rfl, ha⟩

theorem read_bind {γ : Type} (r : Parse γ) {d : γ → Build β} {q : γ → Parse α}
    (hd : ∀ x, Follows P (d x) (q x) out Q) : Follows P ((r : Build γ) >>= d) (r >>= q) out Q :=
  .bind (read r) hd

/-- Looking at the tokens. -/
protected theorem look {d : TokenStream → Build β} {q : TokenStream → Parse α}
    (hd : ∀ s, Follows P (d s) (q s) out Q) : Follows P (look >>= d) (get >>= q) out Q :=
  read_bind get hd

protected theorem ite {b : Prop} [Decidable b] (h : Follows P c p out Q)
    (h' : Follows P c' p' out Q) :
    Follows P (if b then c else c') (if b then p else p') out Q := by
  split
  · exact h
  · exact h'

/-- Looking at the first token of a tree that was just read. -/
theorem firstOf_bind {us : List PieceTree} {t : PieceTree} {d : Nat → Build β} {q : Parse α}
    (hd : Follows (Holds (us ++ [t])) (d t.label.first) q out Q) :
    Follows (Holds (us ++ [t])) (firstOf (idAfter us t) >>= d) q out Q := by
  intro a s ha
  have hrun := hd a s ha
  rw [← ha.firstOf_idAfter] at hrun
  exact hrun

/-! ### Loops -/

theorem rounds (out : α → β) (Q : α → Ast → Prop) {more : α → TokenStream → Bool}
    {more' : β → TokenStream → Bool} {step : β → Build β} {step' : α → Parse α}
    (hmore : ∀ x s, more' (out x) s = more x s)
    (h : ∀ x, Follows (Q x) (step (out x)) (step' x) out Q) (n : Nat) (x : α) :
    Follows (Q x) (Build.rounds more' step n (out x)) (Parse.rounds more step' n x) out Q := by
  induction n generalizing x with
  | zero => exact .pure rfl fun _ ha => ha
  | succ n ih =>
    refine .look fun s => ?_
    rw [hmore]
    exact .ite (.bind (h x) ih) (.pure rfl fun _ ha => ha)

theorem repeatWhile (out : α → β) (Q : α → Ast → Prop) {more : α → TokenStream → Bool}
    {more' : β → TokenStream → Bool} {step : β → Build β} {step' : α → Parse α}
    (hmore : ∀ x s, more' (out x) s = more x s)
    (h : ∀ x, Follows (Q x) (step (out x)) (step' x) out Q) (x : α) :
    Follows (Q x) (Build.repeatWhile more' step (out x)) (Parse.repeatWhile more step' x) out Q :=
  .look fun _ => rounds out Q hmore h _ x

end Follows

/-! ### Trees in the arena -/

/-- What is read is the next tree in the arena. -/
def Plants (c : Build NodeId) (p : Parse PieceTree) : Prop :=
  ∀ us, Follows (Holds us) c p (idAfter us) fun t => Holds (us ++ [t])

/-- What is read are the next trees in the arena. -/
def PlantsAll (c : Build (List NodeId)) (p : Parse (List PieceTree)) : Prop :=
  ∀ us, Follows (Holds us) c p (idsAfter us) fun ts => Holds (us ++ ts)

/-- What is read is the next tree in the arena, if there is one. -/
def PlantsOption (c : Build (Option NodeId)) (p : Parse (Option PieceTree)) : Prop :=
  ∀ us, Follows (Holds us) c p (Option.map (idAfter us)) fun o => Holds (us ++ o.toList)

/-- What is read is a tree that takes the place of the last one. -/
def Grafts (c : NodeId → Build NodeId) (p : PieceTree → Parse PieceTree) : Prop :=
  ∀ us t, Follows (Holds (us ++ [t])) (c (idAfter us t)) (p t) (idAfter us)
    fun t => Holds (us ++ [t])

theorem Grafts.repeatWhile {more : TokenStream → Bool} {c : NodeId → Build NodeId}
    {p : PieceTree → Parse PieceTree} (h : Grafts c p) :
    Grafts (Build.repeatWhile (fun _ => more) c) (Parse.repeatWhile (fun _ => more) p) :=
  fun us t => .repeatWhile _ _ (fun _ _ => rfl) (h us) t

/-- **The node of a tree is added when the trees of its children are there**, and has the parameter
list that it was added with. -/
theorem Follows.addDeclarator {us vs cs : List PieceTree} {form : NodeForm} {kind : NodeKind}
    {first : Nat} (hkind : form.kind = kind) (hvs : vs = us ++ cs)
    (hchildren : form.children = idsAfter us cs) :
    Follows (Holds vs) (add form first) (Parse.close kind first cs) (idAfter us)
      fun t a => Holds (us ++ [t]) a ∧ a.functionOf? (idAfter us t) = form.function? := by
  intro a s ha
  subst hvs
  obtain ⟨hid, hholds⟩ := ha.add hkind hchildren first (s.position - 1)
  have hfunction := functionOf?_add a form first (s.position - 1)
  rw [hid] at hfunction
  exact ⟨_, by rw [← hid]; rfl, hholds, hfunction⟩

/-- The node of a tree is added when the trees of its children are there. -/
theorem Follows.add {us vs cs : List PieceTree} {form : NodeForm} {kind : NodeKind} {first : Nat}
    (hkind : form.kind = kind) (hvs : vs = us ++ cs) (hchildren : form.children = idsAfter us cs) :
    Follows (Holds vs) (add form first) (Parse.close kind first cs) (idAfter us)
      fun t => Holds (us ++ [t]) :=
  (addDeclarator hkind hvs hchildren).imp (fun _ ha => ha) fun _ _ h => h.1

/-- Looking at the parameter list of a declarator that was just read. -/
theorem Follows.functionOf?_bind {us : List PieceTree} {id : NodeId} {isFunction : Bool}
    {d : Option NodeId → Build β} {q : Parse α} {out : α → β} {Q : α → Ast → Prop}
    (hd : ∀ f : Option NodeId, f.isSome = isFunction → Follows (Holds us) (d f) q out Q) :
    Follows (fun a => Holds us a ∧ (a.functionOf? id).isSome = isFunction)
      (functionOf? id >>= d) q out Q :=
  fun a s ha => hd _ ha.2 a s ha.1

/-- A node without children. -/
theorem Plants.add {form : NodeForm} {kind : NodeKind} {first : Nat} (hkind : form.kind = kind)
    (hchildren : form.children = []) : Plants (add form first) (Parse.close kind first []) :=
  fun us => .add hkind (List.append_nil us).symm hchildren

namespace PlantsAll

variable {item : Build NodeId} {item' : Parse PieceTree} {more : TokenStream → Bool}

protected theorem nil : PlantsAll (pure []) (pure []) :=
  fun us => .pure rfl fun a ha => by rwa [List.append_nil]

theorem items (h : Plants item item') (n : Nat) :
    PlantsAll (Build.items more item n) (Parse.items more item' n) := by
  induction n with
  | zero => exact .nil
  | succ n ih =>
    refine fun us => .look fun s => .ite (.bind (h us) fun t => ?_) (PlantsAll.nil us)
    exact .bind (ih _) fun ts => .pure rfl fun a ha => by simpa using ha

theorem collectWhile (h : Plants item item') :
    PlantsAll (Build.collectWhile more item) (Parse.collectWhile more item') :=
  fun us => .look fun _ => items h _ us

theorem commaSeparated (h : Plants item item') :
    PlantsAll (Build.commaSeparated item) (Parse.commaSeparated item') := by
  have hrest : Plants (do let _ ← Parse.advance; item) (do let _ ← Parse.advance; item') :=
    fun us => .read_bind _ fun _ => h us
  exact fun us => .bind (h us) fun t => .bind (collectWhile hrest _) fun ts =>
    .pure rfl fun a ha => by simpa using ha

end PlantsAll

end Build

end Mend
