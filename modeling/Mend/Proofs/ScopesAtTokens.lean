import Mathlib.Data.Nat.Find
import Mend.Proofs.ReadingEnds
import Mend.Proofs.VisibleScopes

/-!
# The scope that a token stands in

The scopes that a token lies in are one scope, the deepest, and those around it.  The search at the
start of the token looks for the scope that covers the fewest characters, and for it both ends of a
scope count.  Every scope stops with a token, so a scope that the search meets either has the whole
token in it, or it stopped right where the token starts.  The search finds the deepest scope, unless
one of those that stopped there is shorter.

A name that is looked up from the deepest scope is declared in a scope that its token lies in, or it
is seen on the detour that an out-of-line member function makes through its class.

## Main definitions

* `SourceCode.EndsWithTokens` — every scope stops where a token does.
* `ParsedFile.IsDeepest` — the scopes that a span lies in are one scope and those around it.

## Main results

* `narrowest_spec` — the scope that covers the fewest characters, the last of several.
* `SourceCode.endsWithTokens_symbolTable` — scopes stop with tokens.
* `ParsedFile.touches_tokenStart_iff` — which scopes are met at the start of a token.
* `ParsedFile.exists_isDeepest` — every token has a deepest scope.
* `ParsedFile.mem_chainFrom` — a scope is visible because it is around, or through a detour.
* `ParsedFile.scopeAt_eq_iff` — when the deepest scope is found at the start of a token.
* `ParsedFile.names_stand_in_deepest_scope` — **names are looked up in the scope that they stand
  in**, where no shorter scope stops; `ParsedFile.exists_member_of_closed_class` — a member that is
  seen although its class has ended.
-/

namespace Mend

/-! ### The shortest of some scopes -/

theorem narrowest_eq_none_iff {l : List (Scope × Nat)} : narrowest l = none ↔ l = [] := by
  cases l with
  | nil => exact iff_of_true rfl rfl
  | cons s rest =>
    refine iff_of_false ?_ (List.cons_ne_nil _ _)
    rw [narrowest]
    split
    · exact Option.some_ne_none _
    · split <;> exact Option.some_ne_none _

/-- Of scopes in the order of their numbers, the one that covers the fewest characters is found; of
several, the last one. -/
theorem narrowest_spec {l : List (Scope × Nat)} {x : Scope × Nat}
    (hl : l.Pairwise fun a b => a.2 < b.2) (h : narrowest l = some x) :
    x ∈ l ∧ ∀ y ∈ l, x.1.span.length < y.1.span.length ∨
      x.1.span.length = y.1.span.length ∧ y.2 ≤ x.2 := by
  induction l generalizing x with
  | nil => cases h
  | cons s rest ih =>
    obtain ⟨hs, hrest⟩ := List.pairwise_cons.1 hl
    rw [narrowest] at h
    split at h
    next hnone =>
      obtain rfl : s = x := Option.some.inj h
      obtain rfl : rest = [] := narrowest_eq_none_iff.1 hnone
      refine ⟨List.mem_cons_self, fun y hy => ?_⟩
      obtain rfl := List.mem_singleton.1 hy
      exact .inr ⟨rfl, Nat.le_refl _⟩
    next t ht =>
      obtain ⟨htmem, hmin⟩ := ih hrest ht
      split at h
      next hlt =>
        obtain rfl : s = x := Option.some.inj h
        refine ⟨List.mem_cons_self, List.forall_mem_cons.2 ⟨.inr ⟨rfl, Nat.le_refl _⟩, ?_⟩⟩
        intro y hy
        rcases hmin y hy with hty | ⟨hty, -⟩
        · exact .inl (Nat.lt_trans hlt hty)
        · exact .inl (hty ▸ hlt)
      next hge =>
        obtain rfl : t = x := Option.some.inj h
        refine ⟨List.mem_cons_of_mem _ htmem, List.forall_mem_cons.2 ⟨?_, hmin⟩⟩
        rcases Nat.eq_or_lt_of_le (Nat.le_of_not_lt hge) with heq | hlt
        · exact .inr ⟨heq, Nat.le_of_lt (hs t htmem)⟩
        · exact .inl hlt

/-! ### Tokens have characters -/

theorem Lexeme.Fill.text_ne_nil {o : Nat} {ls : List Lexeme} {t : Text} (h : Fill o ls t) :
    ∀ l ∈ ls, l.text ≠ [] := by
  induction h with
  | nil => nofun
  | cons hnonempty _ ih => exact List.forall_mem_cons.2 ⟨hnonempty, ih⟩

namespace SourceCode

variable {c : SourceCode} {t : SyntaxTree} {table : SymbolTable} {p : Place} {i : Nat}

/-- A token takes up a character at least. -/
theorem tokenStart_lt_tokenStop {t : Text} (h : ofText t = .ok c) (hi : i < c.tokens.size) :
    c.tokenStart i < c.tokenStop i := by
  obtain ⟨L, p, hL, -, rfl⟩ := ofText_eq_ok_iff.1 h
  have hi : i < L.tokens.length := by simpa using hi
  have hget : L.tokens.toArray[i]? = some L.tokens[i] := by simp [hi]
  show tokenStart _ i < tokenStop _ i
  simp only [tokenStart, tokenStop, hget]
  rw [Lexed.ofText] at hL
  split at hL
  next pieces hpieces =>
    cases hL
    obtain ⟨l, hl, htoken⟩ := List.mem_filterMap.1 (List.getElem_mem hi)
    have htext := (Lexeme.fill_of_splitFrom hpieces).text_ne_nil l hl
    have hpos := List.length_pos_of_ne_nil htext
    simp only [Token.start, Token.stop, (Lexeme.span_of_token?_eq_some htoken).1, Lexeme.span]
    omega
  next => cases hL

/-! ### Scopes stop with tokens -/

/-- Every scope stops where a token does.  The end of the text counts as the end of a token that
does not exist. -/
def EndsWithTokens (c : SourceCode) (table : SymbolTable) : Prop :=
  ∀ s ∈ table.scopes, ∃ j, s.span.stop = c.tokenStop j

namespace EndsWithTokens

/-- A scope is opened that stops with a token. -/
theorem openScope (h : c.EndsWithTokens table) {s : Scope} {j : Nat}
    (hs : s.span.stop = c.tokenStop j) : c.EndsWithTokens (table.openScope s).1 :=
  List.forall_mem_append.2 ⟨h, List.forall_mem_singleton.2 ⟨j, hs⟩⟩

theorem congr {table' : SymbolTable} (h : c.EndsWithTokens table)
    (hscopes : table'.scopes = table.scopes) : c.EndsWithTokens table' := by
  rw [EndsWithTokens, hscopes]
  exact h

end EndsWithTokens

/-! Declarations open no scope. -/

theorem scopes_bindVariable (p : Place) (table : SymbolTable) (specifiers : List SyntaxTree)
    (d : SyntaxTree) : (c.bindVariable p table specifiers d).scopes = table.scopes := by
  unfold bindVariable
  split <;> rfl

theorem scopes_bindDeclarator (p : Place) (t : SyntaxTree) (table : SymbolTable) (d : SyntaxTree) :
    (c.bindDeclarator p t table d).scopes = table.scopes := by
  unfold bindDeclarator
  split
  · rfl
  · split
    · rfl
    · split
      · rfl
      · exact scopes_bindVariable p table _ d

theorem scopes_bindForward (p : Place) (t : SyntaxTree) (table : SymbolTable) (key : Nat) :
    (c.bindForward p t table key).scopes = table.scopes := by
  unfold bindForward
  split
  · split <;> rfl
  · rfl

theorem scopes_foldl {f : SymbolTable → SyntaxTree → SymbolTable}
    (hf : ∀ table t, (f table t).scopes = table.scopes) (table : SymbolTable)
    (ts : List SyntaxTree) : (ts.foldl f table).scopes = table.scopes := by
  induction ts generalizing table with
  | nil => rfl
  | cons t ts ih => exact (ih (f table t)).trans (hf table t)

theorem scopes_bindParameters (p : Place) (table : SymbolTable) (list : Option SyntaxTree) :
    (c.bindParameters p table list).scopes = table.scopes := by
  unfold bindParameters
  split
  · rfl
  · refine scopes_foldl (fun table t => ?_) table _
    split
    · exact scopes_bindVariable p table _ _
    · rfl

/-- What the walk through each node of a list keeps, the walk through all of them keeps. -/
theorem endsWithTokens_bindAll {ts : List SyntaxTree}
    (hts : ∀ t ∈ ts, ∀ p table, c.EndsWithTokens table → c.EndsWithTokens (c.bind p table t))
    (h : c.EndsWithTokens table) : c.EndsWithTokens (c.bindAll p table ts) := by
  induction ts generalizing p table with
  | nil => exact h
  | cons t ts ih =>
    obtain ⟨ht, hts⟩ := List.forall_mem_cons.1 hts
    exact ih hts (ht p table h)

/-- The walk through a node opens scopes that stop with tokens. -/
theorem endsWithTokens_bind (c : SourceCode) (t : SyntaxTree) : ∀ p table,
    c.EndsWithTokens table → c.EndsWithTokens (c.bind p table t) := by
  induction t using Rose.induct with
  | h n ts ih =>
    intro p table h
    rw [bind]
    split
    case h_1 | h_2 | h_3 => exact endsWithTokens_bindAll ih h
    case h_4 rbrace _ =>
      apply endsWithTokens_bindAll ih
      exact h.openScope (j := rbrace) rfl
    case h_5 =>
      exact (endsWithTokens_bindAll ih h).congr (scopes_foldl (scopes_bindDeclarator p _) _ _)
    case h_6 key _ => exact h.congr (scopes_bindForward p _ table key)
    case h_7 => split <;> exact h
    case h_8 rbrace _ =>
      split
      · apply endsWithTokens_bindAll ih
        exact (h.openScope (j := rbrace) rfl).congr rfl
      · exact h
    case h_9 =>
      split
      next => exact h
      next d _ =>
        split
        next => exact h
        next name _ =>
          apply endsWithTokens_bindAll ih
          refine EndsWithTokens.congr ?_ (scopes_bindParameters _ _ _)
          exact (h.openScope (j := n.last) rfl).congr rfl
    case h_10 | h_11 | h_12 | h_13 | h_14 =>
      apply endsWithTokens_bindAll ih
      exact h.openScope (j := n.last) rfl
    case h_15 =>
      split
      · exact h
      · exact h.congr (scopes_bindVariable p table _ _)
    case h_16 => exact h

/-- **Scopes stop with tokens.**  The scope of the file stops with the text. -/
theorem endsWithTokens_symbolTable (c : SourceCode) : c.EndsWithTokens c.symbolTable := by
  apply endsWithTokens_bind
  refine List.forall_mem_singleton.2 ⟨c.tokens.size, ?_⟩
  rw [tokenStop, Array.getElem?_eq_none (Nat.le_refl _)]

end SourceCode

/-! ### The scopes that a token lies in -/

/-- A scope does not stop before it starts. -/
theorem Scope.IsNested.start_le_stop {scopes : List Scope} {length k : Nat} {s : Scope}
    (h : IsNested scopes length) (hs : scopes[k]? = some s) : s.span.start ≤ s.span.stop := by
  cases k with
  | zero =>
    obtain rfl := Option.some.inj (h.file.symm.trans hs)
    exact Nat.zero_le _
  | succ k =>
    obtain ⟨i, -, -, u, -, hwithin⟩ := h.parent k s hs
    exact hwithin.2.1

namespace ParsedFile

variable {f : ParsedFile} {i d k o : Nat} {s u : Scope} {span : Span}

/-- A scope is the deepest one around a span: the span lies in it and in the scopes around it, and
in no others. -/
def IsDeepest (f : ParsedFile) (d : Nat) (span : Span) : Prop :=
  ∀ k, Scope.Covers f.symbols.scopes k span ↔ k ∈ f.enclosing d

theorem IsDeepest.covers (h : f.IsDeepest d span) : Scope.Covers f.symbols.scopes d span :=
  (h d).2 (f.self_mem_enclosing d)

/-- A span has one deepest scope. -/
theorem IsDeepest.unique (h : f.IsDeepest d span) (h' : f.IsDeepest k span) : d = k :=
  Nat.le_antisymm (le_of_mem_enclosing ((h' d).1 h.covers))
    (le_of_mem_enclosing ((h k).1 h'.covers))

/-- What lies in a scope lies in those around it. -/
theorem covers_of_mem_enclosing (h : Scope.Covers f.symbols.scopes d span)
    (hk : k ∈ f.enclosing d) : Scope.Covers f.symbols.scopes k span := by
  induction d using f.outward with
  | outermost d hd =>
    rw [enclosing_of_none hd, List.mem_singleton] at hk
    exact hk ▸ h
  | inner d p hp ih =>
    rw [enclosing_of_some hp] at hk
    rcases List.mem_cons.1 hk with rfl | hk
    · exact h
    · refine ih ?_ hk
      obtain ⟨s, hs, hwithin⟩ := h
      obtain ⟨j, rfl⟩ := Nat.exists_eq_add_one.2 (Nat.zero_lt_of_lt (lt_of_around? hp))
      obtain ⟨q, hq, -, hcovers⟩ := f.isBound.nested.parent j s hs
      obtain rfl : q = p := by
        rw [around?, scope?, hs, Option.bind_some, hq] at hp
        exact Option.some.inj hp
      exact hcovers.of_within hwithin

/-- What lies in a scope lies in its span. -/
theorem covers_iff (hs : f.scope? k = some s) :
    Scope.Covers f.symbols.scopes k span ↔ span.Within s.span := by
  constructor
  · rintro ⟨u, hu, hwithin⟩
    obtain rfl : u = s := Option.some.inj (hu.symm.trans hs)
    exact hwithin
  · intro hwithin
    exact ⟨s, hs, hwithin⟩

/-- A scope lies in those around it. -/
theorem within_of_mem_enclosing (hu : f.scope? d = some u) (hk : k ∈ f.enclosing d)
    (hs : f.scope? k = some s) : u.span.Within s.span := by
  have hself : Scope.Covers f.symbols.scopes d u.span :=
    (covers_iff hu).2 ⟨Nat.le_refl _, f.isBound.nested.start_le_stop hu, Nat.le_refl _⟩
  exact (covers_iff hs).1 (covers_of_mem_enclosing hself hk)

/-- Of two scopes that a span with characters lies in, the earlier one is around the later one. -/
theorem mem_enclosing_of_covers (hspan : span.start < span.stop)
    (hk : Scope.Covers f.symbols.scopes k span) (hd : Scope.Covers f.symbols.scopes d span)
    (hle : k ≤ d) : k ∈ f.enclosing d := by
  rcases Nat.eq_or_lt_of_le hle with rfl | hlt
  · exact f.self_mem_enclosing k
  · obtain ⟨s, hs, hks⟩ := hk
    obtain ⟨u, hu, hdu⟩ := hd
    rcases f.isBound.nested.apart k d s u hlt hs hu with haround | hleft
    · exact mem_enclosing.2 haround.to_reflTransGen
    · -- the span would have to stop before it starts
      have hstop : span.stop ≤ span.start :=
        Nat.le_trans hks.2.2 (Nat.le_trans hleft hdu.1)
      exact absurd hspan (Nat.not_lt.2 hstop)

/-- **Every span with characters has a deepest scope.** -/
theorem exists_isDeepest (hspan : span.start < span.stop) (hlength : span.stop ≤ f.text.length) :
    ∃ d, f.IsDeepest d span := by
  classical
  have hfile : Scope.Covers f.symbols.scopes 0 span :=
    ⟨_, f.isBound.nested.file, Nat.zero_le _, Nat.le_of_lt hspan, hlength⟩
  let covers := fun k => Scope.Covers f.symbols.scopes k span
  -- the deepest scope is the last one that the span lies in
  let d := Nat.findGreatest covers f.symbols.scopes.length
  have hd : covers d := Nat.findGreatest_spec (Nat.zero_le _) hfile
  refine ⟨d, fun k => ⟨fun hk => ?_, covers_of_mem_enclosing hd⟩⟩
  obtain ⟨s, hs, -⟩ := id hk
  have hlt : k < f.symbols.scopes.length := (List.getElem?_eq_some_iff.1 hs).1
  exact mem_enclosing_of_covers hspan hk hd (Nat.le_findGreatest (Nat.le_of_lt hlt) hk)

/-! ### The scopes at the start of a token -/

/-- A token takes up a character at least. -/
theorem tokenStart_lt_tokenStop (f : ParsedFile) (hi : i < f.tokens.size) :
    f.tokenStart i < f.tokenStop i :=
  SourceCode.tokenStart_lt_tokenStop f.isReading hi

/-- **The scopes that are met at the start of a token** are those that the token lies in, and those
that stop right there. -/
theorem touches_tokenStart_iff (hi : i < f.tokens.size) (hs : f.scope? k = some s) :
    s.span.Touches (f.tokenStart i) ↔
      (f.tokenSpan i).Within s.span ∨ s.span.stop = f.tokenStart i := by
  have htoken := f.tokenStart_lt_tokenStop hi
  constructor
  · rintro ⟨hstart, hstop⟩
    have hends : f.EndsWithTokens f.symbols := f.symbols_eq ▸ f.endsWithTokens_symbolTable
    obtain ⟨j, hj⟩ := hends s (List.mem_of_getElem? hs)
    rcases Nat.lt_or_ge j i with hlt | hge
    · refine .inr (Nat.le_antisymm ?_ hstop)
      exact hj ▸ f.isOrdered.tokenStop_le_tokenStart hlt
    · refine .inl ⟨hstart, Nat.le_of_lt htoken, ?_⟩
      exact hj ▸ f.isOrdered.tokenStop_mono hge
  · rintro (⟨hstart, -, hstop⟩ | hstop)
    · exact ⟨hstart, Nat.le_trans (Nat.le_of_lt htoken) hstop⟩
    · exact ⟨hstop ▸ f.isBound.nested.start_le_stop hs, Nat.le_of_eq hstop.symm⟩

/-- What is found at an offset: the scope there that covers the fewest characters, the last of
several. -/
theorem scopeAt_spec (f : ParsedFile) (ho : o ≤ f.text.length) :
    ∃ s, f.scope? (f.scopeAt o) = some s ∧ s.span.Touches o ∧
      ∀ k u, f.scope? k = some u → u.span.Touches o →
        s.span.length < u.span.length ∨ s.span.length = u.span.length ∧ k ≤ f.scopeAt o := by
  let here := f.symbols.scopes.zipIdx.filter fun s => decide (s.1.span.Touches o)
  have hmem : ∀ (u : Scope) k, (u, k) ∈ here ↔ f.scope? k = some u ∧ u.span.Touches o := by
    intro u k
    rw [List.mem_filter, List.mem_zipIdx_iff_getElem?, decide_eq_true_iff]
    rfl
  have hsorted : here.Pairwise fun a b => a.2 < b.2 := by
    refine List.Pairwise.filter _ (List.pairwise_iff_getElem.2 fun i j hi hj hij => ?_)
    simpa [List.getElem_zipIdx] using hij
  have hfile : (⟨.fileScope, ⟨0, f.text.length⟩, none⟩, 0) ∈ here :=
    (hmem _ _).2 ⟨f.isBound.nested.file, Nat.zero_le _, ho⟩
  cases hfound : narrowest here with
  | none =>
    rw [narrowest_eq_none_iff.1 hfound] at hfile
    cases hfile
  | some x =>
    obtain ⟨s, k⟩ := x
    obtain ⟨hx, hmin⟩ := narrowest_spec hsorted hfound
    have hat : f.scopeAt o = k := by
      rw [scopeAt, show narrowest _ = some (s, k) from hfound]
    obtain ⟨hs, htouches⟩ := (hmem s k).1 hx
    rw [hat]
    exact ⟨s, hs, htouches, fun j u hu htouches => hmin (u, j) ((hmem u j).2 ⟨hu, htouches⟩)⟩

/-- A scope around another one is as long at least. -/
theorem length_le_of_mem_enclosing (hu : f.scope? d = some u) (hk : k ∈ f.enclosing d)
    (hs : f.scope? k = some s) : u.span.length ≤ s.span.length := by
  obtain ⟨hstart, -, hstop⟩ := within_of_mem_enclosing hu hk hs
  exact Nat.sub_le_sub_right hstop _ |>.trans (Nat.sub_le_sub_left hstart _)

/-- A scope that stops where the token starts comes before the deepest one, or lies in it and is
shorter. -/
theorem lt_or_length_lt (hi : i < f.tokens.size) (hu : f.scope? d = some u)
    (hwithin : (f.tokenSpan i).Within u.span) (hs : f.scope? k = some s)
    (hstop : s.span.stop = f.tokenStart i) : k < d ∨ s.span.length < u.span.length := by
  have htoken := f.tokenStart_lt_tokenStop hi
  have hsle := f.isBound.nested.start_le_stop hs
  have hbehind : s.span.stop < u.span.stop := by
    rw [hstop]
    exact Nat.lt_of_lt_of_le htoken hwithin.2.2
  rcases Nat.lt_trichotomy k d with hlt | rfl | hgt
  · exact .inl hlt
  · -- the scope does not stop before itself
    obtain rfl : s = u := Option.some.inj (hs.symm.trans hu)
    exact absurd hbehind (Nat.lt_irrefl _)
  · right
    rw [Span.length, Span.length]
    rcases f.isBound.nested.apart d k u s hgt hu hs with haround | hleft
    · have hstart : u.span.start ≤ s.span.start :=
        (within_of_mem_enclosing hs (mem_enclosing.2 haround.to_reflTransGen) hu).1
      omega
    · omega

/-- The scope that is found at the start of a token is the shortest there. -/
theorem shortest_at_tokenStart (hi : i < f.tokens.size) (hu : f.scope? d = some u)
    (hwithin : (f.tokenSpan i).Within u.span)
    (hs : f.scope? (f.scopeAt (f.tokenStart i)) = some s) :
    s.span.length < u.span.length ∨
      s.span.length = u.span.length ∧ d ≤ f.scopeAt (f.tokenStart i) := by
  obtain ⟨s', hs', -, hmin⟩ :=
    f.scopeAt_spec (Nat.le_trans (f.isOrdered.tokenSpan i).1 (f.isOrdered.tokenSpan i).2)
  obtain rfl : s' = s := Option.some.inj (hs'.symm.trans hs)
  exact hmin d u hu ((touches_tokenStart_iff hi hu).2 (.inl hwithin))

/-- If the token lies in what is found at its start, then that is the deepest scope. -/
theorem scopeAt_eq_of_covers (hi : i < f.tokens.size) (hd : f.IsDeepest d (f.tokenSpan i))
    (h : Scope.Covers f.symbols.scopes (f.scopeAt (f.tokenStart i)) (f.tokenSpan i)) :
    f.scopeAt (f.tokenStart i) = d := by
  obtain ⟨s, hs, -⟩ := id h
  obtain ⟨u, hu, hwithin⟩ := hd.covers
  have hmem : f.scopeAt (f.tokenStart i) ∈ f.enclosing d := (hd _).1 h
  have hlength := length_le_of_mem_enclosing hu hmem hs
  have hshortest := shortest_at_tokenStart hi hu hwithin hs
  exact Nat.le_antisymm (le_of_mem_enclosing hmem) (by omega)

/-- What is found at the start of a token is the deepest scope, or it stops right there. -/
theorem scopeAt_eq_or_stop_eq (hi : i < f.tokens.size) (hd : f.IsDeepest d (f.tokenSpan i)) :
    f.scopeAt (f.tokenStart i) = d ∨
      ∃ s, f.scope? (f.scopeAt (f.tokenStart i)) = some s ∧ s.span.stop = f.tokenStart i := by
  obtain ⟨s, hs, htouches, -⟩ :=
    f.scopeAt_spec (Nat.le_trans (f.isOrdered.tokenSpan i).1 (f.isOrdered.tokenSpan i).2)
  rcases (touches_tokenStart_iff hi hs).1 htouches with hwithin | hstop
  · exact .inl (scopeAt_eq_of_covers hi hd ⟨s, hs, hwithin⟩)
  · exact .inr ⟨s, hs, hstop⟩

/-- **The deepest scope is found at the start of a token, unless a scope that stops right there is
shorter.** -/
theorem scopeAt_eq_iff (hi : i < f.tokens.size) (hd : f.IsDeepest d (f.tokenSpan i))
    (hu : f.scope? d = some u) :
    f.scopeAt (f.tokenStart i) = d ↔
      ∀ s ∈ f.symbols.scopes, s.span.stop = f.tokenStart i → u.span.length ≤ s.span.length := by
  obtain ⟨s, hs, -, hmin⟩ :=
    f.scopeAt_spec (Nat.le_trans (f.isOrdered.tokenSpan i).1 (f.isOrdered.tokenSpan i).2)
  constructor
  · intro hat v hv hstop
    obtain ⟨k, hk⟩ := List.mem_iff_getElem?.1 hv
    obtain rfl : s = u := Option.some.inj (hs.symm.trans (hat ▸ hu))
    rcases hmin k v hk ((touches_tokenStart_iff hi hk).2 (.inr hstop)) with hlt | ⟨heq, -⟩
    · exact Nat.le_of_lt hlt
    · exact Nat.le_of_eq heq
  · intro hshorter
    rcases scopeAt_eq_or_stop_eq hi hd with hat | ⟨s', hs', hstop⟩
    · exact hat
    · -- a scope that stops there would come first only if it were shorter
      obtain rfl : s' = s := Option.some.inj (hs'.symm.trans hs)
      have hlength := hshorter s' (List.mem_of_getElem? hs) hstop
      have hwithin : (f.tokenSpan i).Within u.span := (covers_iff hu).1 hd.covers
      have hshortest := shortest_at_tokenStart hi hu hwithin hs
      have hbefore := lt_or_length_lt hi hu hwithin hs hstop
      omega

/-- A block and a name without a blank between: the block is shorter than the one around both, and
it is found although it is closed. -/
example :
    ∃ f, ParsedFile.parse "a.cpp" 0 "void f() \x7b \x7b int x; \x7dx = 1; \x7d".toList = .ok f ∧
      f.tokenSpan 10 = ⟨21, 22⟩ ∧ f.scopeAt 21 = 3 ∧
      (f.scope? 3).map Scope.span = some ⟨11, 21⟩ ∧ f.lookup "x" 3 = [.variableSymbol 0] :=
  exists_of_map_decide (by decide +kernel)

/-! ### Names -/

/-- What comes after a scope is right around it, or the scope makes a detour. -/
theorem around?_or_memberBody? {s q : Nat} {seen : List Nat}
    (h : (f.scope? s).bind (f.scopeAfter? seen) = some q) :
    f.around? s = some q ∨ f.memberBody? s = some q ∧ ¬f.LeadsOut s := by
  by_cases hout : f.LeadsOut s
  · exact .inl ((bind_scopeAfter?_of_leadsOut hout seen).symm.trans h)
  · rw [bind_scopeAfter?] at h
    cases hbody : (f.memberBody? s).filter (!seen.contains ·) with
    | none =>
      rw [hbody] at h
      exact .inl h
    | some body =>
      rw [hbody] at h
      obtain rfl : body = q := Option.some.inj h
      exact .inr ⟨(Option.filter_eq_some_iff.1 hbody).1, hout⟩

/-- A scope is visible because it stands around, or because the class of an out-of-line member
function is passed on the way. -/
theorem mem_chainFrom {n : Nat} {seen : List Nat} {s : Nat} (h : k ∈ f.chainFrom n seen s) :
    k ∈ f.enclosing s ∨ ∃ g ∈ f.chainFrom n seen s, ∃ body,
      f.memberBody? g = some body ∧ ¬f.LeadsOut g ∧ k ∈ f.enclosing body := by
  induction n generalizing seen s with
  | zero => cases h
  | succ n ih =>
    rw [chainFrom] at h ⊢
    split at h
    case isTrue => cases h
    case isFalse hnew =>
      rw [if_neg hnew]
      dsimp only at h ⊢
      rcases List.mem_cons.1 h with rfl | h
      · exact .inl (f.self_mem_enclosing k)
      split at h
      case h_2 => cases h
      case h_1 q hq =>
        rcases ih h with hk | ⟨g, hg, hdetour⟩
        case inr => exact .inr ⟨g, List.mem_cons_of_mem _ hg, hdetour⟩
        case inl =>
          rcases around?_or_memberBody? hq with haround | ⟨hbody, hout⟩
          · exact .inl (enclosing_of_some haround ▸ List.mem_cons_of_mem _ hk)
          · exact .inr ⟨s, List.mem_cons_self, q, hbody, hout, hk⟩

/-- What a name stands for is declared in a visible scope. -/
theorem exists_of_mem_lookup {name : String} {sym : Symbol} {s : Nat}
    (h : sym ∈ f.lookup name s) : ∃ k ∈ f.scopeChain s, sym ∈ f.declaredIn name k := by
  unfold lookup at h
  cases hfind : ((f.scopeChain s).map (f.declaredIn name)).find? (!·.isEmpty) with
  | none =>
    rw [hfind] at h
    cases h
  | some found =>
    rw [hfind, Option.getD_some] at h
    obtain ⟨k, hk, rfl⟩ := List.mem_map.1 (List.mem_of_find?_eq_some hfind)
    exact ⟨k, hk, h⟩

/-- **Names are looked up in the scope that they stand in.**  Every token has a deepest scope: it
lies in this one and in those around it, and in no others.  Where no shorter scope stops right at
the start of the token, the deepest scope is found there.  Then whatever a name stands for is
declared in a scope that the token lies in, or on the detour that an out-of-line member function
makes through its class. -/
theorem names_stand_in_deepest_scope (f : ParsedFile) (i : Nat) (hi : i < f.tokens.size) :
    ∃ d u, f.IsDeepest d (f.tokenSpan i) ∧ f.scope? d = some u ∧
      ((∀ s ∈ f.symbols.scopes, s.span.stop = f.tokenStart i → u.span.length ≤ s.span.length) →
        f.scopeAt (f.tokenStart i) = d ∧
        ∀ name, ∀ sym ∈ f.lookup name (f.scopeAt (f.tokenStart i)),
          ∃ k, sym ∈ f.declaredIn name k ∧
            (Scope.Covers f.symbols.scopes k (f.tokenSpan i) ∨
              ∃ g ∈ f.scopeChain d, ∃ body,
                f.memberBody? g = some body ∧ ¬f.LeadsOut g ∧ k ∈ f.enclosing body)) := by
  obtain ⟨hstart, hstop⟩ := f.isOrdered.tokenSpan i
  obtain ⟨d, hd⟩ : ∃ d, f.IsDeepest d (f.tokenSpan i) :=
    exists_isDeepest (f.tokenStart_lt_tokenStop hi) hstop
  obtain ⟨u, hu, -⟩ := hd.covers
  refine ⟨d, u, hd, hu, fun hshorter => ?_⟩
  have hat : f.scopeAt (f.tokenStart i) = d := (scopeAt_eq_iff hi hd hu).2 hshorter
  refine ⟨hat, fun name sym hsym => ?_⟩
  rw [hat] at hsym
  obtain ⟨k, hk, hdeclared⟩ := exists_of_mem_lookup hsym
  exact ⟨k, hdeclared, (mem_chainFrom hk).imp_left (hd k).2⟩

/-- A block, a blank and a name: the name stands in the block around both, and what the closed block
declares is not found. -/
theorem names_stand_in_deepest_scope_behind_blank :
    ∃ f, ParsedFile.parse "a.cpp" 0 "void f() \x7b \x7b int x; \x7d x = 1; \x7d".toList = .ok f ∧
      f.tokenStart 10 = 22 ∧ f.scopeAt 22 = 2 ∧ f.IsDeepest 2 (f.tokenSpan 10) ∧
      f.lookup "x" 2 = [] := by
  obtain ⟨f, hread, hsize, hstart, hat, hnone, hlookup⟩ :
      ∃ f, ParsedFile.parse "a.cpp" 0
          "void f() \x7b \x7b int x; \x7d x = 1; \x7d".toList = .ok f ∧
        10 < f.tokens.size ∧ f.tokenStart 10 = 22 ∧ f.scopeAt 22 = 2 ∧
        (∀ s ∈ f.symbols.scopes, s.span.stop ≠ 22) ∧ f.lookup "x" 2 = [] :=
    exists_of_map_decide (by decide +kernel)
  obtain ⟨d, u, hd, -, hfound⟩ := names_stand_in_deepest_scope f 10 hsize
  rw [hstart] at hfound
  obtain rfl : 2 = d := hat.symm.trans (hfound fun s hs hstop => absurd hstop (hnone s hs)).1
  exact ⟨f, hread, hstart, hat, hd, hlookup⟩

/-- The members of a class are seen in a member function that is written out of line, after the
class has ended. -/
theorem exists_member_of_closed_class :
    ∃ f, ParsedFile.parse "a.cpp" 0
        "struct C \x7b int a; \x7d; void C::f() \x7b a = 1; \x7d".toList = .ok f ∧
      f.tokenSpan 15 = ⟨35, 36⟩ ∧ f.spelling 15 = "a" ∧ f.scopeAt 35 = 3 ∧
      (f.scope? 1).map Scope.span = some ⟨9, 19⟩ ∧ f.declaredIn "a" 1 = [.variableSymbol 0] ∧
      f.lookup "a" (f.scopeAt 35) = [.variableSymbol 0] :=
  exists_of_map_decide (by decide +kernel)

end ParsedFile

end Mend
