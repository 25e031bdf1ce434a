import Mend.Fix.Rename
import Mend.Proofs.LiteralFixes
import Mend.Proofs.ReachedNodes
import Mend.Proofs.VisibleScopes
import Mend.Proofs.ScopesAtTokens

/-!
# What a new name reaches

A name is written anew wherever it stands for the same symbol, as far as it is looked up.  Behind a
point or an arrow it is not looked up: there it is written anew when the symbol is a member of some
class.  So the right members are never missed, but members of other classes with the same name are
taken for it.  That goes well just if the symbol is a member of no other class than that of the
object.

## Main definitions

* `Symbol.mayBeMember` — variables and functions.
* `ParsedFile.accessedClass?`, `ParsedFile.AccessesClass` — the class in which a name behind a point
  or an arrow stands for a member.

## Main results

* `ParsedFile.isMember_iff` — members are declared in the body of a class.
* `ParsedFile.exists_mem_declaredIn` — a name stands for something that is declared under it.
* `ParsedFile.renamed_iff_of_accessesClass` — when an access is renamed rightly.
* `Query.renames_same_symbol` — **what a new name reaches.**
-/

namespace Mend

/-- A position in a list has the property of the item there. -/
theorem mem_positionsWhere {α : Type} {p : α → Bool} {l : List α} {n : Nat} :
    n ∈ positionsWhere p l ↔ ∃ a, l[n]? = some a ∧ p a = true := by
  simp only [positionsWhere, List.mem_map, List.mem_filter, Prod.exists,
    List.mem_zipIdx_iff_getElem?, exists_eq_right]

/-- A variable or a function. -/
def Symbol.mayBeMember : Symbol → Bool
  | .variableSymbol _ | .functionSymbol _ => true
  | _ => false

namespace ParsedFile

variable {f : ParsedFile} {s : Symbol} {name : String} {i j n n' id : Nat} {k : ClassSymbol}

/-! ### Declarations -/

/-- A variable is declared in its scope, under its name. -/
theorem variableSymbol_mem_declaredIn : .variableSymbol id ∈ f.declaredIn name n ↔
    ∃ v, f.symbols.objects[id]? = some v ∧ v.scope = n ∧ v.name = name := by
  simp [declaredIn, declaredInEnum, mem_positionsWhere]

/-- A function is declared in its scope, under its name, unless that has qualifiers. -/
theorem functionSymbol_mem_declaredIn : .functionSymbol id ∈ f.declaredIn name n ↔
    ∃ g, f.function? id = some g ∧ g.scope = n ∧ g.qualifiers = [] ∧ g.name = name := by
  simp [declaredIn, declaredInEnum, mem_positionsWhere, function?, and_assoc]

/-- What may be a member is declared in one scope only. -/
theorem eq_of_mem_declaredIn (hs : s.mayBeMember = true) (h : s ∈ f.declaredIn name n)
    (h' : s ∈ f.declaredIn name n') : n = n' := by
  cases s with
  | variableSymbol id =>
    obtain ⟨v, hv, rfl, -⟩ := variableSymbol_mem_declaredIn.1 h
    obtain ⟨v', hv', rfl, -⟩ := variableSymbol_mem_declaredIn.1 h'
    exact congrArg VariableSymbol.scope (Option.some.inj (hv.symm.trans hv'))
  | functionSymbol id =>
    obtain ⟨g, hg, rfl, -⟩ := functionSymbol_mem_declaredIn.1 h
    obtain ⟨g', hg', rfl, -⟩ := functionSymbol_mem_declaredIn.1 h'
    exact congrArg FunctionSymbol.scope (Option.some.inj (hg.symm.trans hg'))
  | classSymbol | enumSymbol | enumerator | forwardClass => cases hs

/-- The scopes of classes are their bodies. -/
theorem isClassScope_iff : (∃ id, f.scopeKind? n = some (.classScope id)) ↔
    ∃ k ∈ f.symbols.classes, k.bodyScope = n := by
  constructor
  · rintro ⟨id, hkind⟩
    obtain ⟨u, hu, hkind⟩ := Option.map_eq_some_iff.1 hkind
    have hcollected := f.symbols_eq ▸ f.collected_symbolTable
    obtain ⟨k, hk, hbody⟩ := hcollected.bodies n id u hu hkind
    exact ⟨k, List.mem_of_getElem? hk, hbody⟩
  · rintro ⟨k, hk, rfl⟩
    obtain ⟨id, hid, rfl⟩ := List.mem_iff_getElem.1 hk
    obtain ⟨u, hu, hkind⟩ := (f.isBound.classes id _ (List.getElem?_eq_getElem hid)).body
    exact ⟨id, Option.map_eq_some_iff.2 ⟨u, hu, hkind⟩⟩

/-- **Members are declared in the body of a class.** -/
theorem isMember_iff (h : s ∈ f.declaredIn name n) : f.isMember s = true ↔
    s.mayBeMember = true ∧ ∃ k ∈ f.symbols.classes, k.bodyScope = n := by
  rw [← isClassScope_iff]
  cases s with
  | variableSymbol id =>
    obtain ⟨v, hv, rfl, -⟩ := variableSymbol_mem_declaredIn.1 h
    unfold isMember
    simp only [hv, Option.map_some, Option.bind_some, Symbol.mayBeMember, true_and]
    split <;> simp_all
  | functionSymbol id =>
    obtain ⟨g, hg, rfl, -⟩ := functionSymbol_mem_declaredIn.1 h
    unfold isMember
    simp only [hg, Option.map_some, Option.bind_some, Symbol.mayBeMember, true_and]
    split <;> simp_all
  | classSymbol | enumSymbol | enumerator | forwardClass =>
    constructor
    · intro hmember
      cases hmember
    · rintro ⟨hmember, -⟩
      cases hmember

/-! ### Names -/

/-- A variable or a function that a name stands for is declared under its last word. -/
theorem exists_mem_declaredIn_of_mem_lookupQualified {words : List String}
    (hs : s.mayBeMember = true) (h : s ∈ f.lookupQualified (words ++ [name]) n) :
    ∃ n', s ∈ f.declaredIn name n' := by
  unfold lookupQualified at h
  split at h
  next => cases h
  next last hlast =>
    obtain rfl : name = last := by simpa using congrArg List.getLast? hlast
    obtain ⟨n', -, hn'⟩ := exists_of_mem_lookup h
    exact ⟨n', hn'⟩
  next =>
    dsimp only at h
    rw [List.append_assoc, List.mem_append, List.mem_append] at h
    rcases h with h | h | h
    · -- enumerations and enumerators are found by their full names, and they are no members
      obtain ⟨e, -, h⟩ := List.mem_flatMap.1 h
      rcases List.mem_append.1 h with h | h
      · split at h
        · obtain rfl := List.mem_singleton.1 h
          cases hs
        · cases h
      · obtain ⟨index, -, rfl⟩ := List.mem_map.1 h
        cases hs
    · obtain ⟨id, -, rfl⟩ := List.mem_map.1 h
      cases hs
    · rw [List.getLast?_concat] at h
      split at h
      next id last _ hlast =>
        obtain rfl := Option.some.inj hlast
        split at h
        next k _ => exact ⟨k.bodyScope, h⟩
        next => cases h
      next => cases h

/-- **A name stands for something that is declared under it**, if that may be a member. -/
theorem exists_mem_declaredIn (hs : s.mayBeMember = true) (h : f.symbolOfToken? i = some s) :
    ∃ n, s ∈ f.declaredIn (f.spelling i) n :=
  exists_mem_declaredIn_of_mem_lookupQualified hs (List.mem_of_head? h)

/-! ### Accesses -/

/-- The class that the type of an object names: behind an arrow the type that it points to. -/
def classOfObject? (f : ParsedFile) (object : Option SpelledType) (access scope : Nat) :
    Option ClassSymbol :=
  let named (type : SpelledType) : Option SpelledType :=
    if f.isKind access .arrow then type.plain.pointee? else some type
  ((object.bind named).bind fun type => f.classOfType? type.plain scope).bind f.class?

/-- It is this class in which the types of an access are looked up. -/
theorem accessed?_eq (object : Option SpelledType) (access : Nat) (member : SyntaxTree)
    (scope : Nat) : f.accessed? object access member scope =
      (f.classOfObject? object access scope).bind fun k => (f.lastWord? member).map (k, ·) := by
  -- the name of the member is looked at before the class is
  have hswap (k : Option ClassSymbol) : ((f.lastWord? member).bind fun name => k.bind fun k =>
      some (k, name)) = k.bind fun k => (f.lastWord? member).map (k, ·) := by
    cases k <;> cases f.lastWord? member <;> rfl
  unfold accessed? classOfObject?
  cases f.isKind access .arrow with
  | false =>
    simp only [Bool.false_eq_true, if_false, Option.bind_eq_bind, Option.pure_def,
      Option.bind_some, Option.bind_assoc, hswap]
  | true =>
    simp only [if_true, Option.bind_eq_bind, Option.pure_def, Option.bind_some, Option.bind_assoc,
      hswap]

/-- The place of the name behind a point or an arrow, and the class of the object. -/
def accessedClass? (f : ParsedFile) (t : SyntaxTree) : Option (Nat × ClassSymbol) :=
  match t.label.kind, t.children with
  | .memberAccess access, object :: _ =>
    (f.classOfObject? (f.typeOf? object) access (f.scopeAt (f.startOf t))).map (access + 1, ·)
  | _, _ => none

/-- A token stands behind a point or an arrow, and the type of the object names a class. -/
def AccessesClass (f : ParsedFile) (j : Nat) (k : ClassSymbol) : Prop :=
  f.isAccessed j = true ∧ ∃ t ∈ f.nodes, f.accessedClass? t = some (j, k)

/-- The class is one of the file. -/
theorem AccessesClass.mem_classes (h : f.AccessesClass j k) : k ∈ f.symbols.classes := by
  obtain ⟨-, t, -, ht⟩ := h
  unfold accessedClass? at ht
  split at ht
  next =>
    obtain ⟨k', hk', heq⟩ := Option.map_eq_some_iff.1 ht
    cases heq
    obtain ⟨id, -, hclass⟩ := Option.bind_eq_some_iff.1 hk'
    exact List.mem_of_getElem? hclass
  next => cases ht

/-- A token is the same name as another one, which stands for a symbol. -/
theorem mem_usesOf (h : f.symbolOfToken? i = some s) (hkind : f.isKind j .identifier = true)
    (hname : f.spelling j = f.spelling i) : j ∈ f.usesOf i ↔
      if f.isAccessed j then f.isMember s = true else f.symbolOfToken? j = some s := by
  have hsize : j < f.tokens.size := by
    by_contra hge
    have hnone : f.tokens[j]? = none := Array.getElem?_eq_none (Nat.le_of_not_lt hge)
    rw [SourceCode.isKind, SourceCode.kindOf?, hnone] at hkind
    cases hkind
  rw [usesOf, List.mem_filter, List.mem_range, h, hkind, hname]
  cases f.isAccessed j <;> simp [hsize]

/-- A name behind a point or an arrow is renamed when the symbol is a member of any class. -/
theorem mem_usesOf_of_isAccessed (h : f.symbolOfToken? i = some s)
    (hkind : f.isKind j .identifier = true) (hname : f.spelling j = f.spelling i)
    (hj : f.isAccessed j = true) : j ∈ f.usesOf i ↔
      s.mayBeMember = true ∧ ∃ k ∈ f.symbols.classes, s ∈ f.declaredIn (f.spelling i) k.bodyScope := by
  rw [mem_usesOf h hkind hname, if_pos hj]
  constructor
  · intro hmember
    have hs : s.mayBeMember = true := by
      cases s with
      | variableSymbol | functionSymbol => rfl
      | classSymbol | enumSymbol | enumerator | forwardClass => cases hmember
    obtain ⟨n, hn⟩ := exists_mem_declaredIn hs h
    obtain ⟨-, k, hk, rfl⟩ := (isMember_iff hn).1 hmember
    exact ⟨hs, k, hk, hn⟩
  · rintro ⟨hs, k, hk, hn⟩
    exact (isMember_iff hn).2 ⟨hs, k, hk, rfl⟩

/-- **An access is renamed rightly just if the symbol is a member of no other class** than that of
the object. -/
theorem renamed_iff_of_accessesClass (h : f.symbolOfToken? i = some s) (hs : s.mayBeMember = true)
    (hkind : f.isKind j .identifier = true) (hname : f.spelling j = f.spelling i)
    (hk : f.AccessesClass j k) :
    (j ∈ f.usesOf i ↔ s ∈ f.declaredIn (f.spelling i) k.bodyScope) ↔
      ∀ k' ∈ f.symbols.classes, s ∈ f.declaredIn (f.spelling i) k'.bodyScope →
        k'.bodyScope = k.bodyScope := by
  have hrenamed := mem_usesOf_of_isAccessed h hkind hname hk.1
  constructor
  · intro hrightly k' hk' hs'
    have huse : j ∈ f.usesOf i := hrenamed.2 ⟨hs, k', hk', hs'⟩
    exact eq_of_mem_declaredIn hs hs' (hrightly.1 huse)
  · intro hother
    constructor
    · intro huse
      obtain ⟨-, k', hk', hs'⟩ := hrenamed.1 huse
      rwa [hother k' hk' hs'] at hs'
    · intro hmember
      exact hrenamed.2 ⟨hs, k, hk.mem_classes, hmember⟩

/-- What the tokens are like that get the new name of a token, which stands for a symbol. -/
structure RenamesSymbol (f : ParsedFile) (i : Nat) (s : Symbol) (uses : List Nat) : Prop where
  /-- They come one after the other. -/
  pairwise : uses.Pairwise (· < ·)
  /-- They are names with the same spelling. -/
  sameName : ∀ j ∈ uses, f.isKind j .identifier = true ∧ f.spelling j = f.spelling i
  /-- A name that is looked up is among them just if it stands for the symbol. -/
  lookedUp : ∀ j, f.isKind j .identifier = true → f.spelling j = f.spelling i →
    f.isAccessed j = false → (j ∈ uses ↔ f.symbolOfToken? j = some s)
  /-- A name behind a point or an arrow is among them just if the symbol is a variable or a function
  that the body of some class declares. -/
  accessed : ∀ j, f.isKind j .identifier = true → f.spelling j = f.spelling i →
    f.isAccessed j = true → (j ∈ uses ↔ s.mayBeMember = true ∧
      ∃ k ∈ f.symbols.classes, s ∈ f.declaredIn (f.spelling i) k.bodyScope)
  /-- When the object has a type that names a class, it is among them rightly just if no other class
  declares the symbol. -/
  accessedRightly : ∀ j k, f.isKind j .identifier = true → f.spelling j = f.spelling i →
    f.AccessesClass j k → s.mayBeMember = true →
      ((j ∈ uses ↔ s ∈ f.declaredIn (f.spelling i) k.bodyScope) ↔
        ∀ k' ∈ f.symbols.classes, s ∈ f.declaredIn (f.spelling i) k'.bodyScope →
          k'.bodyScope = k.bodyScope)

end ParsedFile

/-- **What a new name reaches.**  A name in camel case replaces the tokens that stand for the same
symbol, as far as they are looked up, and those behind a point or an arrow when the symbol is a
member.  The latter are taken for the member of the class that the object names; this is right just
if the symbol is a member of no other class. -/
theorem Query.renames_same_symbol {q : Query} {x : Proposal} (hx : x ∈ q.renameToCamelCase) :
    ∃ i uses, q.innermost?.bind nameToken? = some i ∧
      x.patch = Patch.ofChanges q.file.path (uses.map fun j =>
        .replace (q.file.tokenSpan j) (CamelCase.ofName (q.file.spelling i).toList)) [] ∧
      ∀ s, q.file.symbolOfToken? i = some s → q.file.RenamesSymbol i s uses := by
  unfold renameToCamelCase at hx
  split at hx
  next => cases hx
  next i hi =>
    dsimp only at hx
    split at hx
    next =>
      obtain rfl := List.mem_singleton.1 hx
      refine ⟨i, q.file.usesOf i, hi, rfl, ?_⟩
      intro s hs
      exact
        { pairwise := pairwise_usesOf q.file i
          sameName := fun j hj => by
            have hj := (List.mem_filter.1 hj).2
            simp only [Bool.and_eq_true, beq_iff_eq] at hj
            exact hj.1
          lookedUp := fun j hkind hname hj => by
            rw [ParsedFile.mem_usesOf hs hkind hname, hj]
            rfl
          accessed := fun j hkind hname hj =>
            ParsedFile.mem_usesOf_of_isAccessed hs hkind hname hj
          accessedRightly := fun j k hkind hname hk hmember =>
            ParsedFile.renamed_iff_of_accessesClass hs hmember hkind hname hk }
    next => cases hx

/-- A member, used in a function of its class and behind an arrow, beside a variable of the same
name.  The member gets a new name in all three places, and the variable keeps its own. -/
theorem Query.renames_same_symbol_beside_variable :
    let t := "struct A \x7b int foo_bar; int g() \x7b return foo_bar; \x7d \x7d; void f(A *a) " ++
      "\x7b int foo_bar = 1; a->foo_bar = foo_bar; \x7d"
    ∃ f, ParsedFile.parse "a.cpp" 0 t.toList = .ok f ∧
      let q : Query := ⟨.add .empty f, f, {}, 15, none⟩
      ∃ x ∈ q.renameToCamelCase, ∃ uses, x.patch = Patch.ofChanges f.path
          (uses.map fun j => .replace (f.tokenSpan j) (CamelCase.ofName (f.spelling 4).toList)) [] ∧
        f.RenamesSymbol 4 (.variableSymbol 0) uses ∧
        4 ∈ uses ∧ 12 ∈ uses ∧ 32 ∈ uses ∧ 26 ∉ uses ∧ 34 ∉ uses := by
  intro t
  have hread : ∃ f, ParsedFile.parse "a.cpp" 0 t.toList = .ok f ∧
      (⟨.add .empty f, f, {}, 15, none⟩ : Query).innermost?.bind nameToken? = some 4 ∧
      (⟨.add .empty f, f, {}, 15, none⟩ : Query).renameToCamelCase.length = 1 ∧
      (∀ j ∈ [4, 12, 26, 32, 34], f.isKind j .identifier = true ∧ f.spelling j = f.spelling 4) ∧
      (∀ j ∈ [4, 12, 26, 34], f.isAccessed j = false ∧
        (f.symbolOfToken? j = some (.variableSymbol 0) ↔ j ≤ 12)) ∧
      f.isAccessed 32 = true ∧ ∃ k ∈ f.symbols.classes,
        Symbol.variableSymbol 0 ∈ f.declaredIn (f.spelling 4) k.bodyScope :=
    exists_of_map_decide (by decide +kernel)
  obtain ⟨f, hf, hfour, hoffered, hnames, hsymbols, haccessed, hmember⟩ := hread
  refine ⟨f, hf, ?_⟩
  intro q
  obtain ⟨x, hx⟩ := List.exists_mem_of_length_pos (hoffered ▸ Nat.one_pos)
  obtain ⟨i, uses, hi, hpatch, hrenames⟩ := renames_same_symbol hx
  obtain rfl : 4 = i := Option.some.inj (hfour.symm.trans hi)
  have hreaches := hrenames _ ((hsymbols 4 (by decide)).2.2 (by decide))
  -- a name that is looked up gets the new name just if it stands before the second function
  have huse : ∀ j ∈ [4, 12, 26, 34], (j ∈ uses ↔ j ≤ 12) := by
    intro j hj
    have hmem : j ∈ [4, 12, 26, 32, 34] := List.Sublist.subset (by decide) hj
    obtain ⟨hkind, hname⟩ := hnames j hmem
    rw [hreaches.lookedUp j hkind hname (hsymbols j hj).1, (hsymbols j hj).2]
  obtain ⟨hkind, hname⟩ := hnames 32 (by decide)
  refine ⟨x, hx, uses, hpatch, hreaches, (huse 4 (by decide)).2 (by decide),
    (huse 12 (by decide)).2 (by decide), ?_, ?_, ?_⟩
  · exact (hreaches.accessed 32 hkind hname haccessed).2 ⟨rfl, hmember⟩
  · intro h
    exact absurd ((huse 26 (by decide)).1 h) (by decide)
  · intro h
    exact absurd ((huse 34 (by decide)).1 h) (by decide)

/-- **A member of another class is taken for the symbol.**  Two classes have a member of the same
name.  When that of the first class gets a new name, then so does the one that is accessed in an
object of the second class, which goes on to declare its member under the old name. -/
theorem Query.exists_member_of_other_class_renamed :
    let t := "struct A \x7b int foo_bar; \x7d; struct B \x7b int foo_bar; \x7d; void f(A a, B b) " ++
      "\x7b a.foo_bar = b.foo_bar; \x7d"
    ∃ f, ParsedFile.parse "a.cpp" 0 t.toList = .ok f ∧
      let q : Query := ⟨.add .empty f, f, {}, 15, none⟩
      (∃ x ∈ q.renameToCamelCase, x.patch = Patch.ofChanges f.path
        ([⟨15, 22⟩, ⟨75, 82⟩, ⟨87, 94⟩].map fun s => .replace s "fooBar".toList) []) ∧
      f.tokenSpan 32 = ⟨87, 94⟩ ∧ f.symbolOfToken? 4 = some (.variableSymbol 0) ∧
      ∃ k, f.AccessesClass 32 k ∧ k.name = "B" ∧
        Symbol.variableSymbol 0 ∉ f.declaredIn (f.spelling 4) k.bodyScope := by
  intro t
  obtain ⟨f, hf, hfour, happlies, hname, huses, hspans, hsymbol, haccessed, hclass⟩ :
      ∃ f, ParsedFile.parse "a.cpp" 0 t.toList = .ok f ∧
        (⟨.add .empty f, f, {}, 15, none⟩ : Query).innermost?.bind nameToken? = some 4 ∧
        CamelCase.applies (f.spelling 4).toList = true ∧
        CamelCase.ofName (f.spelling 4).toList = "fooBar".toList ∧
        f.usesOf 4 = [4, 28, 32] ∧
        [4, 28, 32].map f.tokenSpan = [⟨15, 22⟩, ⟨75, 82⟩, ⟨87, 94⟩] ∧
        f.symbolOfToken? 4 = some (.variableSymbol 0) ∧
        f.isAccessed 32 = true ∧
        ∃ t ∈ f.nodes, ∃ k ∈ f.symbols.classes, f.accessedClass? t = some (32, k) ∧ k.name = "B" ∧
          Symbol.variableSymbol 0 ∉ f.declaredIn (f.spelling 4) k.bodyScope :=
    exists_of_map_decide (by decide +kernel)
  obtain ⟨u, hu, k, -, hk, hkname, hnot⟩ := hclass
  refine ⟨f, hf, ?_⟩
  intro q
  have hrename : q.renameToCamelCase = [q.propose "Convert to Camel Case" q.depth
      ((f.usesOf 4).map fun j =>
        .replace (f.tokenSpan j) (CamelCase.ofName (f.spelling 4).toList)) []] := by
    rw [renameToCamelCase, hfour]
    exact if_pos happlies
  have hspan : f.tokenSpan 32 = ⟨87, 94⟩ :=
    (List.cons.inj (List.cons.inj (List.cons.inj hspans).2).2).1
  refine ⟨⟨_, hrename ▸ List.mem_singleton_self _, ?_⟩, hspan, hsymbol, k, ⟨haccessed, u, hu, hk⟩,
    hkname, hnot⟩
  show Patch.ofChanges f.path _ [] = _
  rw [huses, hname, ← hspans, List.map_map]
  rfl

end Mend
