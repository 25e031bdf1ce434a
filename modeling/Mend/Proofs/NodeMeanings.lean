import Mend.Proofs.NodeChildren
import Mend.Proofs.ReadDeclarations
import Mend.Proofs.SpelledSignatures

/-!
# What the nodes of declarations mean

The nodes of a tree are numbered once it is complete, so what is known of a node while it is read
holds however its nodes are numbered.  Such facts lead from the pieces of a declaration to the words
of its type, the signs and the name of a declarator, and the type and the name of a parameter.

## Main definitions

* `PieceTree.Means` — what holds of a tree, however its nodes are numbered.
* `SourceCode.signsOf` — the signs of a declarator as they are spelled.
* `SyntaxTree.HasParts` — a declarator with given signs, a given name and a given parameter list.

## Main results

* `SourceCode.typeWord?_simpleSpecifier`, `SourceCode.typeWord?_namedTypeSpecifier` — the word that
  a keyword or a name adds to a type.
* `Parse.next?_of_opensDeclarator` — **a name that begins a declarator goes on or has a parameter
  list**, unless it is that of a destructor.
* `Parse.closeDeclarator_means` — **a declarator has its signs and its parts**, whatever comes after
  them.
-/

namespace Mend

open TokenStream

/-! ### Trees without numbers -/

namespace PieceTree

/-- What holds of a tree, however its nodes are numbered. -/
def Means (P : SyntaxTree → Prop) (u : PieceTree) : Prop :=
  ∀ t : SyntaxTree, t.toPieces = u → P t

/-- What holds of trees, however their nodes are numbered. -/
def AllMean (P : List SyntaxTree → Prop) (us : List PieceTree) : Prop :=
  ∀ ts : List SyntaxTree, ts.map SyntaxTree.toPieces = us → P ts

variable {P Q : SyntaxTree → Prop} {u : PieceTree}

theorem Means.imp (h : u.Means P) (hPQ : ∀ t, P t → Q t) : u.Means Q :=
  fun t ht => hPQ t (h t ht)

theorem Means.and (hP : u.Means P) (hQ : u.Means Q) : u.Means fun t => P t ∧ Q t :=
  fun t ht => ⟨hP t ht, hQ t ht⟩

/-- Numbers are no part of the kind of a node. -/
theorem means_kind (u : PieceTree) : u.Means fun t => t.label.kind = u.label.kind := by
  rintro t rfl
  rw [SyntaxTree.label_toPieces]

/-- The kind of a node and its children are known. -/
theorem means_node {p : Piece} {us : List PieceTree}
    (h : ∀ (n : Node) ts, n.kind = p.kind → ts.map SyntaxTree.toPieces = us → P (.node n ts)) :
    Means P (.node p us) := by
  rintro ⟨n, ts⟩ ht
  rw [SyntaxTree.toPieces_node] at ht
  obtain ⟨rfl, rfl⟩ := Rose.node.inj ht
  exact h n ts rfl rfl

theorem AllMean.nil {P : List SyntaxTree → Prop} (h : P []) : AllMean P [] := by
  intro ts hts
  rwa [List.map_eq_nil_iff.1 hts]

/-- A tree is followed by others. -/
theorem Means.cons {P R : List SyntaxTree → Prop} {us : List PieceTree} (hu : u.Means Q)
    (hus : AllMean P us) (h : ∀ t ts, Q t → P ts → R (t :: ts)) : AllMean R (u :: us) := by
  intro ts hts
  obtain ⟨t, ts, rfl, ht, hts⟩ := List.map_eq_cons_iff.1 hts
  exact h t ts (hu t ht) (hus ts hts)

/-- Trees are followed by a tree. -/
theorem AllMean.concat {P R : List SyntaxTree → Prop} {us : List PieceTree} (hus : AllMean P us)
    (hu : u.Means Q) (h : ∀ ts t, P ts → Q t → R (ts ++ [t])) : AllMean R (us ++ [u]) := by
  intro ts hts
  obtain ⟨ts₁, ts₂, rfl, h₁, h₂⟩ := List.map_eq_append_iff.1 hts
  obtain ⟨t, rfl, ht⟩ := List.map_eq_singleton_iff.1 h₂
  exact h ts₁ t (hus ts₁ h₁) (hu t ht)

end PieceTree

namespace Parse

variable {s : TokenStream} {kind : NodeKind} {first : Nat} {us : List PieceTree}

/-- A tree is a node of the kind with which it is closed. -/
theorem close_gives : (close kind first us).Gives fun u => u.label.kind = kind := by
  rintro s u s' hu
  cases hu
  rfl

/-- What the tree of a node means depends on its kind and its children. -/
theorem close_means {P : SyntaxTree → Prop}
    (h : ∀ (n : Node) ts, n.kind = kind → ts.map SyntaxTree.toPieces = us → P (.node n ts)) :
    (close kind first us).Ensures s fun u s' => s' = s ∧ u.Means P := by
  rintro u s' hu
  cases hu
  exact ⟨rfl, PieceTree.means_node h⟩

end Parse

/-! ### Tokens and names -/

theorem Phrase.Name.isName {i : Nat} {w : List TokenKind} {e : PieceTree} (h : Name i w e) :
    e.label.kind.isName = true := by
  cases h with
  | bare name => cases name <;> rfl
  | qualified | global => rfl

namespace SourceCode

variable {c : SourceCode}

/-- The tokens that are left are those from their position on. -/
theorem getElem?_tokens {s : TokenStream} (hs : s.IsTail c.stream) (j : Nat) :
    c.tokens[s.position + j]? = s.rest[j]? := by
  obtain ⟨⟨v, hv⟩, htotal, -⟩ := hs
  have hlength : s.position = v.length := by
    have hzero : c.stream.position = 0 := rfl
    simp only [total, ← hv, List.length_append] at htotal
    omega
  have htokens : c.tokens[s.position + j]? = c.stream.rest[s.position + j]? := by simp [stream]
  rw [htokens, ← hv, hlength, List.getElem?_append_right (Nat.le_add_right _ _),
    Nat.add_sub_cancel_left]

/-- Where tokens are left, they are consumed as they are found in the text. -/
theorem foundAt_of_isTail {s s' : TokenStream} {w : List TokenKind} (hs : s.IsTail c.stream)
    (hw : s.Consumes w s') : TokenKind.FoundAt c.kindOf? s.position w := by
  intro j hj
  rw [← hw.foundAt j hj, kindOf?, getElem?_tokens hs, kindAt, Nat.add_sub_cancel_left]

theorem nameOf?_node (n : Node) (ts : List SyntaxTree) :
    c.nameOf? (.node n ts) = c.nameStep n (ts.map fun t => (t, c.nameOf? t)) :=
  Rose.fold_node _ _ _

/-- The name of a declarator has the words of the name that stands for it. -/
theorem nameOf?_declaratorName {n : Node} {ts : List SyntaxTree} {e : PieceTree}
    {words : List String} (hn : n.kind = .declaratorName)
    (hts : ts.map SyntaxTree.toPieces = [e]) (h : e.Means fun t => c.nameOf? t = some words) :
    c.nameOf? (.node n ts) = some words := by
  obtain ⟨t, rfl, ht⟩ := List.map_eq_singleton_iff.1 hts
  rw [nameOf?_node, nameStep, hn, ← h t ht]
  rfl

/-- A name after qualifiers has their words, too. -/
theorem means_qualifiedName {i : Nat} {w : List TokenKind} {e : PieceTree} {qs : List Nat}
    {name : String} (h : e.Means fun t => c.nameOf? t = some [name]) :
    (PieceTree.spanning (.qualifiedName qs) i w [e]).Means fun t =>
      c.nameOf? t = some (qs.map c.spelling ++ [name]) := by
  apply PieceTree.means_node
  intro n ts hn hts
  obtain ⟨t, rfl, ht⟩ := List.map_eq_singleton_iff.1 hts
  rw [nameOf?_node, nameStep, hn, List.map_singleton, h t ht]
  rfl

end SourceCode

namespace Parse

/-- A name that is no specifier although no type was named begins a declarator. -/
theorem isDeclaratorNext_of_not {s : TokenStream}
    (hnext : s.next? = some .identifier ∨ s.next? = some .colonColon)
    (h : isSpecifierNext false s = false) : isDeclaratorNext s = true := by
  rcases hnext with hnext | hnext
  all_goals
    simp only [isSpecifierNext, hnext] at h
    obtain ⟨-, h⟩ : _ ∧ isDeclaratorNext s = true := by simpa using h
    exact h

/-- Where a declarator begins with a name that is not that of a destructor, a parameter list comes
behind the name, or the name goes on. -/
theorem next?_of_opensDeclarator {i : Nat} {v : List TokenKind} {qs : List Nat}
    {s s' : TokenStream} (h : Phrase.Qualifiers i v qs) (hs : s.Consumes (v ++ [.identifier]) s')
    (ho : opensDeclarator s.rest = true) :
    s'.next? = some .lParen ∨ s'.next? = some .colonColon := by
  induction h generalizing s with
  | nil =>
    obtain ⟨-, rfl⟩ := consumes_singleton.1 hs
    obtain ⟨rest, position, length⟩ := s
    rcases rest with _ | ⟨t, _ | ⟨u, rest⟩⟩
    · cases ho
    · cases ho
    · simp only [opensDeclarator, Bool.and_eq_true] at ho
      obtain ⟨-, ho⟩ := ho
      split at ho
      next hu => exact .inr (congrArg some hu)
      next => exact .inl (congrArg some (eq_of_beq ho))
  | @cons i v qs hqs ih =>
    obtain ⟨hname, hcolons, hs⟩ : s.next? = some .identifier ∧ s.tail.next? = some .colonColon ∧
      s.tail.tail.Consumes (v ++ [.identifier]) s' := by simpa using hs
    have hnext : s.tail.tail.next? = some .identifier := by
      cases hqs with
      | nil => exact hs.next?_eq rfl
      | cons => exact hs.next?_eq rfl
    refine ih hs ?_
    obtain ⟨rest, position, length⟩ := s
    rcases rest with _ | ⟨t, _ | ⟨u, rest⟩⟩
    · cases ho
    · cases ho
    · have hu : u.kind = .colonColon := Option.some.inj hcolons
      have htilde : rest.head?.any (·.kind == .tilde) = false := by
        cases rest with
        | nil => rfl
        | cons v rest =>
          have hv : v.kind = .identifier := Option.some.inj hnext
          simp [hv]
      simp only [opensDeclarator, Bool.and_eq_true, if_pos hu, htilde, Bool.false_or] at ho
      exact ho.2

end Parse

/-! ### Specifiers -/

namespace NodeKind

/-- A specifier that is a class or an enumeration, with its body or named with its keyword. -/
def isKeyedSpecifier : NodeKind → Bool
  | elaboratedSpecifier _ | classSpecifier _ _ _ | enumSpecifier _ _ _ => true
  | _ => false

/-- A specifier that is a keyword or a name. -/
def isPlainSpecifier (k : NodeKind) : Bool := k.isSpecifier && !k.isKeyedSpecifier

theorem isPlainSpecifier_eq_false {k : NodeKind} (h : k.isKeyedSpecifier = true) :
    k.isPlainSpecifier = false := by
  rw [isPlainSpecifier, h, Bool.not_true, Bool.and_false]

end NodeKind

namespace SourceCode

variable {c : SourceCode} {i : Nat}

/-- A keyword that is a specifier is a part of a type or says how something is kept. -/
theorem isStorage_eq {k : TokenKind} (hk : c.kindOf? i = some k)
    (hspecifier : k.isSpecifier = true) : c.isStorage i = !k.isTypePart := by
  have hkind : c.isKind i = fun k' => some k == some k' := by
    funext k'
    rw [isKind, hk]
  rw [isStorage, hkind]
  revert hspecifier
  cases k <;> decide

/-- A keyword is a word of a type unless it says how something is kept. -/
theorem typeWord?_simpleSpecifier {k : TokenKind} {n : Node} {ts : List SyntaxTree}
    (hn : n.kind = .simpleSpecifier i) (hk : c.kindOf? i = some k)
    (hspecifier : k.isSpecifier = true) :
    c.typeWord? (.node n ts) = if k.isTypePart then some (c.spelling i) else none := by
  rw [typeWord?, Rose.label_node, hn]
  simp only [isStorage_eq hk hspecifier]
  cases k.isTypePart <;> rfl

/-- The name of a type is a word of the type. -/
theorem typeWord?_namedTypeSpecifier {n : Node} {ts : List SyntaxTree} {w : List TokenKind}
    {e : PieceTree} {words : List String} (hn : n.kind = .namedTypeSpecifier)
    (hts : ts.map SyntaxTree.toPieces = [e]) (he : Phrase.Name i w e)
    (h : e.Means fun t => c.nameOf? t = some words) :
    c.typeWord? (.node n ts) = some (qualified words) := by
  obtain ⟨t, rfl, ht⟩ := List.map_eq_singleton_iff.1 hts
  have hname : t.label.kind.isName = true := by
    rw [PieceTree.means_kind e t ht]
    exact he.isName
  rw [typeWord?, Rose.label_node, hn]
  simp [SyntaxTree.name?, hname, writtenName, h t ht]

end SourceCode

/-! ### Declarators -/

/-- The name of a declarator, or its parameter list. -/
def NodeKind.isDeclaratorPart (k : NodeKind) : Bool := k.isDeclaratorName || k.isParameterList

theorem NodeKind.isDeclaratorPart_of_isName {k : NodeKind} (h : k.isName = true) :
    k.isDeclaratorPart = false := by
  cases k <;> first | rfl | cases h

/-- A value is no other part of a declarator. -/
theorem Phrase.Derives.isDeclaratorPart {cat : Category} {i : Nat} {w : List TokenKind}
    {es : List PieceTree} (h : Derives cat i w es) :
    ∀ e ∈ es, e.label.kind.isDeclaratorPart = false := by
  induction h with
  | value _ ih | operand _ ih | tighter _ _ ih | bare _ ih | alone _ ih => exact ih
  | noArguments | noMore => nofun
  | someArguments _ _ ih ihs | more _ _ ih ihs =>
    exact List.forall_mem_cons.2 ⟨ih _ (List.mem_singleton_self _), ihs⟩
  | name _ hname =>
    exact List.forall_mem_singleton.2 (NodeKind.isDeclaratorPart_of_isName hname.isName)
  | _ => exact List.forall_mem_singleton.2 rfl

/-- A sign of a declarator, or the `const` after one. -/
def TokenKind.isPointerPart : TokenKind → Bool
  | star | amp | ampAmp | kwConst => true
  | _ => false

/-- The signs of a declarator, without the `const` after them. -/
def SourceCode.signsOf (c : SourceCode) (pointers : List Nat) : String :=
  String.join ((pointers.filter fun i => !c.isKind i .kwConst).map c.spelling)

/-- A declarator has the given signs and, apart from its initial value, the given parts. -/
structure SyntaxTree.HasParts (pointers : List Nat) (parts : List PieceTree) (t : SyntaxTree) :
    Prop where
  /-- It is a declarator with these signs. -/
  kind : ∃ equal, t.label.kind = .declarator pointers equal
  /-- Its first children are the parts. -/
  children : ∃ ts, ts.map SyntaxTree.toPieces = parts ∧
    ∃ rest : List SyntaxTree, (∀ r ∈ rest, r.label.kind.isDeclaratorPart = false) ∧
      t.children = ts ++ rest

namespace SyntaxTree.HasParts

variable {c : SourceCode} {pointers : List Nat} {parts : List PieceTree} {t : SyntaxTree}

theorem isDeclarator (h : t.HasParts pointers parts) : t.label.kind.isDeclarator = true := by
  obtain ⟨equal, hkind⟩ := h.kind
  rw [hkind]
  rfl

/-- The type of what a declarator declares has its signs. -/
theorem declaredType (h : t.HasParts pointers parts) (specifiers : List SyntaxTree) :
    c.declaredType specifiers t = ⟨(c.baseType specifiers).base, c.signsOf pointers⟩ := by
  obtain ⟨equal, hkind⟩ := h.kind
  rw [SourceCode.declaredType, hkind]
  rfl

/-- The name and the parameter list of a declarator are among its parts. -/
theorem exists_parts (h : t.HasParts pointers parts) :
    ∃ ts : List SyntaxTree, ts.map toPieces = parts ∧
    t.core? = ts.find? (fun u => u.label.kind.isDeclaratorName) ∧
    t.parameterList? = ts.find? fun u => u.label.kind.isParameterList := by
  obtain ⟨ts, hts, rest, hrest, hchildren⟩ := h.children
  have hnone : rest.find? (fun u => u.label.kind.isDeclaratorName) = none ∧
      rest.find? (fun u => u.label.kind.isParameterList) = none := by
    simp only [List.find?_eq_none, ← forall₂_and]
    intro r hr
    simpa [NodeKind.isDeclaratorPart] using hrest r hr
  refine ⟨ts, hts, ?_, ?_⟩
  · rw [core?, hchildren, List.find?_append, hnone.1, Option.or_none]
  · rw [parameterList?, hchildren, List.find?_append, hnone.2, Option.or_none]

/-- A declarator without parts declares no name. -/
theorem declaredName?_of_nil (h : t.HasParts pointers []) : c.declaredName? t = none := by
  obtain ⟨ts, hts, hcore, -⟩ := h.exists_parts
  rw [List.map_eq_nil_iff.1 hts] at hcore
  rw [SourceCode.declaredName?, hcore]
  rfl

/-- A declarator declares the name that is its first part. -/
theorem exists_declaredName? {u : PieceTree} {us : List PieceTree} {qs : List String}
    {name : String} (h : t.HasParts pointers (u :: us)) (hkind : u.label.kind = .declaratorName)
    (hu : u.Means fun t => c.nameOf? t = some (qs ++ [name])) :
    ∃ span, c.declaredName? t = some (qs, name, span) := by
  obtain ⟨ts, hts, hcore, -⟩ := h.exists_parts
  obtain ⟨core, ts, rfl, hu', -⟩ := List.map_eq_cons_iff.1 hts
  have hlabel : core.label.kind.isDeclaratorName = true := by
    rw [PieceTree.means_kind u core hu', hkind]
    rfl
  simp only [List.find?_cons, hlabel] at hcore
  refine ⟨c.spanOf core, ?_⟩
  rw [SourceCode.declaredName?, hcore]
  simp [hu core hu']

/-- The parameter list of a declarator comes behind its name. -/
theorem exists_parameterList? {u v : PieceTree} (h : t.HasParts pointers [u, v])
    (hu : u.label.kind = .declaratorName) (hv : v.label.kind.isParameterList = true) :
    ∃ l : SyntaxTree, l.toPieces = v ∧ t.parameterList? = some l := by
  obtain ⟨_, hparts, -, hfind⟩ := h.exists_parts
  obtain ⟨core, ts, rfl, rfl, hts⟩ := List.map_eq_cons_iff.1 hparts
  obtain ⟨l, rfl, rfl⟩ := List.map_eq_singleton_iff.1 hts
  rw [SyntaxTree.label_toPieces] at hu hv
  have hcore : core.label.kind.isParameterList = false := by rw [hu]; rfl
  simp only [List.find?_cons, hcore, hv] at hfind
  exact ⟨l, rfl, hfind⟩

/-- A parameter list of a declarator is one of its parts. -/
theorem mem_of_parameterList? {l : SyntaxTree} (h : t.HasParts pointers parts)
    (hl : l ∈ t.parameterList?) : l.toPieces ∈ parts ∧ l.label.kind.isParameterList = true := by
  obtain ⟨ts, rfl, -, hfind⟩ := h.exists_parts
  rw [hfind] at hl
  refine ⟨List.mem_map_of_mem (List.mem_of_find?_eq_some hl), ?_⟩
  simpa using List.find?_some (Option.mem_def.1 hl)

end SyntaxTree.HasParts

namespace Parse

variable {c : SourceCode} {g : Grammar} {s : TokenStream}

/-- A part of the signs comes next, and the first one is a sign. -/
theorem exists_isPointerPart {seen : List Nat} (h : isPointerNext seen s = true) :
    ∃ k, s.next? = some k ∧ k.isPointerPart = true ∧ (seen = [] → k ≠ .kwConst) := by
  unfold isPointerNext at h
  split at h
  case h_1 hk | h_2 hk | h_3 hk => exact ⟨_, hk, rfl, nofun⟩
  case h_4 hk => exact ⟨_, hk, rfl, by rintro rfl; cases h⟩
  case h_5 => cases h

/-- No array bounds and no initial value stand where a parameter list begins or a name goes on. -/
theorem arrayBounds_ensures_eq (h : s.next? = some .lParen ∨ s.next? = some .colonColon) :
    arrayBounds.Ensures s fun _ s' => s' = s := by
  have hmore : s.isAt .lBracket = false := by rcases h with h | h <;> rw [isAt, h] <;> rfl
  exact (Ensures.get_bind ((items_yields_nil hmore _).ensures rfl)).bind fun _ _ hs => .pure hs

theorem initialValue?_ensures_eq (h : s.next? = some .lParen ∨ s.next? = some .colonColon) :
    (initialValue? g).Ensures s fun _ s' => s' = s :=
  (eat?_yields_none (k := .equal) (by rcases h with h | h <;> simp [h])).bind_ensures (.pure rfl)

/-- **What is known of a declarator**: its signs, and its name and its parameter list as they were
read.  Where a parameter list begins or a name goes on, nothing more is taken. -/
theorem closeDeclarator_means (hg : g.DeclaresFrom c.stream) (hs : s.IsTail c.stream)
    {first : Nat} {pointers : List Nat} {parts : List PieceTree} :
    (closeDeclarator g first pointers parts).Ensures s fun u s' => s'.IsTail c.stream ∧
      (s.next? = some .lParen ∨ s.next? = some .colonColon → s' = s) ∧
      u.Means (SyntaxTree.HasParts pointers parts) := by
  have hbounds : arrayBounds.Ensures s fun _ s' => s'.IsTail c.stream ∧
      (s.next? = some .lParen ∨ s.next? = some .colonColon → s' = s) :=
    ((GivesFrom.arrayBounds s hs).imp fun _ _ h => h.1).and
      fun a s' hrun hnext => arrayBounds_ensures_eq hnext a s' hrun
  refine hbounds.bind fun _ s₁ h₁ => ?_
  have hvalue : (initialValue? g).Ensures s₁ fun o s' =>
      (s'.IsTail c.stream ∧ ∀ p ∈ o, ∃ i w, Phrase.Derives .assignment i w [p.2]) ∧
        (s.next? = some .lParen ∨ s.next? = some .colonColon → s' = s) := by
    refine (GivesFrom.initialValue? hg s₁ h₁.1).and fun o s' hrun hnext => ?_
    have heq := h₁.2 hnext
    exact heq ▸ initialValue?_ensures_eq (heq ▸ hnext) o s' hrun
  refine hvalue.bind fun o s₂ h₂ => ?_
  obtain ⟨⟨htail, hderives⟩, hsame⟩ := h₂
  cases o with
  | none =>
    refine (close_means (P := SyntaxTree.HasParts pointers parts) fun n ts hn hts => ?_).imp
      fun u s' hu => ⟨hu.1 ▸ htail, hu.1 ▸ hsame, hu.2⟩
    exact ⟨⟨none, hn⟩, ts, hts, [], nofun, (List.append_nil ts).symm⟩
  | some p =>
    obtain ⟨i, w, hp⟩ := hderives p rfl
    refine (close_means (P := SyntaxTree.HasParts pointers parts) fun n ts hn hts => ?_).imp
      fun u s' hu => ⟨hu.1 ▸ htail, hu.1 ▸ hsame, hu.2⟩
    obtain ⟨ts, rest, rfl, hparts, hrest⟩ := List.map_eq_append_iff.1 hts
    obtain ⟨r, rfl, hr⟩ := List.map_eq_singleton_iff.1 hrest
    refine ⟨⟨_, hn⟩, ts, hparts, [r], List.forall_mem_singleton.2 ?_, rfl⟩
    rw [PieceTree.means_kind p.2 r hr]
    exact hp.isDeclaratorPart _ (List.mem_singleton_self _)

end Parse

/-! ### Specifiers and declarators together -/

namespace SyntaxTree

variable {t : SyntaxTree} {ts ds : List SyntaxTree}

theorem isSpecifier_of_isDeclarator {k : NodeKind} (h : k.isDeclarator = true) :
    k.isSpecifier = false := by
  cases k <;> first | rfl | cases h

/-- The specifiers of a node are the first of its children. -/
theorem specifiers_eq (h : t.children = ts ++ ds)
    (hts : ∀ u ∈ ts, u.label.kind.isSpecifier = true)
    (hds : ∀ u ∈ ds, u.label.kind.isSpecifier = false) : t.specifiers = ts := by
  have hnone : ds.filter (fun u => u.label.kind.isSpecifier) = [] := by
    simpa [List.filter_eq_nil_iff] using hds
  rw [specifiers, h, List.filter_append, List.filter_eq_self.2 hts, hnone, List.append_nil]

/-- The declarators of a node come behind its specifiers. -/
theorem declarators_eq (h : t.children = ts ++ ds)
    (hts : ∀ u ∈ ts, u.label.kind.isSpecifier = true) :
    t.declarators = ds.filter fun u => u.label.kind.isDeclarator := by
  have hnone : ts.filter (fun u => u.label.kind.isDeclarator) = [] := by
    rw [List.filter_eq_nil_iff]
    intro u hu hdeclarator
    have hspecifier := hts u hu
    rw [isSpecifier_of_isDeclarator hdeclarator] at hspecifier
    cases hspecifier
  rw [declarators, h, List.filter_append, hnone, List.nil_append]

end SyntaxTree

namespace SourceCode

variable {c : SourceCode} {ts : List SyntaxTree}

/-- A parameter without a declarator has no name. -/
theorem parameterOf_eq_of_specifiers {t : SyntaxTree} (h : t.children = ts)
    (hts : ∀ u ∈ ts, u.label.kind.isSpecifier = true) :
    t.specifiers = ts ∧ c.parameterOf t = ⟨c.baseType ts, none⟩ := by
  have hchildren : t.children = ts ++ [] := by rw [h, List.append_nil]
  have hspecifiers := SyntaxTree.specifiers_eq hchildren hts nofun
  rw [parameterOf, SyntaxTree.declarator?, SyntaxTree.declarators_eq hchildren hts, hspecifiers]
  exact ⟨rfl, rfl⟩

/-- A parameter with a declarator has its type and its name. -/
theorem parameterOf_eq_of_declarator {t d : SyntaxTree} (h : t.children = ts ++ [d])
    (hts : ∀ u ∈ ts, u.label.kind.isSpecifier = true) (hd : d.label.kind.isDeclarator = true) :
    t.specifiers = ts ∧
      c.parameterOf t = ⟨c.declaredType ts d, (c.declaredName? d).map (·.2.1)⟩ := by
  have hspecifiers := SyntaxTree.specifiers_eq h hts
    (List.forall_mem_singleton.2 (SyntaxTree.isSpecifier_of_isDeclarator hd))
  rw [parameterOf, SyntaxTree.declarator?, SyntaxTree.declarators_eq h hts, hspecifiers]
  refine ⟨rfl, ?_⟩
  simp [hd]

end SourceCode

end Mend
