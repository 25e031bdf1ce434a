import Mend.Fix.Insertion
import Mend.Proofs.ClassBodies
import Mend.Proofs.ParserRuns
import Mend.Proofs.RowPositions
import Mend.Proofs.TokenEnds

/-!
# Where members are declared

A member is declared at the end of the last section of its kind.  What is told of that place is a
row and a column, and they lead back to the end of the section: behind its label, and before the
next one.

Without such a section, a new one is opened behind everything in the class.  When only blanks stand
before the closing brace on its row, no token reaches into that row, so all members stop before it.
The text before the member is the label of the kind: its tokens are read as a label that sets the
level and the slots of the kind.

## Main definitions

* `AccessSection.IsOf` — a section is of a kind.
* `AccessSpec.labelKinds`, `AccessSpec.IsOpenedBy` — the tokens of a label, and a text that opens a
  section.
* `SourceCode.lastLabel?` — the last label that stops at or before an offset.
* `ParsedFile.Takes` — what a place for members of a kind is to be like.

## Main results

* `AccessSpec.isOpenedBy_label` — **the label of a section opens it.**
* `SourceCode.StopsAmong.filter_labelsOf` — the labels that stop at or before the end of a section.
* `ParsedFile.takes_of_mem_sections`, `ParsedFile.takes_newSection` — the end of a section, and the
  end of the class.
* `Snapshot.members_land_in_their_section` — **members are declared in a section of their kind.**
-/

namespace Mend

/-- A section has the level of a kind of sections, and slots if that kind has. -/
structure AccessSection.IsOf (x : AccessSection) (spec : AccessSpec) : Prop where
  /-- The level. -/
  level : x.level = spec.level
  /-- Whether the members are slots. -/
  slots : x.slots = spec.isSlots

instance (x : AccessSection) (spec : AccessSpec) : Decidable (x.IsOf spec) :=
  decidable_of_iff (x.level = spec.level ∧ x.slots = spec.isSlots)
    ⟨fun h => ⟨h.1, h.2⟩, fun h => ⟨h.1, h.2⟩⟩

/-! ### The label of a new section -/

/-- The keyword that a label of a level begins with. -/
def AccessLevel.kind : AccessLevel → TokenKind
  | .pub => .kwPublic
  | .prot => .kwProtected
  | .priv => .kwPrivate
  | .signals => .kwSignals

theorem SourceCode.levelOf_of_kindOf? {c : SourceCode} {i : Nat} {level : AccessLevel}
    (h : c.kindOf? i = some level.kind) : c.levelOf i = level := by
  rw [levelOf, h]
  cases level <;> rfl

namespace AccessSpec

open TokenStream

/-- The kinds of the tokens of the label of a section. -/
def labelKinds (spec : AccessSpec) : List TokenKind :=
  spec.level.kind :: ((if spec.isSlots then [.kwSlots] else []) ++ [.colon])

/-- A text opens a section of a kind.  It holds the tokens of one label; wherever they stand among
the members of a class, the parser of members takes them and no more, and the label that it makes of
them sets the level and the slots of the kind. -/
def IsOpenedBy (spec : AccessSpec) (text : Text) : Prop :=
  ∃ tokens, Lexed.ofText text = .ok ⟨tokens, []⟩ ∧
    ∀ (g : Grammar) (s s' : TokenStream), s.Consumes (tokens.map (·.kind)) s' →
      ∃ p, (Parse.member g).Yields s (.node p []) s' ∧
        ∀ (c : SourceCode) (t : SyntaxTree), t.label.toPiece = p →
          TokenKind.FoundAt c.kindOf? s.position (tokens.map (·.kind)) →
          ∃ l, c.label? t = some l ∧ l.level = spec.level ∧ l.slots = spec.isSlots

/-- The label of a section is read as a label. -/
theorem member_yields (spec : AccessSpec) (g : Grammar) {s s' : TokenStream}
    (h : s.Consumes spec.labelKinds s') :
    ∃ slots colon, slots.isSome = spec.isSlots ∧
      (Parse.member g).Yields s
        (.spanning (.accessLabel s.position slots colon) s.position spec.labelKinds []) s' := by
  obtain ⟨haccess, hrest⟩ := consumes_cons.1 h
  obtain ⟨m, hslots, hlast⟩ := consumes_append.1 hrest
  obtain ⟨hcolon, rfl⟩ := consumes_singleton.1 hlast
  have hmember : (Parse.member g).run s = Parse.accessLabel.run s := by
    rw [Parse.member, (Parse.peek_yields s).run_bind, haccess]
    cases spec.level <;> rfl
  -- the word of a kind without slots goes on with the colon
  have heat : ∃ slots, slots.isSome = spec.isSlots ∧
      (Parse.eat? .kwSlots).Yields s.tail slots m := by
    cases hspec : spec.isSlots with
    | false =>
      rw [hspec, if_neg Bool.false_ne_true, consumes_nil] at hslots
      subst hslots
      exact ⟨none, rfl, Parse.eat?_yields_none (by simp [hcolon])⟩
    | true =>
      rw [hspec, if_pos rfl, consumes_singleton] at hslots
      obtain ⟨hnext, rfl⟩ := hslots
      exact ⟨_, rfl, Parse.eat?_yields_some hnext⟩
  obtain ⟨slots, hsome, heat⟩ := heat
  refine ⟨slots, m.position, hsome, Parse.Yields.congr_run ?_ hmember⟩
  refine (Parse.advance_yields s).bind (heat.bind ?_)
  refine (Parse.expect_yields hcolon).bind ?_
  exact Parse.close_yields h (List.cons_ne_nil _ _) rfl

/-- **The label of a section opens it**, with a newline behind it and with or without one before
it. -/
theorem isOpenedBy_label (spec : AccessSpec) {before : String}
    (h : before = spec.label ++ "\n" ∨ before = "\n" ++ spec.label ++ "\n") :
    spec.IsOpenedBy before.toList := by
  have hlexed : ∃ L, Lexed.ofText before.toList = .ok L ∧ L.includes = [] ∧
      L.tokens.map (·.kind) = spec.labelKinds := by
    rcases h with rfl | rfl
    all_goals exact exists_of_map_decide (by cases spec <;> decide +kernel)
  obtain ⟨⟨tokens, includes⟩, htokens, rfl, hkinds⟩ := hlexed
  refine ⟨tokens, htokens, ?_⟩
  intro g s s' hconsumes
  dsimp only at hkinds
  rw [hkinds] at hconsumes ⊢
  obtain ⟨slots, colon, hslots, hyields⟩ := spec.member_yields g hconsumes
  refine ⟨_, hyields, ?_⟩
  intro c t hlabel hfound
  have hkind : t.label.kind = .accessLabel s.position slots colon :=
    congrArg Piece.kind hlabel
  exact ⟨_, SourceCode.label?_of_kind hkind, SourceCode.levelOf_of_kindOf? hfound.head, hslots⟩

end AccessSpec

namespace SourceCode

variable {c : SourceCode} {text : Text} {t : SyntaxTree} {ts before after : List SyntaxTree}
  {s s' : AccessSection} {i j o : Nat}

/-- The last of the labels among some nodes that stop at or before an offset. -/
def lastLabel? (c : SourceCode) (ts : List SyntaxTree) (o : Nat) : Option AccessLabel :=
  ((c.labelsOf ts).filter fun l => l.span.stop ≤ o).getLast?

/-- The braces of a class exist. -/
theorem lt_size_of_classSpecifier (hc : ofText text = .ok c) (ht : t ∈ c.nodes)
    {key lbrace rbrace : Nat} (hkind : t.label.kind = .classSpecifier key lbrace rbrace) :
    lbrace < c.tokens.size ∧ rbrace < c.tokens.size := by
  have hlayout : ∀ i ∈ [lbrace, rbrace],
      .single i ∈ t.label.toPiece.layout (t.children.map fun v => v.label.toPiece) := by
    simp [Piece.layout, NodeKind.slots, TokenRun.interleave, hkind]
  have hfile : t.label.kind ≠ .file := by simp [hkind]
  exact ⟨lt_size_of_mem_layout hc ht hfile (hlayout lbrace (by simp)),
    lt_size_of_mem_layout hc ht hfile (hlayout rbrace (by simp))⟩

/-! ### Offsets between tokens -/

theorem IsOrdered.tokenStart_le_length (hc : c.IsOrdered) (i : Nat) :
    c.tokenStart i ≤ c.text.length :=
  Nat.le_trans (hc.tokenSpan i).1 (hc.tokenSpan i).2

/-- An offset lies within no token. -/
def IsBetweenTokens (c : SourceCode) (o : Nat) : Prop :=
  ∀ i, ¬(c.tokenStart i < o ∧ o < c.tokenStop i)

theorem IsOrdered.isBetweenTokens_tokenStop (hc : c.IsOrdered) (j : Nat) :
    c.IsBetweenTokens (c.tokenStop j) := by
  rintro i ⟨hstart, hstop⟩
  rcases Nat.lt_or_ge j i with hlt | hge
  · exact Nat.not_lt.2 (hc.tokenStop_le_tokenStart hlt) hstart
  · exact Nat.not_lt.2 (hc.tokenStop_mono hge) hstop

theorem IsOrdered.isBetweenTokens_tokenStart (hc : c.IsOrdered) (j : Nat) :
    c.IsBetweenTokens (c.tokenStart j) := by
  rintro i ⟨hstart, hstop⟩
  rcases Nat.lt_or_ge i j with hlt | hge
  · exact Nat.not_lt.2 (hc.tokenStop_le_tokenStart hlt) hstop
  · exact Nat.not_lt.2 (hc.tokenStart_mono hge) hstart

/-- When only blanks stand between an offset and a token, what stops before the token stops before
the offset. -/
theorem tokenStop_le_of_blank_before (hc : ofText text = .ok c) (hj : j < c.tokens.size)
    (hi : c.tokenStop i ≤ c.tokenStart j)
    (hblank : (c.slice ⟨o, c.tokenStart j⟩).all isBlank = true) : c.tokenStop i ≤ o := by
  refine tokenStop_le_of_blank hc ?_ hi hblank
  by_contra hnot
  have hordered := isOrdered_of_ofText_eq_ok hc
  have hmono : c.tokenStop j ≤ c.tokenStop i :=
    hordered.tokenStop_mono (Nat.le_trans (Nat.le_of_lt hj) (Nat.le_of_not_lt hnot))
  have hlt := tokenStart_lt_tokenStop hc hj
  exact absurd (Nat.le_trans hmono hi) (Nat.not_le.2 hlt)

theorem isBetweenTokens_of_blank_before (hc : ofText text = .ok c) (hj : j < c.tokens.size)
    (ho : o ≤ c.tokenStart j) (hblank : (c.slice ⟨o, c.tokenStart j⟩).all isBlank = true) :
    c.IsBetweenTokens o := by
  have hordered := isOrdered_of_ofText_eq_ok hc
  rintro i ⟨hstart, hstop⟩
  rcases Nat.lt_or_ge i j with hlt | hge
  · have hbefore := tokenStop_le_of_blank_before hc hj (hordered.tokenStop_le_tokenStart hlt) hblank
    exact Nat.not_lt.2 hbefore hstop
  · exact Nat.not_lt.2 (Nat.le_trans ho (hordered.tokenStart_mono hge)) hstart

/-! ### Labels before the end of a section -/

/-- **The labels that stop at or before the end of a section** are those up to its own. -/
theorem StopsAmong.filter_labelsOf (hc : ofText text = .ok c) (hts : ∀ u ∈ ts, u ∈ c.nodes)
    (h : c.StopsAmong s' ts s before after) :
    (c.labelsOf ts).filter (fun l => l.span.stop ≤ s.stop) = c.labelsOf before := by
  have hbefore : (c.labelsOf before).filter (fun l => l.span.stop ≤ s.stop) =
      c.labelsOf before :=
    List.filter_eq_self.2 fun l hl => decide_eq_true (h.before_le l hl)
  have hafter : (c.labelsOf after).filter (fun l => l.span.stop ≤ s.stop) = [] := by
    refine List.filter_eq_nil_iff.2 ?_
    intro l hl
    obtain ⟨u, hu, hlabel⟩ := List.mem_filterMap.1 hl
    have hunodes : u ∈ c.nodes := hts u (h.members ▸ List.mem_append_right _ hu)
    obtain ⟨hstart, hlt, -⟩ := label_within hc hunodes hlabel
    have hge := h.after_ge u hu
    simp only [decide_eq_true_eq]
    omega
  rw [h.members, labelsOf_append, List.filter_append, hbefore, hafter, List.append_nil]

/-- A section that stops among members has the last label before its end. -/
theorem StopsAmong.lastLabel?_eq (hc : ofText text = .ok c) (hts : ∀ u ∈ ts, u ∈ c.nodes)
    (h : c.StopsAmong s' ts s before after) (hs' : s'.label = none) :
    s.label = (c.lastLabel? ts s.stop).map AccessLabel.span ∧
      ∀ l, c.lastLabel? ts s.stop = some l → l.level = s.level ∧ l.slots = s.slots := by
  rw [lastLabel?, h.filter_labelsOf hc hts]
  cases hlast : (c.labelsOf before).getLast? with
  | none => exact ⟨(h.unlabelled hlast).2.2.trans hs', nofun⟩
  | some l =>
    obtain ⟨hlevel, hslots, hlabel⟩ := h.labelled l hlast
    refine ⟨hlabel, ?_⟩
    rintro _ ⟨⟩
    exact ⟨hlevel.symm, hslots.symm⟩

end SourceCode

/-! ### Places -/

namespace ParsedFile

variable {f : ParsedFile} {t : SyntaxTree} {p : Place} {k : ClassSymbol} {spec : AccessSpec}

/-- What a place for members of a kind in a class is to be like. -/
structure Takes (f : ParsedFile) (t : SyntaxTree) (k : ClassSymbol) (spec : AccessSpec)
    (x : InsertionPoint) : Prop where
  /-- It names a file, a row and a column. -/
  isValid : x.IsValid
  /-- The file is that of the class. -/
  file : x.file = f.path
  /-- It lies behind the opening brace. -/
  lbrace : k.lbrace < x.offsetIn f.text
  /-- It lies at or before the closing brace. -/
  rbrace : x.offsetIn f.text ≤ k.rbrace
  /-- It lies within no token. -/
  isBetweenTokens : f.IsBetweenTokens (x.offsetIn f.text)
  /-- When there is a section of the kind, then it lies in one: the last label before it is that of
  the section, if that has one, and it sets what the section has. -/
  inSection : (∃ s ∈ k.sections, s.IsOf spec) → ∃ s ∈ k.sections, s.IsOf spec ∧
    s.label = (f.lastLabel? t.members (x.offsetIn f.text)).map AccessLabel.span ∧
    ∀ l, f.lastLabel? t.members (x.offsetIn f.text) = some l →
      l.level = spec.level ∧ l.slots = spec.isSlots
  /-- Without such a section, it lies behind everything in the class, and the text before the
  member is the label of the kind, which opens a section. -/
  newSection : (∀ s ∈ k.sections, ¬s.IsOf spec) →
    (∀ u ∈ t.members, f.stopOf u ≤ x.offsetIn f.text) ∧
    (x.before = spec.label ++ "\n" ∨ x.before = "\n" ++ spec.label ++ "\n") ∧
    spec.IsOpenedBy x.before.toList

/-- **The end of a section takes members of its kind.** -/
theorem takes_of_mem_sections (hpath : f.path ≠ "") (hlength : f.text.length ≤ lastOffset)
    (ht : t ∈ f.nodes) (hk : f.DefinesClass p t k) {s : AccessSection} (hs : s ∈ k.sections)
    (hspec : s.IsOf spec) (before after : String) :
    f.Takes t k spec (.atOffset f s.stop before after) := by
  obtain ⟨-, key, lbrace, rbrace, scope, hkind, rfl⟩ := hk
  have hordered := f.isOrdered
  have hmembers : ∀ u ∈ t.members, u ∈ f.nodes := fun u hu =>
    Rose.mem_subtrees_of_mem_children ht (List.mem_filter.1 hu).1
  obtain ⟨hle, earlier, later, hstops⟩ := SourceCode.stopsAmong_of_mem_sectionsFrom f.isReading
    hmembers (SourceCode.inOrder_members hordered ht hkind) (Nat.le_refl _)
    (List.mem_filter.1 hs).1
  have hlbrace := (SourceCode.lt_size_of_classSpecifier f.isReading ht hkind).1
  have hoffset : (InsertionPoint.atOffset f s.stop before after).offsetIn f.text = s.stop :=
    InsertionPoint.offsetIn_atOffset hlength
      (Nat.le_trans hle (hordered.tokenStart_le_length rbrace)) _ _
  refine ⟨InsertionPoint.isValid_atOffset hpath _ _ _, rfl, ?_, ?_, ?_, ?_, ?_⟩
  · rw [hoffset]
    exact Nat.lt_of_lt_of_le (f.tokenStart_lt_tokenStop hlbrace) hstops.stop_ge
  · rw [hoffset]
    exact hle
  · rw [hoffset]
    rcases hstops.stop_token with heq | ⟨j, heq⟩
    · rw [heq]
      exact hordered.isBetweenTokens_tokenStop lbrace
    · rw [heq]
      exact hordered.isBetweenTokens_tokenStop j
  · intro _
    obtain ⟨hlabel, hlast⟩ := hstops.lastLabel?_eq f.isReading hmembers rfl
    rw [hoffset]
    refine ⟨s, hs, hspec, hlabel, ?_⟩
    intro l hl
    exact ⟨(hlast l hl).1.trans hspec.level, (hlast l hl).2.trans hspec.slots⟩
  · intro hno
    exact absurd hspec (hno s hs)

/-- **A place behind everything in a class takes members of any kind in a new section.** -/
theorem takes_newSection (hpath : f.path ≠ "") (hlength : f.text.length ≤ lastOffset)
    (ht : t ∈ f.nodes) (hk : f.DefinesClass p t k) (hno : ∀ s ∈ k.sections, ¬s.IsOf spec)
    {o : Nat} (hle : o ≤ k.rbrace)
    (hbetween : f.IsBetweenTokens o)
    (hbehind : ∀ i, f.tokenStop i ≤ k.rbrace → f.tokenStop i ≤ o) {before : String}
    (hbefore : before = spec.label ++ "\n" ∨ before = "\n" ++ spec.label ++ "\n")
    (after : String) : f.Takes t k spec (.atOffset f o before after) := by
  obtain ⟨-, key, lbrace, rbrace, scope, hkind, rfl⟩ := hk
  have hordered := f.isOrdered
  have horder := SourceCode.inOrder_members hordered ht hkind
  have hlbrace := (SourceCode.lt_size_of_classSpecifier f.isReading ht hkind).1
  have hoffset : (InsertionPoint.atOffset f o before after).offsetIn f.text = o :=
    InsertionPoint.offsetIn_atOffset hlength
      (Nat.le_trans hle (hordered.tokenStart_le_length rbrace)) _ _
  refine ⟨InsertionPoint.isValid_atOffset hpath _ _ _, rfl, ?_, ?_, ?_, ?_,
    fun _ => ⟨?_, hbefore, spec.isOpenedBy_label hbefore⟩⟩
  · rw [hoffset]
    exact Nat.lt_of_lt_of_le (f.tokenStart_lt_tokenStop hlbrace) (hbehind lbrace horder.le)
  · rw [hoffset]
    exact hle
  · rw [hoffset]
    exact hbetween
  · rintro ⟨s, hs, hspec⟩
    exact absurd hspec (hno s hs)
  · rw [hoffset]
    intro u hu
    exact hbehind u.last (horder.of_mem (List.mem_map_of_mem hu)).2.2

/-- **The place for a member takes it.** -/
theorem takes_memberPoint (hpath : f.path ≠ "") (hlength : f.text.length ≤ lastOffset)
    (ht : t ∈ f.nodes) (hk : f.DefinesClass p t k) (spec : AccessSpec) :
    f.Takes t k spec (f.memberPoint k spec) := by
  unfold memberPoint
  dsimp only
  split
  next s hs =>
    have hmem : s ∈ k.sections := List.mem_reverse.1 (List.mem_of_find?_eq_some hs)
    have hspec : s.IsOf spec := by
      have hfound := List.find?_some hs
      simp only [Bool.and_eq_true, beq_iff_eq] at hfound
      exact ⟨hfound.1, hfound.2⟩
    exact takes_of_mem_sections hpath hlength ht hk hmem hspec _ _
  next hnone =>
    have hno : ∀ s ∈ k.sections, ¬s.IsOf spec := by
      intro s hs hspec
      refine List.find?_eq_none.1 hnone s (List.mem_reverse.2 hs) ?_
      simp [hspec.level, hspec.slots]
    obtain ⟨-, key, lbrace, rbrace, scope, hkind, hclass⟩ := id hk
    have hrbrace : k.rbrace = f.tokenStart rbrace := by rw [hclass]; rfl
    have hsize := (SourceCode.lt_size_of_classSpecifier f.isReading ht hkind).2
    split
    next hblank =>
      have hrow : Text.rowStart f.text (Text.rowOf f.text k.rbrace) ≤ k.rbrace := by
        refine (Text.rowOf_bounds ?_).1
        rw [hrbrace]
        exact f.isOrdered.tokenStart_le_length rbrace
      rw [hrbrace] at hblank hrow
      refine takes_newSection hpath hlength ht hk hno (hrbrace ▸ hrow) ?_ ?_ (.inl rfl) _
      · rw [hrbrace]
        exact SourceCode.isBetweenTokens_of_blank_before f.isReading hsize hrow hblank
      · intro i hi
        rw [hrbrace] at hi ⊢
        exact SourceCode.tokenStop_le_of_blank_before f.isReading hsize hi hblank
    next =>
      refine takes_newSection hpath hlength ht hk hno (Nat.le_refl _) ?_ (fun i hi => hi)
        (.inr rfl) _
      rw [hrbrace]
      exact f.isOrdered.isBetweenTokens_tokenStart rbrace

end ParsedFile

/-- **Members are declared in a section of their kind.**  For every class of a file there is a place
for members of any kind.  It lies between the braces and within no token, in a section of the kind
if the class has one, and otherwise behind everything in the class, where the text before the member
opens a new section of the kind. -/
theorem Snapshot.members_land_in_their_section {s : Snapshot} (hs : s.IsKeyed) {path : String}
    (hpath : path ≠ "") {f : ParsedFile} (hf : s.find? path = some f)
    (hlength : f.text.length ≤ lastOffset) {id : Nat} {k : ClassSymbol}
    (hk : f.class? id = some k) (spec : AccessSpec) :
    ∃ x, s.memberPoint? path id spec = some x ∧
      ∃ t, f.node? k.node = some t ∧ f.Takes t k spec x := by
  have hcollected := f.symbols_eq ▸ f.collected_symbolTable
  obtain ⟨p, t, ht, hclass⟩ := hcollected.classes k (List.mem_of_getElem? hk)
  have hnode : f.node? k.node = some t := by
    obtain ⟨-, key, lbrace, rbrace, scope, -, rfl⟩ := hclass
    exact (SourceCode.isRead_of_ofText_eq_ok f.isReading).numbered t ht.mem_nodes
  refine ⟨f.memberPoint k spec, ?_, t, hnode, ?_⟩
  · rw [memberPoint?, hf]
    show (f.class? id).bind _ = _
    rw [hk]
    rfl
  · exact ParsedFile.takes_memberPoint (hs path f hf ▸ hpath) hlength ht.mem_nodes hclass spec

/-- A class with slots and, behind them, with a class of its own: a slot for all is declared behind
the one that is there, and a protected member right before the row of the closing brace, behind a
label of its own. -/
theorem Snapshot.members_land_in_their_section_of_outer :
    let t := "class A \x7b\npublic slots:\n void f();\nprivate:\n class B \x7b int x; \x7d;\n\x7d;"
    ∃ f k, ParsedFile.parse "a.h" 0 t.toList = .ok f ∧ f.text.length ≤ lastOffset ∧
      f.class? 0 = some k ∧ k.name = "A" ∧
      (∃ x, (add .empty f).memberPoint? "a.h" 0 .pubSlots = some x ∧ x.offsetIn f.text = 34 ∧
        ∃ t, f.node? k.node = some t ∧ f.Takes t k .pubSlots x) ∧
      ∃ x, (add .empty f).memberPoint? "a.h" 0 .prot = some x ∧ x.offsetIn f.text = 65 ∧
        x.before = "protected:\n" ∧ (∀ s ∈ k.sections, ¬s.IsOf .prot) ∧
        ∃ t, f.node? k.node = some t ∧ f.Takes t k .prot x := by
  intro t
  obtain ⟨f, hf, hpath, hlength, hclass, hslots, hprot⟩ :
      ∃ f, ParsedFile.parse "a.h" 0 t.toList = .ok f ∧ f.path = "a.h" ∧
      f.text.length ≤ lastOffset ∧
      (f.class? 0).map (fun k => (k.name, decide (∀ s ∈ k.sections, ¬s.IsOf .prot))) =
        some ("A", true) ∧
      ((add .empty f).memberPoint? "a.h" 0 .pubSlots).map (·.offsetIn f.text) = some 34 ∧
      ((add .empty f).memberPoint? "a.h" 0 .prot).map (fun x => (x.offsetIn f.text, x.before)) =
        some (65, "protected:\n") :=
    exists_of_map_decide (by decide +kernel)
  obtain ⟨k, hk, hclass⟩ := Option.map_eq_some_iff.1 hclass
  obtain ⟨hname, hno⟩ := Prod.mk.inj hclass
  have hkeyed : (add .empty f).IsKeyed := Snapshot.isKeyed_empty.add f
  have hfind : (add .empty f).find? "a.h" = some f := hpath ▸ NameMap.find?_insert_self _ _ _
  obtain ⟨x, hx, hslotsTakes⟩ :=
    members_land_in_their_section hkeyed (by decide) hfind hlength hk .pubSlots
  obtain ⟨y, hy, hprotTakes⟩ :=
    members_land_in_their_section hkeyed (by decide) hfind hlength hk .prot
  rw [hx] at hslots
  rw [hy] at hprot
  obtain ⟨hoffset, hbefore⟩ := Prod.mk.inj (Option.some.inj hprot)
  exact ⟨f, k, hf, hlength, hk, hname, ⟨x, hx, Option.some.inj hslots, hslotsTakes⟩,
    ⟨y, hy, hoffset, hbefore, of_decide_eq_true hno, hprotTakes⟩⟩

end Mend
