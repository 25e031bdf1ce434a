import Mend.Proofs.EnoughRounds
import Mend.Proofs.SourcePositions
import Mend.Proofs.TwinDeclarations

/-!
# Reading ends

Reading a text comes to an end, with a tree or with an error.  The pieces that a text is split into
take at least one character each, the rounds of every loop take at least one token each, and the
parsers call each other only after a token was taken; so bounding the rounds, as the definitions do,
cuts nothing off.  An error points at what it is about: the character that begins nothing, the
delimiter that is not closed, the token that does not belong there, or the end of the text.

## Main definitions

* `Lexeme.Fill` — pieces that make up a text from some offset on.
* `SyntaxError.PointsInto` — the places in a text that errors are about.
* `Parse.Progresses`, `Grammar.LoopsProgress` — loops of which every round takes a token.

## Main results

* `Parse.Progresses.items_run_eq`, `Parse.Progresses.rounds_run_eq` — more rounds do the same.
* `Grammar.loopsProgress` — **every loop takes a token in each of its rounds.**
* `SourceCode.ofText_ends` — reading ends, and its errors point into the text.
-/

namespace Mend

/-! ### Pieces -/

namespace Lexeme

variable {b : Bool} {o : Nat} {c : Char} {t : Text} {ls : List Lexeme}

/-- Pieces that make up a text which lies at an offset.  None of them is empty. -/
inductive Fill : Nat → List Lexeme → Text → Prop
  /-- Nothing is left. -/
  | nil (o : Nat) : Fill o [] []
  /-- A piece, and then others. -/
  | cons {l : Lexeme} {ls : List Lexeme} {t : Text} (nonempty : l.text ≠ [])
      (rest : Fill (l.start + l.text.length) ls t) : Fill l.start (l :: ls) (l.text ++ t)

theorem restOfLine_le_length (t : Text) : restOfLine t ≤ t.length :=
  (List.takeWhile_sublist _).length_le

theorem restOfWord_le_length (t : Text) : restOfWord t ≤ t.length :=
  (List.takeWhile_sublist _).length_le

theorem restOfComment?_le_length {n : Nat} (h : restOfComment? t = some n) : n ≤ t.length := by
  fun_induction restOfComment? t generalizing n with
  | case1 => cases h
  | case2 rest =>
    cases h
    simp
  | case3 =>
    rename_i ih
    obtain ⟨m, hm, rfl⟩ := Option.map_eq_some_iff.1 h
    exact Nat.succ_le_succ (ih hm)

theorem restOfDirective_le_length (last : Char) (t : Text) : restOfDirective last t ≤ t.length := by
  fun_induction restOfDirective last t with
  | case1 => exact Nat.le_refl _
  | case2 => exact Nat.zero_le _
  | case3 =>
    rename_i ih
    exact Nat.succ_le_succ ih

theorem restOfLiteral?_le_length {q : Char} {n : Nat} (h : restOfLiteral? q t = some n) :
    n ≤ t.length := by
  fun_induction restOfLiteral? q t generalizing n with
  | case1 | case2 => cases h
  | case3 =>
    rename_i ih
    obtain ⟨m, hm, rfl⟩ := Option.map_eq_some_iff.1 h
    exact Nat.add_le_add_right (ih hm) 2
  | case4 =>
    cases h
    exact Nat.succ_le_succ (Nat.zero_le _)
  | case5 =>
    rename_i ih
    obtain ⟨m, hm, rfl⟩ := Option.map_eq_some_iff.1 h
    exact Nat.succ_le_succ (ih hm)

theorem restOfNumber_le_length (hex : Bool) (last : Char) (t : Text) :
    restOfNumber hex last t ≤ t.length := by
  fun_induction restOfNumber hex last t with
  | case1 => exact Nat.le_refl _
  | case2 =>
    rename_i ih
    exact Nat.succ_le_succ ih
  | case3 => exact Nat.zero_le _

theorem scanPunctuator?_le_length {k : TokenKind} {n : Nat}
    (h : scanPunctuator? c t = some (k, n)) : n ≤ t.length := by
  obtain ⟨m, -, hm⟩ := List.exists_of_findSome?_eq_some h
  split at hm
  next hle =>
    obtain ⟨k', -, hk'⟩ := Option.map_eq_some_iff.1 hm
    cases hk'
    exact hle
  next => cases hm

/-- **A piece does not reach beyond the end of the text.** -/
theorem scan_le_length {k : LexemeClass} {n : Nat} (h : scan b c t = .ok (k, n)) :
    n ≤ t.length := by
  rw [scan] at h
  split at h
  · cases h
    exact Nat.zero_le _
  split at h
  · cases h
    exact Nat.zero_le _
  split at h
  · cases h
    exact restOfLine_le_length t
  split at h
  next hcomment =>
    split at h
    next m hm =>
      cases h
      obtain ⟨u, rfl⟩ := List.head?_eq_some_iff.1 hcomment.2
      exact Nat.succ_le_succ (restOfComment?_le_length hm)
    next => cases h
  split at h
  · cases h
    exact restOfDirective_le_length c t
  iterate 2
    split at h
    · split at h
      next m hm =>
        cases h
        exact restOfLiteral?_le_length hm
      next => cases h
  split at h
  · cases h
    exact restOfNumber_le_length _ c t
  split at h
  · cases h
    exact restOfWord_le_length t
  split at h
  next hm =>
    cases h
    exact scanPunctuator?_le_length hm
  next => cases h

/-- **The pieces of a text make it up, and none of them is empty.** -/
theorem fill_of_splitFrom (h : splitFrom b o t = .ok ls) : Fill o ls t := by
  fun_induction splitFrom b o t generalizing ls with
  | case1 =>
    cases h
    exact .nil _
  | case2 | case3 | case4 => cases h
  | case5 _ o c rest kind n _ text _ hrest =>
    rename_i ih
    cases h
    have hfill : Fill o (⟨kind, o, text⟩ :: _) (text ++ rest.drop n) :=
      .cons (l := ⟨kind, o, text⟩) (List.cons_ne_nil _ _) (ih hrest)
    rwa [show text ++ rest.drop n = c :: rest by simp [text]] at hfill

/-- The error that a fault is, at a character and its offset. -/
def Fault.toError (c : Char) (o : Nat) : Fault → SyntaxError
  | .unexpectedChar => .unexpectedChar c o
  | .unterminated what => .unterminated what o

/-- A text that cannot be split falls into pieces up to the place of the fault. -/
theorem exists_fault_of_splitFrom {e : SyntaxError} (h : splitFrom b o t = .error e) :
    ∃ ls pre b' c rest fault, t = pre ++ c :: rest ∧ Fill o ls pre ∧
      scan b' c rest = .error fault ∧ e = fault.toError c (o + pre.length) := by
  fun_induction splitFrom b o t with
  | case1 => cases h
  | case2 b o c rest hscan =>
    cases h
    exact ⟨[], [], b, c, rest, _, rfl, .nil o, hscan, rfl⟩
  | case3 b o c rest what hscan =>
    cases h
    exact ⟨[], [], b, c, rest, _, rfl, .nil o, hscan, rfl⟩
  | case4 b o c rest kind n hscan text e' hrest ih =>
    cases h
    obtain ⟨ls, pre, b', c', rest', fault, hdrop, hfill, hfault, he⟩ := ih hrest
    refine ⟨⟨kind, o, text⟩ :: ls, text ++ pre, b', c', rest', fault, ?_,
      .cons (l := ⟨kind, o, text⟩) (List.cons_ne_nil _ _) hfill, hfault, ?_⟩
    · rw [List.append_assoc, ← hdrop]
      simp [text]
    · rw [he, List.length_append, Nat.add_assoc]
  | case5 => cases h

end Lexeme

/-! ### Errors -/

/-- How something that has to be closed again is opened. -/
def Delimited.opening : Delimited → Text
  | .blockComment => ['/', '*']
  | .string => ['\x22']
  | .character => ['\x27']

theorem Lexeme.opening_isPrefix_of_scan {b : Bool} {c : Char} {t : Text} {what : Delimited}
    (h : scan b c t = .error (.unterminated what)) : what.opening <+: c :: t := by
  rw [scan] at h
  iterate 3
    split at h
    · cases h
  split at h
  next hcomment =>
    split at h
    · cases h
    · cases h
      obtain ⟨u, rfl⟩ := List.head?_eq_some_iff.1 hcomment.2
      exact ⟨u, by rw [hcomment.1]; rfl⟩
  split at h
  · cases h
  iterate 2
    split at h
    next hquote =>
      split at h
      · cases h
      · cases h
        exact ⟨t, by rw [hquote]; rfl⟩
  iterate 2
    split at h
    · cases h
  split at h <;> cases h

namespace SyntaxError

/-- The places in a text that errors are about. -/
inductive PointsInto (t : Text) : SyntaxError → Prop
  /-- The character that begins nothing, behind whole pieces. -/
  | unexpectedChar {ls : List Lexeme} {pre rest : Text} {b : Bool} {c : Char}
      (text_eq : t = pre ++ c :: rest) (pieces : Lexeme.Fill 0 ls pre)
      (fault : Lexeme.scan b c rest = .error .unexpectedChar) :
      PointsInto t (.unexpectedChar c pre.length)
  /-- The delimiter that opens what does not end, behind whole pieces. -/
  | unterminated {ls : List Lexeme} {pre rest : Text} {b : Bool} {c : Char} {what : Delimited}
      (text_eq : t = pre ++ c :: rest) (pieces : Lexeme.Fill 0 ls pre)
      (opening : what.opening <+: c :: rest)
      (fault : Lexeme.scan b c rest = .error (.unterminated what)) :
      PointsInto t (.unterminated what pre.length)
  /-- The start of a token of the text. -/
  | found {lexed : Lexed} {token : Token} (tokens : Lexed.ofText t = .ok lexed)
      (mem : token ∈ lexed.tokens) (what : Expectation) :
      PointsInto t (.expected what (some token.spelling) token.start)
  /-- The end of the text, behind all its tokens. -/
  | ended {lexed : Lexed} (tokens : Lexed.ofText t = .ok lexed) (what : Expectation) :
      PointsInto t (.expected what none t.length)

theorem PointsInto.offset_le {t : Text} {e : SyntaxError} (h : e.PointsInto t) :
    e.offset ≤ t.length := by
  cases h with
  | unexpectedChar ht | unterminated ht =>
    rw [ht, List.length_append]
    exact Nat.le_add_right _ _
  | found hlexed hmem =>
    have hspan := (Lexed.inOrder_tokens hlexed).of_mem (List.mem_map_of_mem hmem)
    exact Nat.le_trans hspan.2.1 hspan.2.2
  | ended => exact Nat.le_refl _

end SyntaxError

/-! ### Loops -/

namespace Parse

open TokenStream

variable {α σ : Type} {s : TokenStream}

/-- A loop that goes on only while tokens are left, and that takes one of them in each of its
rounds. -/
def Progresses (more : TokenStream → Bool) (round : Parse α) : Prop :=
  ∀ s, more s = true → s.rest ≠ [] ∧ round.Shrinks s

namespace Progresses

/-- **A loop that collects items does the same in any number of rounds that is enough.** -/
theorem items_run_eq {more : TokenStream → Bool} {item : Parse α} (h : Progresses more item)
    {n m : Nat} (hn : s.rest.length ≤ n) (hm : s.rest.length ≤ m) :
    (items more item n).run s = (items more item m).run s := by
  -- when there is no more, it does not matter how many rounds are left
  have hstop {s : TokenStream} (hmore : more s = false) (k : Nat) :
      (items more item k).run s = .ok ([], s) := items_yields_nil hmore k
  induction n generalizing m s with
  | zero =>
    have hmore : more s = false := Bool.eq_false_iff.2 fun hmore =>
      (h s hmore).1 (List.eq_nil_of_length_eq_zero (Nat.le_zero.1 hn))
    rw [hstop hmore, hstop hmore]
  | succ n ih =>
    by_cases hmore : more s = true
    · obtain ⟨hne, hshrinks⟩ := h s hmore
      have hpos := List.length_pos_of_ne_nil hne
      obtain ⟨m, rfl⟩ := Nat.exists_eq_succ_of_ne_zero (Nat.ne_of_gt (Nat.lt_of_lt_of_le hpos hm))
      have hround (k : Nat) : (items more item (k + 1)).run s =
          (item >>= fun x => items more item k >>= fun xs => pure (x :: xs)).run s := by
        show (if more s = true then _ else _ : Parse (List α)).run s = _
        rw [if_pos hmore]
      rw [hround, hround]
      refine run_bind_congr rfl (hshrinks.imp fun x s₁ hlt => ?_)
      exact run_bind_congr (ih (by omega) (by omega)) fun _ _ _ => rfl
    · rw [hstop (Bool.eq_false_iff.2 hmore), hstop (Bool.eq_false_iff.2 hmore)]

/-- **A loop that changes a value does the same in any number of rounds that is enough.** -/
theorem rounds_run_eq {more : σ → TokenStream → Bool} {step : σ → Parse σ}
    (h : ∀ x, Progresses (more x) (step x)) {n m : Nat} (x : σ) (hn : s.rest.length ≤ n)
    (hm : s.rest.length ≤ m) : (rounds more step n x).run s = (rounds more step m x).run s := by
  have hstop {x : σ} {s : TokenStream} (hmore : more x s = false) (k : Nat) :
      (rounds more step k x).run s = .ok (x, s) := rounds_yields_of_not_more hmore k
  induction n generalizing m s x with
  | zero =>
    have hmore : more x s = false := Bool.eq_false_iff.2 fun hmore =>
      (h x s hmore).1 (List.eq_nil_of_length_eq_zero (Nat.le_zero.1 hn))
    rw [hstop hmore, hstop hmore]
  | succ n ih =>
    by_cases hmore : more x s = true
    · obtain ⟨hne, hshrinks⟩ := h x s hmore
      have hpos := List.length_pos_of_ne_nil hne
      obtain ⟨m, rfl⟩ := Nat.exists_eq_succ_of_ne_zero (Nat.ne_of_gt (Nat.lt_of_lt_of_le hpos hm))
      have hround (k : Nat) : (rounds more step (k + 1) x).run s =
          (step x >>= rounds more step k).run s := by
        show (if more x s = true then _ else _ : Parse σ).run s = _
        rw [if_pos hmore]
      rw [hround, hround]
      exact run_bind_congr rfl (hshrinks.imp fun y s₁ hlt => ih y (by omega) (by omega))
    · rw [hstop (Bool.eq_false_iff.2 hmore), hstop (Bool.eq_false_iff.2 hmore)]

end Progresses

/-- Enumerators are read alike in any number of rounds that is enough. -/
theorem enumerators_run_eq {g : Grammar} (hg : g.IsSound) {n m : Nat} (hn : s.rest.length < n)
    (hm : s.rest.length < m) : (enumerators g n).run s = (enumerators g m).run s := by
  induction n generalizing m s with
  | zero => omega
  | succ n ih =>
    obtain ⟨m, rfl⟩ := Nat.exists_eq_succ_of_ne_zero (Nat.ne_of_gt (Nat.zero_lt_of_lt hm))
    by_cases hend : s.isAt .rBrace = true
    · have hround (k : Nat) : (enumerators g (k + 1)).run s = .ok ([], s) := by
        show (if s.isAt .rBrace = true then _ else _ : Parse (List PieceTree)).run s = _
        rw [if_pos hend]
        rfl
      rw [hround, hround]
    · have hround (k : Nat) : (enumerators g (k + 1)).run s =
          (enumerator g >>= fun e => eat? .comma >>= fun comma =>
            if comma.isSome then enumerators g k >>= fun es => pure (e :: es)
            else pure [e]).run s := by
        show (if s.isAt .rBrace = true then _ else _ : Parse (List PieceTree)).run s = _
        rw [if_neg hend]
      rw [hround, hround]
      refine run_bind_congr rfl ((enumerator_ensures hg).imp fun e s₁ he => ?_)
      have hlt := he.1.takes.length_lt (by simp)
      refine run_bind_congr rfl ((eat?_ensures .comma).imp fun comma s₂ hcomma => ?_)
      have hle := hcomma.length_le
      split
      · exact run_bind_congr (ih (by omega) (by omega)) fun _ _ _ => rfl
      · rfl

end Parse

/-! ### The loops of the parsers -/

namespace Grammar

open Parse

/-- Every loop of the parsers takes a token in each of its rounds. -/
structure LoopsProgress (g : Grammar) : Prop where
  /-- The qualifiers of a name. -/
  qualifiers : Progresses isQualifier qualifier
  /-- The operators before an operand. -/
  operators : Progresses isUnaryOperator advance
  /-- The operators after an operand. -/
  suffixes : ∀ operand, Progresses isSuffix (suffix g operand)
  /-- The operands of binary operators. -/
  operands : ∀ level n (left : PieceTree),
    Progresses (fun s => s.next?.bind TokenKind.precedence? == some level) (do
      let operator ← advance
      let right ← binaryLevel g n
      close (.binary operator) left.label.first [left, right])
  /-- The arguments of a call. -/
  arguments : Progresses (·.isAt .comma) (do let _ ← advance; g.assignment)
  /-- The parameters of a function. -/
  parameters : Progresses (·.isAt .comma) (do let _ ← advance; parameter g)
  /-- The declarators of a declaration. -/
  declarators : Progresses (·.isAt .comma) (do let _ ← advance; return (← declarator g).1)
  /-- The specifiers of a declaration. -/
  specifiers : ∀ found : List PieceTree × Bool, Progresses (isSpecifierNext found.2) (do
    let (t, namesType) ← specifier g
    return (t :: found.1, found.2 || namesType))
  /-- The pointer and reference signs of a declarator. -/
  pointers : ∀ seen, Progresses (isPointerNext seen) (do return (← advance) :: seen)
  /-- The array bounds of a declarator. -/
  bounds : Progresses (·.isAt .lBracket) (do let _ ← advance; skipTo .rBracket; expect .rBracket)
  /-- The tokens that are passed over. -/
  skipped : ∀ k, Progresses (·.isBefore k) advance
  /-- The enumerators of an enumeration, which are read in at most so many rounds. -/
  enumerators : ∀ (s : TokenStream) (n m : Nat), s.rest.length < n → s.rest.length < m →
    (enumerator g).Shrinks s ∧ (enumerators g n).run s = (enumerators g m).run s
  /-- The members of a class. -/
  members : Progresses (·.isBefore .rBrace) (member g)
  /-- The statements of a block. -/
  statements : Progresses (·.isBefore .rBrace) g.statement
  /-- The declarations of a namespace. -/
  declarations : Progresses (·.isBefore .rBrace) g.declaration
  /-- The declarations of a file. -/
  file : Progresses (fun s => !s.rest.isEmpty) g.declaration

/-- **Every loop takes a token in each of its rounds.** -/
theorem loopsProgress (n : Nat) : (forTokens n).LoopsProgress := by
  have hg := isSound_forTokens n
  have hbound (s : TokenStream) : (do
      let _ ← skipTo .rBracket
      expect .rBracket : Parse Nat).Lessens s :=
    (skipTo_ensures _).bind fun _ _ h₁ =>
      (expect_ensures _).imp fun _ _ h₂ => (h₁.append h₂).length_le
  have hspecifier (s : TokenStream) (found : List PieceTree × Bool) : (do
      let (t, namesType) ← specifier (forTokens n)
      return (t :: found.1, found.2 || namesType)).Shrinks s :=
    (specifier_ensures hg).bind fun _ _ h => .pure (h.takes.length_lt (by simp))
  have hspecifierNext {s : TokenStream} {typeSeen : Bool}
      (h : isSpecifierNext typeSeen s = true) : s.rest ≠ [] := by
    intro hnil
    simp [isSpecifierNext, TokenStream.next?, hnil] at h
  have hoperator {s : TokenStream} {level : Nat}
      (h : (s.next?.bind TokenKind.precedence? == some level) = true) : s.rest ≠ [] := by
    intro hnil
    simp [TokenStream.next?, hnil] at h
  have hcomma {α : Type} {p : Parse α} (h : ∀ s, p.Lessens s) :
      Progresses (·.isAt .comma) (advance >>= fun _ => p) := fun s hs =>
    have hne := TokenStream.rest_ne_nil_of_isAt hs
    ⟨hne, advance_bind_shrinks hne fun _ => h⟩
  exact
    { qualifiers := fun s hs => ⟨fun hnil => by simp [isQualifier, hnil] at hs,
        (qualifier_ensures hs).imp fun _ _ h => h.length_lt (by simp)⟩
      operators := fun s hs => ⟨rest_ne_nil_of_isUnaryOperator hs,
        Twin.Matches.advance_shrinks (rest_ne_nil_of_isUnaryOperator hs)⟩
      suffixes := fun operand s hs => ⟨rest_ne_nil_of_isSuffix hs,
        Twin.Matches.suffix_shrinks hg operand hs⟩
      operands := fun level k left s hs => ⟨hoperator hs,
        advance_bind_shrinks (hoperator hs) fun _ s₁ =>
          (binaryLevel_ensures hg k s₁).bind fun _ _ h₁ =>
            close_ensures_eq.imp fun _ _ h => h ▸ h₁.takes.length_le⟩
      arguments := hcomma hg.assignment_lessens
      parameters := hcomma (Twin.Matches.parameter_lessens hg)
      declarators := hcomma fun _ => (declarator_ensures hg).bind fun _ _ h =>
        .pure h.takes.length_le
      specifiers := fun found s hs => ⟨hspecifierNext hs, hspecifier s found⟩
      pointers := fun seen s hs => ⟨rest_ne_nil_of_isPointerNext hs,
        advance_bind_shrinks (rest_ne_nil_of_isPointerNext hs) fun _ _ => .pure (Nat.le_refl _)⟩
      bounds := fun s hs => ⟨TokenStream.rest_ne_nil_of_isAt hs,
        advance_bind_shrinks (TokenStream.rest_ne_nil_of_isAt hs) fun _ => hbound⟩
      skipped := fun k s hs => ⟨TokenStream.rest_ne_nil_of_isBefore hs,
        Twin.Matches.advance_shrinks (TokenStream.rest_ne_nil_of_isBefore hs)⟩
      enumerators := fun s k m hk hm => ⟨(enumerator_ensures hg).imp fun _ _ h =>
        h.1.takes.length_lt (by simp), enumerators_run_eq hg hk hm⟩
      members := fun s hs => ⟨TokenStream.rest_ne_nil_of_isBefore hs,
        (member_ensures hg).imp fun _ _ h => h.1.takes.length_lt (by simp)⟩
      statements := fun s hs => ⟨TokenStream.rest_ne_nil_of_isBefore hs,
        (hg.statement s).imp fun _ _ h => h.1.takes.length_lt (by simp)⟩
      declarations := fun s hs => ⟨TokenStream.rest_ne_nil_of_isBefore hs,
        (hg.declaration s).imp fun _ _ h => h.takes.length_lt (by simp)⟩
      file := fun s hs => ⟨by simpa using hs,
        (hg.declaration s).imp fun _ _ h => h.takes.length_lt (by simp)⟩ }

end Grammar

/-! ### Reading a text -/

namespace SourceCode

/-- What has been read refers to nothing that is not there. -/
structure IsWithin (c : SourceCode) : Prop where
  /-- A token lies in the text. -/
  tokens : ∀ token ∈ c.tokens.toList, token.start ≤ token.stop ∧ token.stop ≤ c.text.length
  /-- The number of a node is its place among the nodes. -/
  nodes : ∀ u ∈ c.nodes, c.node? u.label.id = some u
  /-- A node covers tokens that exist, and so do its own tokens and its children. -/
  runs : c.tokens.toList ≠ [] → ∀ u ∈ c.nodes, u.label.first ≤ u.label.last ∧
    u.label.last < c.tokens.size ∧
    ∀ r ∈ u.label.toPiece.layout (u.children.map fun v => v.label.toPiece),
      r.first ≤ r.last ∧ r.last < c.tokens.size

/-- **What is read refers to nothing that is not there.** -/
theorem isWithin_of_ofText_eq_ok {t : Text} {c : SourceCode} (h : ofText t = .ok c) :
    c.IsWithin := by
  have hordered := isOrdered_of_ofText_eq_ok h
  obtain ⟨L, p, -, htree, rfl⟩ := ofText_eq_ok_iff.1 h
  obtain ⟨-, -, -, hlast⟩ := PieceTree.isLaid_of_ofTokens_eq_ok htree
  refine ⟨fun token htoken => ?_, fun u hu => SyntaxTree.getElem?_subtrees_ofPieces hu,
    fun hne u hu => ?_⟩
  · exact (hordered.tokens.of_mem (List.mem_map_of_mem htoken)).2
  · have hnode := hordered.tree u hu
    have hwithin := hordered.tree.subtree hu
    have hroot : (SyntaxTree.ofPieces p).label.last = p.label.last :=
      congrArg Piece.last (SyntaxTree.toPiece_label_ofPieces p)
    have hpos : 0 < L.tokens.length := List.length_pos_of_ne_nil hne
    have hlt : u.label.last < L.tokens.length := by
      rw [hroot] at hwithin
      omega
    refine ⟨hnode.first_le_last, by simpa using hlt, fun r hr => ?_⟩
    have hmap : u.children.map (fun v => v.label.toPiece) =
        (u.children.map Rose.label).map Node.toPiece := by
      rw [List.map_map]
      rfl
    rw [hmap] at hr
    obtain ⟨-, hrun, hr⟩ := hnode.inOrder.of_mem hr
    exact ⟨hrun, by simpa using Nat.lt_of_lt_of_le hr hlt⟩

/-- **An error points at what it is about.** -/
theorem pointsInto_of_ofText_eq_error {t : Text} {e : SyntaxError} (h : ofText t = .error e) :
    e.PointsInto t := by
  rw [ofText_eq] at h
  split at h
  next e' hlexed =>
    cases h
    rw [Lexed.ofText] at hlexed
    split at hlexed
    next => cases hlexed
    next hsplit =>
      cases hlexed
      obtain ⟨ls, pre, b, c, rest, fault, ht, hfill, hfault, rfl⟩ :=
        Lexeme.exists_fault_of_splitFrom hsplit
      rw [Nat.zero_add]
      cases fault with
      | unexpectedChar => exact .unexpectedChar ht hfill hfault
      | unterminated what =>
        exact .unterminated ht hfill (Lexeme.opening_isPrefix_of_scan hfault) hfault
  next lexed hlexed =>
    split at h
    next htree =>
      cases h
      obtain ⟨⟨rest, i, length⟩, what, htail, rfl⟩ := PieceTree.exists_isTail_of_ofTokens htree
      cases rest with
      | nil =>
        rw [show length = t.length from htail.textLength_eq]
        exact .ended hlexed what
      | cons token rest =>
        exact .found hlexed (htail.suffix.subset (List.mem_cons_self ..)) what
    next => cases h

/-- **Reading ends, and its errors point into the text.**  A text is read, or there is an error that
points at what it is about.  What is read refers to nothing that is not there.  Every piece takes a
character at least and ends with the text at the latest; every round of a loop takes a token, and
whenever the parsers call each other, fewer tokens are left; so the tree does not depend on the
number of rounds. -/
theorem ofText_ends (t : Text) :
    ((∃ c, ofText t = .ok c ∧ c.IsWithin) ∨
      ∃ e, ofText t = .error e ∧ e.PointsInto t ∧ e.offset ≤ t.length) ∧
    (∀ b c rest k n, Lexeme.scan b c rest = .ok (k, n) → n ≤ rest.length) ∧
    (∀ ls, Lexeme.split t = .ok ls → Lexeme.Fill 0 ls t) ∧
    (∀ lexed, Lexed.ofText t = .ok lexed → ∀ n, lexed.tokens.length < n →
      (Parse.file (Grammar.forTokens n)).run ⟨lexed.tokens, 0, t.length⟩ =
        (Parse.file (Grammar.forTokens (lexed.tokens.length + 1))).run
          ⟨lexed.tokens, 0, t.length⟩) ∧
    (∀ n, (Grammar.forTokens n).LoopsProgress) ∧
    ∀ n (g g' : Grammar), g.Covers n g' → g.next.Covers (n + 1) g'.next := by
  refine ⟨?_, fun _ _ _ _ _ => Lexeme.scan_le_length, fun _ => Lexeme.fill_of_splitFrom,
    fun lexed _ n hn => Parse.file_run_eq hn, Grammar.loopsProgress,
    fun _ _ _ => Grammar.Covers.next⟩
  cases h : ofText t with
  | ok c => exact .inl ⟨c, rfl, isWithin_of_ofText_eq_ok h⟩
  | error e =>
    have hpoints := pointsInto_of_ofText_eq_error h
    exact .inr ⟨e, rfl, hpoints, hpoints.offset_le⟩

end SourceCode

end Mend
