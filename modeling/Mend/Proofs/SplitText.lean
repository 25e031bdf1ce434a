import Mend.Proofs.LexemeStretches
import Mend.Proofs.SplitStatements
import Mend.Proofs.WovenStretches

/-!
# The text of a split statement

The pieces of an `if` statement are cut before and after the operands of its condition, at the
parenthesis behind it, and at the end of the branch.  The changes that split the statement put the
stretches between these places one after the other again, with keywords, parentheses and braces in
between.  No stretch grows together with what is put behind it, since that begins with a separator,
or with the keyword that stood there before.  So the new text falls into the same pieces.

## Main definitions

* `SplitPieces` — the pieces of a text around an operator in the condition of an `if` statement.
* `SplitPieces.nested`, `SplitPieces.ladder` — the pieces with two statements for one.
* `SplitPieces.Spells` — the pieces are those of some tokens.

## Main results

* `SplitPieces.exists_spells` — the tokens of an `if` statement are stretches of pieces.
* `Change.weave_splitAnd`, `Change.weave_splitOr` — the changes, woven into the text.
* `Lexed.exists_ofText_splitAnd`, `Lexed.exists_ofText_splitOr` — **the new text has the tokens of
  two statements.**
-/

namespace Mend

open Scrap

namespace Scrap

/-- The keyword of a statement. -/
abbrev ifWord : Scrap := ofWord (.kwIf, "if")

/-- The keyword before another branch. -/
abbrev elseWord : Scrap := ofWord (.kwElse, "else")

/-- A parenthesis before a condition. -/
abbrev lParen : Scrap := ofWord (.lParen, "(")

/-- A parenthesis after a condition. -/
abbrev rParen : Scrap := ofWord (.rParen, ")")

/-- A brace before statements. -/
abbrev lBrace : Scrap := ofWord (.lBrace, "\x7b")

/-- A brace after statements. -/
abbrev rBrace : Scrap := ofWord (.rBrace, "\x7d")

/-- A keyword and a parenthesis as they are written before a condition. -/
def opening : List Scrap := [ifWord, space, lParen]

end Scrap

/-- The pieces of a text around an operator in the condition of an `if` statement. -/
structure SplitPieces where
  /-- Those before the statement. -/
  front : List Scrap
  /-- Those between its keyword and the parenthesis. -/
  gap : List Scrap
  /-- Those between the parenthesis and the condition. -/
  indent : List Scrap
  /-- The operands before the operator. -/
  left : List Scrap
  /-- The operator, and what is around it. -/
  middle : List Scrap
  /-- The operands after the operator, up to the parenthesis behind them. -/
  right : List Scrap
  /-- Those behind that parenthesis, up to the end of the branch. -/
  body : List Scrap
  /-- Those behind the branch. -/
  rest : List Scrap

namespace SplitPieces

variable (P : SplitPieces)

/-- The statement up to its condition. -/
def head : List Scrap := ifWord :: (P.gap ++ lParen :: P.indent)

/-- The statement from the second part of its condition on. -/
def tail : List Scrap := P.right ++ rParen :: P.body

/-- All of the pieces. -/
def all : List Scrap := P.front ++ (P.head ++ (P.left ++ (P.middle ++ (P.tail ++ P.rest))))

/-- The pieces with the second statement in braces as the branch of the first one. -/
def nested : List Scrap :=
  P.front ++ (opening ++ (P.left ++ (rParen :: space :: lBrace :: lineBreak ::
    (P.head ++ (P.tail ++ (lineBreak :: rBrace :: P.rest))))))

/-- The pieces with the second statement as the other branch of the first one. -/
def ladder (separator : Scrap) : List Scrap :=
  P.front ++ (P.head ++ (P.left ++ rParen :: (P.body ++ (separator :: elseWord :: space ::
    (opening ++ (P.tail ++ P.rest))))))

/-- The pieces are those of some tokens, and they make up a text. -/
structure Spells (t : Text) (T : SplitTokens) : Prop where
  /-- The pieces follow on each other. -/
  chain : Chain true P.all []
  /-- They make up the text. -/
  chars_eq : chars P.all = t
  /-- The statement begins with its keyword. -/
  keyword : T.keyword.word = (.kwIf, "if")
  /-- The tokens before it. -/
  front : P.front.filterMap token? = T.before.map Token.word
  /-- There is no token before the parenthesis. -/
  gap : ∀ p ∈ P.gap, ¬p.IsToken
  /-- There is none behind it, either. -/
  indent : ∀ p ∈ P.indent, ¬p.IsToken
  /-- The tokens of the operands before the operator. -/
  left : P.left.filterMap token? = T.left.map Token.word
  /-- Those of the operands after the operator. -/
  right : P.right.filterMap token? = T.right.map Token.word
  /-- Those of the branch. -/
  body : P.body.filterMap token? = T.branch.map Token.word
  /-- Those behind it. -/
  rest : P.rest.filterMap token? = T.after.map Token.word
  /-- The operands before the operator begin with a token. -/
  left_head : ∃ p ∈ P.left.head?, p.IsToken
  /-- They end with one. -/
  left_last : ∃ p ∈ P.left.getLast?, p.IsToken
  /-- Those after the operator begin with one. -/
  right_head : ∃ p ∈ P.right.head?, p.IsToken
  /-- The branch ends with one. -/
  body_last : ∃ p ∈ P.body.getLast?, p.IsToken
  /-- The statement begins behind what is before it. -/
  start_eq : T.keyword.span.start = (chars P.front).length
  /-- The condition begins behind the parenthesis. -/
  left_start : ∀ x ∈ T.left.head?,
    x.span.start = T.keyword.span.start + (chars P.head).length
  /-- The operands before the operator end where their pieces do. -/
  left_stop : ∀ x ∈ T.left.getLast?,
    x.span.stop = T.keyword.span.start + (chars P.head).length + (chars P.left).length
  /-- Those after the operator begin where their pieces do. -/
  right_start : ∀ x ∈ T.right.head?, x.span.start = T.keyword.span.start +
    (chars P.head).length + (chars P.left).length + (chars P.middle).length
  /-- The parenthesis comes behind them. -/
  rparen : T.rparen.span.start = T.keyword.span.start + (chars P.head).length +
    (chars P.left).length + (chars P.middle).length + (chars P.right).length
  /-- It is a single character. -/
  rparen_stop : T.rparen.span.stop = T.rparen.span.start + 1
  /-- The branch ends where its pieces do. -/
  body_stop : ∀ x ∈ T.branch.getLast?,
    x.span.stop = T.rparen.span.stop + (chars P.body).length

variable {P} {t : Text} {T : SplitTokens} {L : Lexed} {b : Bool} {r : Text}

/-! ### Chains -/

/-- A keyword and a parenthesis are found before any operands. -/
theorem chain_opening {ps : List Scrap} (h : Chain false ps r) : Chain b (opening ++ ps) r := by
  have hparen : Chain false (lParen :: ps) r :=
    h.longest (isLongest_of_mem (by decide))
  exact hparen.blank.keyword (by decide) (by decide) (by rintro _ ⟨⟩; rfl)

/-- The statement up to its condition is found before other operands, too. -/
theorem chain_head (h : Chain b P.head r) (hindent : ∀ p ∈ P.indent, ¬p.IsToken)
    (hr : ∃ d ∈ r.head?, d ≠ '\n') (b' : Bool) (r' : Text) : Chain b' P.head r' := by
  obtain ⟨hword, h⟩ := (Chain.append_iff : Chain b (ifWord :: P.gap ++ _) r ↔ _).1 h
  cases h with | cons _ hindents
  have hparen : Chain (lineStartAfter b' (ifWord :: P.gap)) (lParen :: P.indent) r' :=
    (hindents.of_blank hindent hr r').longest (isLongest_of_mem (by decide))
  have hword : Chain b (ifWord :: P.gap) (chars (lParen :: P.indent) ++ r') :=
    hword.before_same (by decide) (by decide) _
  exact Chain.append_iff.2 ⟨hword.of_token ⟨_, rfl, _, rfl⟩ b', hparen⟩

/-- A parenthesis is found before everything. -/
theorem chain_rParen {ps : List Scrap} (h : Chain false ps r) : Chain b (rParen :: ps) r :=
  h.longest (isLongest_of_mem (by decide))

/-- **The pieces with one statement inside the other follow on each other.** -/
theorem Spells.chain_nested (h : P.Spells t T) : Chain true P.nested [] := by
  obtain ⟨hfront, hc⟩ := Chain.append_iff.1 h.chain
  obtain ⟨hhead, hc⟩ := Chain.append_iff.1 hc
  obtain ⟨hleft, hc⟩ := Chain.append_iff.1 hc
  obtain ⟨-, hc⟩ := Chain.append_iff.1 hc
  rw [tail, List.append_assoc] at hc
  obtain ⟨hright, hc⟩ := Chain.append_iff.1 hc
  cases hc with | cons _ hc
  obtain ⟨hbody, hrest⟩ := Chain.append_iff.1 hc
  rw [lineStartAfter_of_getLast? h.body_last] at hrest
  -- from the end of the text to its beginning
  have hbrace : Chain true (rBrace :: P.rest) [] :=
    hrest.longest (isLongest_of_mem (by decide))
  have hbody : Chain false (P.body ++ lineBreak :: rBrace :: P.rest) [] :=
    hbody.append_before h.body_last hbrace.newline rfl (by decide)
  have hright : Chain false (P.right ++ rParen :: (P.body ++ lineBreak :: rBrace :: P.rest)) [] :=
    Chain.append_iff.2
      ⟨(hright.of_token h.right_head _).before_same (by decide) (by decide) _, chain_rParen hbody⟩
  have hhead : Chain true (P.head ++ (P.right ++
      rParen :: (P.body ++ lineBreak :: rBrace :: P.rest))) [] := by
    obtain ⟨d, hd, hne⟩ := hleft.head?_chars_ne_newline h.left_head
    refine Chain.append_iff.2 ⟨chain_head hhead h.indent ⟨d, ?_, hne⟩ _ _, hright.of_flag _⟩
    rw [chars_append, List.append_assoc]
    exact List.mem_head?_append_of_mem_head? hd
  have hleft : Chain false (P.left ++ rParen :: space :: lBrace :: lineBreak :: (P.head ++
      (P.right ++ rParen :: (P.body ++ lineBreak :: rBrace :: P.rest)))) [] :=
    (hleft.of_token h.left_head _).append_before h.left_last
      (chain_rParen (Chain.blank (hhead.newline.longest (isLongest_of_mem (by decide))))) rfl
      (by decide)
  have hfront : Chain true P.front (chars (opening ++ (P.left ++ rParen :: space :: lBrace ::
      lineBreak :: (P.head ++ (P.right ++ rParen :: (P.body ++ lineBreak :: rBrace :: P.rest)))))
        ++ []) :=
    hfront.congr (.inl ⟨'i', rfl, by decide⟩) fun _ _ _ _ => .cons 'i' (.cons 'f' (.zero _ _ _))
  have hall := Chain.append_iff.2 ⟨hfront, chain_opening hleft⟩
  simpa [nested, tail] using hall

/-- **The pieces with one statement after the other follow on each other.** -/
theorem Spells.chain_ladder (h : P.Spells t T) {separator : Scrap}
    (hs : separator = space ∨ separator = lineBreak) : Chain true (P.ladder separator) [] := by
  have hc := h.chain
  rw [all, ← List.append_assoc, ← List.append_assoc] at hc
  obtain ⟨hfront, hc⟩ := Chain.append_iff.1 hc
  obtain ⟨-, hc⟩ := Chain.append_iff.1 hc
  -- from the end of the text to its beginning
  have hsplit : P.tail ++ P.rest = P.right ++ rParen :: (P.body ++ P.rest) :=
    List.append_assoc ..
  rw [hsplit] at hc
  have htail : Chain false (P.tail ++ P.rest) [] := by
    rw [hsplit]
    exact hc.of_token (h.right_head.imp fun _ hp =>
      ⟨List.mem_head?_append_of_mem_head? hp.1, hp.2⟩) _
  obtain ⟨-, hc⟩ := Chain.append_iff.1 hc
  cases hc with | cons _ hc
  obtain ⟨hbody, -⟩ := Chain.append_iff.1 hc
  have helse (b : Bool) : Chain b (elseWord :: space :: (opening ++ (P.tail ++ P.rest))) [] :=
    (chain_opening htail).blank.keyword (by decide) (by decide) (by rintro _ ⟨⟩; rfl)
  have hbody : Chain false (P.body ++ separator :: elseWord :: space ::
      (opening ++ (P.tail ++ P.rest))) [] := by
    rcases hs with rfl | rfl
    · exact hbody.append_before h.body_last (helse _).blank rfl (by decide)
    · exact hbody.append_before h.body_last (helse _).newline rfl (by decide)
  have hlast : ∃ p ∈ (P.front ++ P.head ++ P.left).getLast?, p.IsToken :=
    h.left_last.imp fun _ hp => ⟨List.mem_getLast?_append_of_mem_getLast? hp.1, hp.2⟩
  have hall := hfront.append_before hlast (chain_rParen hbody) rfl (by decide)
  simpa [ladder] using hall

/-! ### Words -/

/-- The words with one statement inside the other. -/
theorem Spells.filterMap_nested (h : P.Spells t T) : P.nested.filterMap token? = T.nestedWords := by
  have hgap := filterMap_token?_eq_nil h.gap
  have hindent := filterMap_token?_eq_nil h.indent
  simp [nested, head, tail, opening, SplitTokens.nestedWords, ifWords, List.filterMap_cons,
    token?_space, token?_lineBreak, h.front, h.left, h.right, h.body, h.rest, hgap, hindent]

/-- The words with one statement after the other. -/
theorem Spells.filterMap_ladder (h : P.Spells t T) {separator : Scrap}
    (hs : separator = space ∨ separator = lineBreak) :
    (P.ladder separator).filterMap token? = T.ladderWords := by
  have hgap := filterMap_token?_eq_nil h.gap
  have hindent := filterMap_token?_eq_nil h.indent
  have hnone : separator.token? = none := by rcases hs with rfl | rfl <;> rfl
  simp [ladder, head, tail, opening, SplitTokens.ladderWords, ifWords, List.filterMap_cons,
    token?_space, hnone, h.front, h.left, h.right, h.body, h.rest, hgap, hindent]

end SplitPieces

/-! ### Pieces of tokens -/

open Lexeme in
/-- **The tokens of an `if` statement are stretches of pieces.** -/
theorem SplitPieces.exists_spells {t : Text} {T : SplitTokens} {L : Lexed}
    (hL : Lexed.ofText t = .ok L) (hT : L.tokens = T.tokens) (hkeyword : T.keyword.kind = .kwIf)
    (hlparen : T.lparen.kind = .lParen) (hrparen : T.rparen.kind = .rParen) (hleft : T.left ≠ [])
    (hright : T.right ≠ []) (hbranch : T.branch ≠ []) : ∃ P : SplitPieces, P.Spells t T := by
  obtain ⟨ls, hchain, hfill, htokens⟩ := exists_chain_of_ofText hL
  rw [hT, SplitTokens.tokens, SplitTokens.onward] at htokens
  -- the pieces that the tokens are
  obtain ⟨front, lk, rest, rfl, hfront, hlk, hrest⟩ := exists_of_filterMap_token? htokens.symm
  rw [← List.nil_append (T.lparen :: _)] at hrest
  obtain ⟨gap, llp, rest, rfl, hgap, hllp, hrest⟩ := exists_of_filterMap_token? hrest
  rw [← List.nil_append (T.left ++ _)] at hrest
  obtain ⟨indent, left, rest, rfl, hindent, hleft', hrest⟩ :=
    exists_stretch hrest hleft
  rw [← List.nil_append (T.operator :: _)] at hrest
  obtain ⟨behind, lo, rest, rfl, hbehind, hlo, hrest⟩ := exists_of_filterMap_token? hrest
  rw [← List.nil_append (T.right ++ _)] at hrest
  obtain ⟨ahead, right, rest, rfl, hahead, hright', hrest⟩ :=
    exists_stretch hrest hright
  rw [← List.nil_append (T.rparen :: _)] at hrest
  obtain ⟨close, lrp, rest, rfl, hclose, hlrp, hrest⟩ := exists_of_filterMap_token? hrest
  rw [← List.nil_append (T.branch ++ _)] at hrest
  obtain ⟨lead, branch, rest, rfl, hlead, hbranch', hrest⟩ :=
    exists_stretch hrest hbranch
  have hscrapk : lk.scrap = ifWord :=
    scrap_eq_of_keyword hchain hlk (by simp) hkeyword rfl (by decide)
  have hscraplp : llp.scrap = lParen :=
    scrap_eq_of_punctuator hchain hllp (by simp) hlparen (by decide) (by decide)
  have hscraprp : lrp.scrap = rParen :=
    scrap_eq_of_punctuator hchain hlrp (by simp) hrparen (by decide) (by decide)
  let P : SplitPieces :=
    { front := front.map scrap
      gap := gap.map scrap
      indent := indent.map scrap
      left := left.map scrap
      middle := (behind ++ lo :: ahead).map scrap
      right := right.map scrap ++ close.map scrap
      body := lead.map scrap ++ branch.map scrap
      rest := rest.map scrap }
  have hall : List.map scrap (front ++ lk :: (gap ++ llp :: (indent ++ (left ++ (behind ++
      lo :: (ahead ++ (right ++ (close ++ lrp :: (lead ++ (branch ++ rest))))))))))
        = P.all := by
    simp [P, all, head, tail, hscrapk, hscraplp, hscraprp]
  have hspank := span_eq_of_fill front _ hfill rfl hlk
  have hspanrp := span_eq_of_fill (front ++ lk :: (gap ++ llp :: (indent ++ (left ++ (behind ++
    lo :: (ahead ++ (right ++ close))))))) (lead ++ (branch ++ rest)) hfill (by simp) hlrp
  refine ⟨P,
    { chain := hall ▸ hchain
      chars_eq := by rw [← hall, chars_of_fill hfill]
      keyword := word_eq_of_scrap hlk hscrapk
      front := by rw [filterMap_token?_map_scrap, hfront]
      gap := not_isToken_of_filterMap hgap
      indent := not_isToken_of_filterMap hindent
      left := by rw [filterMap_token?_map_scrap, hleft'.tokens_eq]
      right := by
        rw [List.filterMap_append, filterMap_token?_map_scrap, filterMap_token?_map_scrap,
          hright'.tokens_eq, hclose, List.map_nil, List.append_nil]
      body := by
        rw [List.filterMap_append, filterMap_token?_map_scrap, filterMap_token?_map_scrap,
          hbranch'.tokens_eq, hlead, List.map_nil, List.nil_append]
      rest := by rw [filterMap_token?_map_scrap, hrest]
      left_head := hleft'.exists_head hleft
      left_last := hleft'.exists_last hleft
      right_head := (hright'.exists_head hright).imp fun _ hp =>
        ⟨List.mem_head?_append_of_mem_head? hp.1, hp.2⟩
      body_last := (hbranch'.exists_last hbranch).imp fun _ hp =>
        ⟨List.mem_getLast?_append_of_mem_getLast? hp.1, hp.2⟩
      start_eq := congrArg Span.start hspank
      left_start := fun x hx => ?_
      left_stop := fun x hx => ?_
      right_start := fun x hx => ?_
      rparen := ?_
      rparen_stop := ?_
      body_stop := fun x hx => ?_ }⟩
  · rw [hleft'.start_eq hx (front ++ lk :: (gap ++ llp :: indent)) (behind ++ lo :: (ahead ++
      (right ++ (close ++ lrp :: (lead ++ (branch ++ rest)))))) hfill (by simp), hspank]
    simp [hscrapk, hscraplp, P, head]
  · rw [hleft'.stop_eq hx (front ++ lk :: (gap ++ llp :: indent)) (behind ++ lo :: (ahead ++
      (right ++ (close ++ lrp :: (lead ++ (branch ++ rest)))))) hfill (by simp), hspank]
    simp [hscrapk, hscraplp, P, head]
  · rw [hright'.start_eq hx (front ++ lk :: (gap ++ llp :: (indent ++ (left ++ (behind ++
      lo :: ahead))))) (close ++ lrp :: (lead ++ (branch ++ rest))) hfill (by simp), hspank]
    simp [hscrapk, hscraplp, P, head]
    omega
  · rw [hspanrp, hspank]
    simp [hscrapk, hscraplp, P, head]
    omega
  · rw [hspanrp, hscraprp]
    rfl
  · rw [hbranch'.stop_eq hx (front ++ lk :: (gap ++ llp :: (indent ++ (left ++ (behind ++
      lo :: (ahead ++ (right ++ (close ++ lrp :: lead)))))))) rest hfill (by simp), hspanrp]
    simp [P]
    omega

/-! ### Weaving -/

section

variable {F H L M R S X Q u v w : Text} {o l m r p e : Nat}

open Text in
/-- **A part of a statement moves before it**, with something before and behind the part, and
something behind the statement. -/
theorem Change.weave_splitAnd (hH : H ≠ []) (ho : o = F.length) (hl : l = o + H.length)
    (hm : m = l + L.length) (hr : r = m + M.length) (he : e = r + X.length) :
    weave [.insert o u, .move ⟨l, m⟩ o, .insert o v, .remove ⟨m, r⟩, .insert e w]
        (F ++ (H ++ (L ++ (M ++ (X ++ Q))))) =
      F ++ (u ++ (L ++ (v ++ (H ++ (X ++ (w ++ Q)))))) := by
  let put (x : Nat) : Text := (if o = x then u ++ (L ++ v) else []) ++ if e = x then w else []
  let gone (x : Nat) : Prop := l ≤ x ∧ x < r
  have hlength : 0 < H.length := List.length_pos_iff.2 hH
  have hput (x : Nat) (hx : x ≠ o ∧ x ≠ e) : put x = [] := by simp [put, hx.1.symm, hx.2.symm]
  have hslice : slice (F ++ (H ++ (L ++ (M ++ (X ++ Q))))) ⟨l, m⟩ = L := by
    have hslice := slice_append (F ++ H) L (M ++ (X ++ Q))
    rwa [List.append_assoc, List.length_append, ← ho, ← hl, ← hm] at hslice
  have hweave : weave [.insert o u, .move ⟨l, m⟩ o, .insert o v, .remove ⟨m, r⟩, .insert e w]
      (F ++ (H ++ (L ++ (M ++ (X ++ Q))))) =
        Text.weave (F ++ (H ++ (L ++ (M ++ (X ++ Q))))) put gone := by
    refine weave_congr (fun x => ?_) fun x _ => ?_
    · by_cases hx : o = x <;> simp [put, placedAt, hslice, hx]
    · simp [gone, Destroys, Span.Holds]
      omega
  have hato : put o = u ++ (L ++ v) := by
    have hne : e ≠ o := by omega
    simp [put, hne]
  have hate : put e = w := by
    have hne : o ≠ e := by omega
    simp [put, hne]
  -- the text from its beginning to its end
  rw [hweave, weave_eq_weaveFrom,
    weaveFrom_append fun x _ hx => ⟨hput x (by omega), by omega⟩, Nat.zero_add, ← ho,
    weaveFrom_append_of_put hH (fun x _ hx => hput x (by omega)) (fun x _ hx => by omega), hato,
    ← hl, weaveFrom_append_of_gone fun x _ hx => ⟨hput x (by omega), by omega⟩, ← hm,
    weaveFrom_append_of_gone fun x _ hx => ⟨hput x (by omega), by omega⟩, ← hr,
    weaveFrom_append fun x _ hx => ⟨hput x (by omega), by omega⟩, ← he,
    weaveFrom_of_forall (fun x hx => hput x (by omega)) fun x hx => by omega, hate]
  simp

open Text in
/-- **A part of a statement moves behind it**, with something before and behind the part, and what
came behind it comes once more. -/
theorem Change.weave_splitOr (hm : m = F.length) (hr : r = m + M.length) (hp : p = r + R.length)
    (he : e = p + 1 + S.length) :
    weave [.insert e u, .insert e v, .move ⟨r, p⟩ e, .insert e w, .copy ⟨p + 1, e⟩ e,
        .remove ⟨m, r⟩] (F ++ (M ++ (R ++ ')' :: (S ++ Q)))) =
      F ++ ')' :: (S ++ (u ++ (v ++ (R ++ (w ++ (S ++ Q)))))) := by
  let put (x : Nat) : Text := if e = x then u ++ (v ++ (R ++ (w ++ S))) else []
  let gone (x : Nat) : Prop := m ≤ x ∧ x < p
  have hput (x : Nat) (hx : x ≠ e) : put x = [] := if_neg hx.symm
  have hpart : slice (F ++ (M ++ (R ++ ')' :: (S ++ Q)))) ⟨r, p⟩ = R := by
    have hslice := slice_append (F ++ M) R (')' :: (S ++ Q))
    rwa [List.append_assoc, List.length_append, ← hm, ← hr, ← hp] at hslice
  have hbranch : slice (F ++ (M ++ (R ++ ')' :: (S ++ Q)))) ⟨p + 1, e⟩ = S := by
    have hslice := slice_append (F ++ (M ++ (R ++ [')']))) S Q
    have hlength : (F ++ (M ++ (R ++ [')']))).length = p + 1 := by
      simp
      omega
    rw [hlength, ← he] at hslice
    simpa using hslice
  have hweave : weave [.insert e u, .insert e v, .move ⟨r, p⟩ e, .insert e w, .copy ⟨p + 1, e⟩ e,
      .remove ⟨m, r⟩] (F ++ (M ++ (R ++ ')' :: (S ++ Q)))) =
        Text.weave (F ++ (M ++ (R ++ ')' :: (S ++ Q)))) put gone := by
    refine weave_congr (fun x => ?_) fun x _ => ?_
    · by_cases hx : e = x
      · subst hx
        simp [put, placedAt, hpart, hbranch]
      · simp [put, placedAt, hx]
    · simp [gone, Destroys, Span.Holds]
      omega
  -- the text from its beginning to its end
  rw [hweave, weave_eq_weaveFrom,
    weaveFrom_append fun x _ hx => ⟨hput x (by omega), by omega⟩, Nat.zero_add, ← hm,
    weaveFrom_append_of_gone fun x _ hx => ⟨hput x (by omega), by omega⟩, ← hr,
    weaveFrom_append_of_gone fun x _ hx => ⟨hput x (by omega), by omega⟩, ← hp,
    ← List.singleton_append, ← List.append_assoc, weaveFrom_append fun x _ hx =>
      ⟨hput x (by simp at hx; omega), by omega⟩]
  have hlength : p + ([')'] ++ S).length = e := by
    simp
    omega
  rw [hlength, weaveFrom_of_forall (fun x hx => hput x (by omega)) fun x hx => by omega,
    show put e = _ from if_pos rfl]
  simp

end

/-! ### The new text -/

namespace Lexed

variable {t : Text} {T : SplitTokens} {L : Lexed} {x y z w : Token}

/-- **The text with one statement inside the other has their tokens.** -/
theorem exists_ofText_splitAnd {P : SplitPieces} (h : P.Spells t T) (hx : x ∈ T.left.head?)
    (hy : y ∈ T.left.getLast?) (hz : z ∈ T.right.head?) (hw : w ∈ T.branch.getLast?) :
    ∃ L', Lexed.ofText (Change.weave [.insert T.keyword.span.start "if (".toList,
        .move ⟨x.span.start, y.span.stop⟩ T.keyword.span.start,
        .insert T.keyword.span.start ") \x7b\n".toList, .remove ⟨y.span.stop, z.span.start⟩,
        .insert w.span.stop "\n\x7d".toList] t) = .ok L' ∧
      L'.tokens.map Token.word = T.nestedWords := by
  obtain ⟨L', hL', hwords⟩ := h.chain_nested.exists_ofText
  refine ⟨L', ?_, hwords.trans h.filterMap_nested⟩
  -- where the parts of the statement begin and end
  have hstart := h.left_start x hx
  have hstop : y.span.stop = x.span.start + (chars P.left).length := by
    rw [h.left_stop y hy, hstart]
  have hstart' : z.span.start = y.span.stop + (chars P.middle).length := by
    rw [h.right_start z hz, h.left_stop y hy]
  have hend : w.span.stop = z.span.start + (chars P.tail).length := by
    rw [h.body_stop w hw, h.rparen_stop, h.rparen, h.right_start z hz]
    simp [SplitPieces.tail, ofWord]
    omega
  have hhead : chars P.head ≠ [] := List.cons_ne_nil _ _
  have hweave := Change.weave_splitAnd (Q := chars P.rest) (u := "if (".toList)
    (v := ") \x7b\n".toList) (w := "\n\x7d".toList) hhead h.start_eq hstart hstop hstart' hend
  have hold : chars P.front ++ (chars P.head ++ (chars P.left ++ (chars P.middle ++
      (chars P.tail ++ chars P.rest)))) = t := by
    simp [← h.chars_eq, SplitPieces.all]
  have hnew : chars P.front ++ ("if (".toList ++ (chars P.left ++ (") \x7b\n".toList ++
      (chars P.head ++ (chars P.tail ++ ("\n\x7d".toList ++ chars P.rest)))))) =
        chars P.nested := by
    simp [SplitPieces.nested, chars_append]
    rfl
  rw [hold, hnew] at hweave
  rw [hweave, hL']

/-- **The text with one statement after the other has their tokens.** -/
theorem exists_ofText_splitOr {P : SplitPieces} (h : P.Spells t T) {separator : Scrap}
    (hs : separator = space ∨ separator = lineBreak) (hy : y ∈ T.left.getLast?)
    (hz : z ∈ T.right.head?) (hw : w ∈ T.branch.getLast?) :
    ∃ L', Lexed.ofText (Change.weave [.insert w.span.stop separator.text,
        .insert w.span.stop "else if (".toList,
        .move ⟨z.span.start, T.rparen.span.start⟩ w.span.stop, .insert w.span.stop ")".toList,
        .copy ⟨T.rparen.span.stop, w.span.stop⟩ w.span.stop,
        .remove ⟨y.span.stop, z.span.start⟩] t) = .ok L' ∧
      L'.tokens.map Token.word = T.ladderWords := by
  obtain ⟨L', hL', hwords⟩ := (h.chain_ladder hs).exists_ofText
  refine ⟨L', ?_, hwords.trans (h.filterMap_ladder hs)⟩
  -- where the parts of the statement begin and end
  have hstop : y.span.stop = (chars P.front ++ (chars P.head ++ chars P.left)).length := by
    rw [h.left_stop y hy, h.start_eq]
    simp
    omega
  have hstart : z.span.start = y.span.stop + (chars P.middle).length := by
    rw [h.right_start z hz, h.left_stop y hy]
  have hparen : T.rparen.span.start = z.span.start + (chars P.right).length := by
    rw [h.rparen, h.right_start z hz]
  have hend : w.span.stop = T.rparen.span.start + 1 + (chars P.body).length := by
    rw [h.body_stop w hw, h.rparen_stop]
  have hweave := Change.weave_splitOr (Q := chars P.rest) (u := separator.text)
    (v := "else if (".toList) (w := ")".toList) hstop hstart hparen hend
  have hold : chars P.front ++ (chars P.head ++ chars P.left) ++ (chars P.middle ++
      (chars P.right ++ ')' :: (chars P.body ++ chars P.rest))) = t := by
    simp [← h.chars_eq, SplitPieces.all, SplitPieces.tail]
    rfl
  have hnew : chars P.front ++ (chars P.head ++ chars P.left) ++ ')' :: (chars P.body ++
      (separator.text ++ ("else if (".toList ++ (chars P.right ++ (")".toList ++
        (chars P.body ++ chars P.rest)))))) = chars (P.ladder separator) := by
    simp [SplitPieces.ladder, SplitPieces.tail, chars_append]
    rfl
  rw [hold, hnew, ← h.rparen_stop] at hweave
  rw [hweave, hL']

end Lexed

end Mend
