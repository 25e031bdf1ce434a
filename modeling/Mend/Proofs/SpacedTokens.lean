import Mend.Proofs.LexemeStretches
import Mend.Proofs.TokenTiling

/-!
# Tokens written with spaces between them

The tokens of a text can be written out again, with single spaces between them.  What comes of it
has the same tokens and includes no file: a token is found whatever stood around it, because no
token goes on with a space, and no token begins like a directive.

## Main definitions

* `Token.spaced` — the tokens, with single spaces between them.

## Main results

* `Lexeme.scan_anywhere` — a token is found again on any line, with something else after it.
* `Scrap.chain_spaced` — tokens with spaces between them are a chain.
* `Lexed.ofText_spaced` — **tokens that are written out are found again.**
-/

namespace Mend

/-- The tokens, written one after another with single spaces between them. -/
def Token.spaced (ts : List Token) : Text := Text.join [' '] (ts.map (·.spelling.toList))

/-! ### A token with something else around it -/

namespace Lexeme

variable {b : Bool} {c : Char} {u r r' : Text} {k : TokenKind}

/-- No token goes on with a space. -/
theorem goesOn_space {w : Text} (hw : w ≠ []) : goesOn w ' ' = false :=
  goesOn_of_tail hw (by decide +kernel) (by decide)

/-- **A token is found again** wherever on a line it stands, with something after it that it does
not go on with. -/
theorem scan_anywhere (h : scan b c (u ++ r) = .ok (.token k, u.length))
    (hr : IsSealed (c :: u) r') (b' : Bool) : scan b' c (u ++ r') = .ok (.token k, u.length) :=
  scan_congr (scan_token_of_scan h b') (.sealed hr)

end Lexeme

/-! ### Tokens with spaces between them -/

namespace Scrap

/-- A piece is a token that the lexer finds at the start of some text. -/
def IsFound (p : Scrap) : Prop :=
  ∃ k b c u r, p = ⟨.token k, c :: u⟩ ∧ Lexeme.scan b c (u ++ r) = .ok (.token k, u.length)

variable {p : Scrap} {ps : List Scrap}

theorem mem_or_eq_of_mem_intersperse (h : p ∈ ps.intersperse space) : p ∈ ps ∨ p = space := by
  induction ps with
  | nil => exact .inl h
  | cons q ps ih =>
    cases ps with
    | nil => exact .inl h
    | cons q' ps =>
      rw [List.intersperse_cons_cons, List.mem_cons, List.mem_cons] at h
      rcases h with rfl | rfl | h
      · exact .inl List.mem_cons_self
      · exact .inr rfl
      · exact (ih h).imp_left (List.mem_cons_of_mem _)

theorem chars_intersperse (ps : List Scrap) :
    chars (ps.intersperse space) = Text.join [' '] (ps.map text) := by
  induction ps with
  | nil => rfl
  | cons p ps ih =>
    cases ps with
    | nil => exact List.append_nil _
    | cons q ps =>
      have hjoin : Text.join [' '] ((p :: q :: ps).map text) =
          p.text ++ [' '] ++ Text.join [' '] ((q :: ps).map text) := rfl
      rw [List.intersperse_cons_cons, chars_cons, chars_cons, ih, hjoin, List.append_assoc]
      rfl

theorem filterMap_token?_intersperse (ps : List Scrap) :
    (ps.intersperse space).filterMap token? = ps.filterMap token? := by
  induction ps with
  | nil => rfl
  | cons p ps ih =>
    cases ps with
    | nil => rfl
    | cons q ps =>
      rw [List.intersperse_cons_cons, List.filterMap_cons, List.filterMap_cons_none rfl, ih,
        List.filterMap_cons (l := q :: ps)]

/-- **Tokens with spaces between them are a chain**, wherever they were found. -/
theorem chain_spaced (h : ∀ p ∈ ps, p.IsFound) (b : Bool) : Chain b (ps.intersperse space) [] := by
  induction ps generalizing b with
  | nil => exact .nil b []
  | cons p ps ih =>
    obtain ⟨hp, hps⟩ := List.forall_mem_cons.1 h
    obtain ⟨k, b', c, u, r, rfl, hscan⟩ := hp
    cases ps with
    | nil =>
      refine .cons (Lexeme.scan_anywhere hscan ?_ b) (.nil _ _)
      intro d hd
      cases hd
    | cons q ps =>
      rw [List.intersperse_cons_cons]
      refine .cons (Lexeme.scan_anywhere hscan ?_ b) (.cons (u := []) rfl (ih hps _))
      intro d hd
      obtain rfl : ' ' = d := Option.some.inj hd
      exact Lexeme.goesOn_space (List.cons_ne_nil _ _)

end Scrap

/-! ### Texts -/

/-- Pieces without a directive include no file. -/
theorem Include.ofLexemes_eq_nil {line : Nat} {ls : List Lexeme}
    (h : ∀ l ∈ ls, l.kind ≠ .directive) : ofLexemes line ls = [] := by
  rw [List.eq_nil_iff_forall_not_mem]
  intro i hi
  obtain ⟨front, l, rest, rfl, hk, -⟩ := exists_of_mem_ofLexemes hi
  exact h l (List.mem_append_right _ List.mem_cons_self) hk

namespace Lexed

variable {t : Text} {L : Lexed}

/-- **Tokens that are written out are found again.**  The tokens of a text, with single spaces
between them, are a text that has tokens of the same kinds and spellings in the same order, and
includes no file. -/
theorem ofText_spaced (h : ofText t = .ok L) :
    ∃ M, ofText (Token.spaced L.tokens) = .ok M ∧ M.includes = [] ∧
      M.tokens.map Token.word = L.tokens.map Token.word := by
  let ps : List Scrap := L.tokens.map fun tok => ⟨.token tok.kind, tok.spelling.toList⟩
  have hps : ∀ p ∈ ps, p.IsFound := by
    intro p hp
    obtain ⟨tok, htok, rfl⟩ := List.mem_map.1 hp
    obtain ⟨b, c, u, r, hspelling, hscan⟩ := exists_scan_of_mem_tokens h htok
    exact ⟨_, b, c, u, r, by rw [hspelling], hscan⟩
  have hchars : Scrap.chars (ps.intersperse Scrap.space) = Token.spaced L.tokens := by
    rw [Scrap.chars_intersperse, List.map_map]
    rfl
  have hwords : (ps.intersperse Scrap.space).filterMap Scrap.token? =
      L.tokens.map Token.word := by
    rw [Scrap.filterMap_token?_intersperse, List.filterMap_map, ← List.filterMap_eq_map]
    refine congrArg (fun f => L.tokens.filterMap f) (funext ?_)
    intro tok
    show some (tok.kind, String.ofList tok.spelling.toList) = some tok.word
    rw [String.ofList_toList]
    rfl
  obtain ⟨ls, hls, hscraps⟩ := Scrap.splitFrom_of_chain (Scrap.chain_spaced hps true) 0
  rw [hchars] at hls
  refine ⟨_, ofText_of_split hls, ?_, ?_⟩
  · refine Include.ofLexemes_eq_nil ?_
    intro l hl hk
    have hmem : l.scrap ∈ ps.intersperse Scrap.space := hscraps ▸ List.mem_map_of_mem hl
    have hkind : l.scrap.kind = .directive := hk
    rcases Scrap.mem_or_eq_of_mem_intersperse hmem with hmem | hspace
    · obtain ⟨k, b, c, u, r, htoken, -⟩ := hps _ hmem
      rw [htoken] at hkind
      cases hkind
    · rw [hspace] at hkind
      cases hkind
  · rw [← Scrap.filterMap_token?_map_scrap, hscraps, hwords]

/-- A number that a sign would go on with in another notation, a literal over two rows, and signs
that only a comment keeps apart. -/
theorem ofText_spaced_signs :
    let spaced := "0x1e + 2 ; s = \"\\\n\" ; a + + b".toList
    ∃ L M, ofText "#include <z>\n0x1e+2;s=\"\\\n\";a+/**/+b".toList = .ok L ∧
      Token.spaced L.tokens = spaced ∧ ofText spaced = .ok M ∧ M.includes = [] ∧
      M.tokens.map Token.word = L.tokens.map Token.word := by
  intro spaced
  obtain ⟨L, hL, hspaced⟩ :
      ∃ L, ofText "#include <z>\n0x1e+2;s=\"\\\n\";a+/**/+b".toList = .ok L ∧
        Token.spaced L.tokens = spaced :=
    exists_of_map_decide (by decide +kernel)
  obtain ⟨M, hM, hincludes, hwords⟩ := ofText_spaced hL
  rw [hspaced] at hM
  exact ⟨L, M, hL, hspaced, hM, hincludes, hwords⟩

end Lexed

end Mend
