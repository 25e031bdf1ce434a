import Mend.Proofs.IndentedLines
import Mend.Text.Rows

/-!
# Rows of the braces that a scan finds

The scan of lines keeps a stack of open braces among much else.  Which braces it meets, and in which
line, depends on the lines alone: on what the modes of the scan make of their characters, and on
which lines are skipped.  With an open brace the scan notes the indentation of its line.  It could
note the number of the line in its place, and it would find the same braces.

## Main definitions

* `BraceSide`, `CodeBrace`, `openRows` — the braces of a text with the rows they stand on, and the
  rows of those that are left open.
* `Nesting.ScanMode.read`, `Nesting.readLine`, `Nesting.bracesFrom` — the braces in the rest of a
  line, in a line, and in lines.
* `Nesting.scanNoting` — the scan of lines, with any number noted for each line.
* `Text.AtRowStart` — a text after which a row begins.

## Main results

* `Nesting.notes_scanNoting` — **a scan has noted the rows of the braces that are left open.**
* `Nesting.scanLines_eq_scanNoting` — the scan of lines is the one that notes their indentation.
* `Nesting.bracesFrom_take` — the braces of the first lines are those that stand on them.
* `Text.map_stripNewline_lines` — the rows of a text are its lines, when line feeds end all of them.
-/

namespace Mend

/-! ### Braces -/

/-- The two kinds of braces. -/
inductive BraceSide
  /-- A brace that opens a block. -/
  | opening
  /-- A brace that closes one. -/
  | closing
  deriving DecidableEq, Repr

/-- What a brace does to the notes of the open ones.  A closing brace that has no partner does
nothing. -/
def BraceSide.act (note : Nat) (stack : List Nat) : BraceSide → List Nat
  | .opening => note :: stack
  | .closing => stack.tail

/-- A brace of the code. -/
structure CodeBrace where
  /-- Whether it opens or closes. -/
  side : BraceSide
  /-- The row it stands on. -/
  row : Nat
  deriving DecidableEq, Repr

/-- The notes of the braces that are left open, the innermost first, on a stack of other notes. -/
def openNotes (note : Nat → Nat) (stack : List Nat) (bs : List CodeBrace) : List Nat :=
  bs.foldl (fun stack b => b.side.act (note b.row) stack) stack

/-- The rows of the braces that are left open, the innermost first. -/
def openRows (bs : List CodeBrace) : List Nat := openNotes id [] bs

theorem openNotes_cons (note : Nat → Nat) (stack : List Nat) (b : CodeBrace) (bs : List CodeBrace) :
    openNotes note stack (b :: bs) = openNotes note (b.side.act (note b.row) stack) bs := rfl

theorem openNotes_append (note : Nat → Nat) (stack : List Nat) (bs bs' : List CodeBrace) :
    openNotes note stack (bs ++ bs') = openNotes note (openNotes note stack bs) bs' :=
  List.foldl_append

/-- What is noted says nothing about which braces are left open. -/
theorem map_openNotes (note : Nat → Nat) (stack : List Nat) (bs : List CodeBrace) :
    (openNotes id stack bs).map note = openNotes note (stack.map note) bs := by
  induction bs generalizing stack with
  | nil => rfl
  | cons b bs ih =>
    have hact : (b.side.act b.row stack).map note = b.side.act (note b.row) (stack.map note) := by
      cases b.side with
      | opening => rfl
      | closing => exact List.map_tail
    rw [openNotes_cons, openNotes_cons, ih, id_eq, hact]

namespace Nesting

/-! ### Reading a line -/

/-- The brace that a character of code is. -/
def braceSide? (c : Char) : Option BraceSide :=
  if c = '\x7b' then some .opening else if c = '\x7d' then some .closing else none

/-- The braces in the rest of a line, and whether a block comment is open at its end. -/
def ScanMode.read : ScanMode → Text → List BraceSide × Bool
  | mode, [] => ([], mode == .comment)
  | .comment, '*' :: '/' :: rest => read .code rest
  | .comment, _ :: rest => read .comment rest
  | .literal q, '\\' :: _ :: rest => read (.literal q) rest
  | .literal q, c :: rest => read (if c = q then .code else .literal q) rest
  | .code, '/' :: '/' :: _ => ([], false)
  | .code, '/' :: '*' :: rest => read .comment rest
  | .code, c :: rest =>
    if c = '\x22' ∨ c = '\x27' then read (.literal c) rest
    else ((braceSide? c).toList ++ (read .code rest).1, (read .code rest).2)

/-- What a character of a comment does. -/
theorem ScanMode.read_comment_cons (c : Char) (t : Text) : ScanMode.comment.read (c :: t) =
    if c = '*' ∧ t.head? = some '/' then ScanMode.code.read t.tail
    else ScanMode.comment.read t := by
  split
  next hend =>
    obtain ⟨rfl, hhead⟩ := hend
    obtain ⟨rest, rfl⟩ := List.head?_eq_some_iff.1 hhead
    rw [read, List.tail_cons]
  next hend =>
    rw [read]
    rintro rest rfl rfl
    exact hend ⟨rfl, rfl⟩

/-- What a quotation mark does. -/
theorem ScanMode.read_code_quote {q : Char} (hq : q = '\x22' ∨ q = '\x27') (t : Text) :
    ScanMode.code.read (q :: t) = (ScanMode.literal q).read t := by
  have hslash : q ≠ '/' := by rcases hq with rfl | rfl <;> decide
  rw [read, if_pos hq]
  · rintro _ rfl _
    exact hslash rfl
  · rintro _ rfl _
    exact hslash rfl

/-- What a character does that begins neither a comment nor a literal. -/
theorem ScanMode.read_code_cons {c : Char} {t : Text} (hquote : c ≠ '\x22' ∧ c ≠ '\x27')
    (hcomment : c = '/' → t.head? ≠ some '/' ∧ t.head? ≠ some '*') : ScanMode.code.read (c :: t) =
      ((braceSide? c).toList ++ (ScanMode.code.read t).1, (ScanMode.code.read t).2) := by
  rw [read, if_neg (not_or.2 hquote)]
  · rintro rest rfl rfl
    exact (hcomment rfl).1 rfl
  · rintro rest rfl rfl
    exact (hcomment rfl).2 rfl

/-- A character that says nothing about braces, comments and literals. -/
def IsPlain (c : Char) : Prop := c ∉ ['/', '\x22', '\x27', '\x7b', '\x7d']

instance (c : Char) : Decidable (IsPlain c) := inferInstanceAs (Decidable (c ∉ _))

theorem ScanMode.read_code_of_isPlain {c : Char} (hc : IsPlain c) (t : Text) :
    ScanMode.code.read (c :: t) = ScanMode.code.read t := by
  simp only [IsPlain, List.mem_cons, List.not_mem_nil, or_false, not_or] at hc
  obtain ⟨hslash, hstring, hchar, hopen, hclose⟩ := hc
  rw [read_code_cons ⟨hstring, hchar⟩ fun h => absurd h hslash, braceSide?, if_neg hopen,
    if_neg hclose]
  rfl

/-- Few characters are not plain, so what holds of none of them can be found out by looking at
each. -/
theorem isPlain_of {p : Char → Bool} {c : Char} (hc : p c = true)
    (hp : ['/', '\x22', '\x27', '\x7b', '\x7d'].any p = false) : IsPlain c :=
  fun hmem => List.any_eq_false.1 hp c hmem hc

theorem isPlain_of_isBlank {c : Char} (hc : isBlank c = true) : IsPlain c :=
  isPlain_of hc (by decide)

/-- The mode in which a line begins. -/
def startMode (inComment : Bool) : ScanMode := if inComment then .comment else .code

/-- The braces of a line, and whether a block comment is open at its end. -/
def readLine (inComment : Bool) (line : Text) : List BraceSide × Bool :=
  if !inComment && (Text.body line).head? == some '#' then ([], false)
  else (startMode inComment).read line

/-- The braces of lines, the first of which has the given number. -/
def bracesFrom (inComment : Bool) (row : Nat) : List Text → List CodeBrace
  | [] => []
  | line :: rest =>
    (readLine inComment line).1.map (⟨·, row⟩) ++
      bracesFrom (readLine inComment line).2 (row + 1) rest

/-- No brace of the lines stands above the first one. -/
theorem le_row_of_mem_bracesFrom {inComment : Bool} {row : Nat} {ls : List Text} {b : CodeBrace}
    (hb : b ∈ bracesFrom inComment row ls) : row ≤ b.row := by
  induction ls generalizing inComment row with
  | nil => cases hb
  | cons line ls ih =>
    rcases List.mem_append.1 hb with hb | hb
    · obtain ⟨side, -, rfl⟩ := List.mem_map.1 hb
      exact Nat.le_refl _
    · exact Nat.le_of_succ_le (ih hb)

/-- The braces of the first lines are those that do not stand below them. -/
theorem bracesFrom_take (inComment : Bool) (row n : Nat) (ls : List Text) :
    bracesFrom inComment row (ls.take n) =
      (bracesFrom inComment row ls).filter (·.row < row + n) := by
  induction ls generalizing inComment row n with
  | nil => rw [List.take_nil]; rfl
  | cons line ls ih =>
    cases n with
    | zero =>
      refine (List.filter_eq_nil_iff.2 fun b hb => ?_).symm
      have hle := le_row_of_mem_bracesFrom hb
      simpa using hle
    | succ n =>
      have hfirst : ((readLine inComment line).1.map (CodeBrace.mk · row)).filter
          (·.row < row + (n + 1)) = (readLine inComment line).1.map (⟨·, row⟩) := by
        rw [List.filter_eq_self]
        intro b hb
        obtain ⟨side, -, rfl⟩ := List.mem_map.1 hb
        simp
      rw [List.take_succ_cons, bracesFrom, ih, bracesFrom, List.filter_append, hfirst]
      simp only [Nat.add_assoc, Nat.add_comm 1 n]

/-! ### What the scan does with braces -/

/-- The numbers that are noted with the open braces. -/
def notes (n : Nesting) : List Nat := n.braces.map (·.lineIndent)

theorem notes_readCode (n : Nesting) (mark column : Nat) (c : Char) :
    (n.readCode mark column c).notes =
      (braceSide? c).toList.foldl (BraceSide.act mark) n.notes := by
  unfold readCode braceSide?
  by_cases hopen : c = '\x7b'
  · rw [if_pos hopen, if_pos hopen]
    rfl
  rw [if_neg hopen, if_neg hopen]
  by_cases hclose : c = '\x7d'
  · rw [if_pos hclose, if_pos hclose]
    exact List.map_tail
  rw [if_neg hclose, if_neg hclose]
  split_ifs <;> rfl

/-- Reading a line acts on the notes of the open braces as the braces of the line do. -/
theorem readChars_eq_read (style : IndentStyle) (mark : Nat) (mode : ScanMode) (column : Nat)
    (n : Nesting) (t : Text) :
    (readChars style mark mode column n t).inComment = (mode.read t).2 ∧
      (readChars style mark mode column n t).notes =
        (mode.read t).1.foldl (BraceSide.act mark) n.notes := by
  fun_induction readChars style mark mode column n t with
  | case1 => exact ⟨by rw [ScanMode.read], by rw [ScanMode.read]; rfl⟩
  | case2 _ _ _ ih => exact ih
  | case3 _ _ c rest hend ih =>
    rw [ScanMode.read]
    · exact ih
    · exact hend
  | case4 _ _ _ _ _ ih => exact ih
  | case5 _ _ _ c rest hescape ih =>
    rw [ScanMode.read]
    · exact ih
    · exact hescape
  | case6 => exact ⟨rfl, rfl⟩
  | case7 _ _ _ ih => exact ih
  | case8 _ _ c rest hline hcomment hquote ih =>
    rw [ScanMode.read]
    · rw [if_pos hquote]
      exact ih
    · exact hline
    · exact hcomment
  | case9 _ _ c rest hline hcomment hquote ih =>
    rw [ScanMode.read]
    · rw [if_neg hquote, List.foldl_append, ← notes_readCode]
      exact ih
    · exact hline
    · exact hcomment

/-- A line of blanks has no braces, and a comment goes on over it. -/
theorem read_startMode_of_blank (inComment : Bool) {line : Text}
    (hblank : ∀ c ∈ line, isBlank c = true) :
    (startMode inComment).read line = ([], inComment) := by
  induction line with
  | nil => cases inComment <;> rfl
  | cons c line ih =>
    obtain ⟨hc, hline⟩ := List.forall_mem_cons.1 hblank
    rw [← ih hline]
    cases inComment with
    | false => exact ScanMode.read_code_of_isPlain (isPlain_of_isBlank hc) line
    | true =>
      have hstar : c ≠ '*' := by
        rintro rfl
        exact absurd hc (by decide)
      exact (ScanMode.read_comment_cons c line).trans (if_neg fun h => hstar h.1)

/-- Reads a line, and notes a number where the scan notes the indentation of the line. -/
def scanMarked (style : IndentStyle) (mark : Nat) (n : Nesting) (line : Text) : Nesting :=
  let code := line.body
  if (!n.inComment && code.head? == some '#') || code.isEmpty then n
  else
    let after := readChars style mark (startMode n.inComment) 0 n line
    if after.inComment && n.inComment then after
    else
      let after := after.extend ' '
      { after with
        lastIndent := mark
        pendingHeader := after.parens.isEmpty && after.head.trim.isControlHeader }

theorem scanLine_eq_scanMarked (style : IndentStyle) (n : Nesting) (line : Text) :
    scanLine style n line = scanMarked style (style.columnsOf line.indentation) n line := rfl

/-- A line acts on the notes of the open braces as its braces do. -/
theorem scanMarked_eq_readLine (style : IndentStyle) (mark : Nat) (n : Nesting) (line : Text) :
    (scanMarked style mark n line).inComment = (readLine n.inComment line).2 ∧
      (scanMarked style mark n line).notes =
        (readLine n.inComment line).1.foldl (BraceSide.act mark) n.notes := by
  obtain ⟨hcomment, hnotes⟩ := readChars_eq_read style mark (startMode n.inComment) 0 n line
  rw [scanMarked, readLine]
  by_cases hskip : (!n.inComment && (Text.body line).head? == some '#') = true
  · rw [if_pos (by rw [hskip]; rfl), if_pos hskip]
    refine ⟨?_, rfl⟩
    simp only [Bool.and_eq_true, Bool.not_eq_true'] at hskip
    exact hskip.1
  rw [if_neg hskip]
  by_cases hblank : Text.body line = []
  · have hline : ∀ c ∈ line, isBlank c = true := by
      rw [← Text.indentation_append_body line, hblank, List.append_nil]
      exact List.all_eq_true.1 List.all_takeWhile
    rw [read_startMode_of_blank n.inComment hline, if_pos (by simp [hblank])]
    exact ⟨rfl, rfl⟩
  rw [if_neg (by simpa [hblank] using hskip)]
  dsimp only
  split
  next => exact ⟨hcomment, hnotes⟩
  next => exact ⟨hcomment, hnotes⟩

/-! ### Scanning lines -/

/-- Reads lines, the first of which has the given number, and notes the number that goes with a line
where the scan notes its indentation. -/
def scanNoting (style : IndentStyle) (note : Nat → Nat) (row : Nat) (n : Nesting) :
    List Text → Nesting
  | [] => n
  | line :: rest => scanNoting style note (row + 1) (scanMarked style (note row) n line) rest

/-- **A scan has noted the rows of the braces that are left open**, by the numbers that go with
them. -/
theorem notes_scanNoting (style : IndentStyle) (note : Nat → Nat) (row : Nat) (n : Nesting)
    (ls : List Text) : (scanNoting style note row n ls).notes =
      openNotes note n.notes (bracesFrom n.inComment row ls) := by
  induction ls generalizing row n with
  | nil => rfl
  | cons line ls ih =>
    obtain ⟨hcomment, hnotes⟩ := scanMarked_eq_readLine style (note row) n line
    rw [scanNoting, ih, hcomment, hnotes, bracesFrom, openNotes_append]
    simp only [openNotes, List.foldl_map]

/-- The scan of lines notes their indentation. -/
theorem scanLines_eq_scanNoting (style : IndentStyle) (ls : List Text) : scanLines style ls =
    scanNoting style (fun row => style.columnsOf (Text.indentation (ls.getD row []))) 0 {} ls := by
  have hfold (pre ls : List Text) (n : Nesting) : ls.foldl (scanLine style) n =
      scanNoting style (fun row => style.columnsOf (Text.indentation ((pre ++ ls).getD row [])))
        pre.length n ls := by
    induction ls generalizing pre n with
    | nil => rfl
    | cons line ls ih =>
      have hline : (pre ++ line :: ls).getD pre.length [] = line := by simp
      rw [List.foldl_cons, ih (pre ++ [line]), scanNoting, hline, scanLine_eq_scanMarked]
      simp
  exact hfold [] ls {}

end Nesting

/-! ### Rows and lines -/

namespace Text

theorem rows_cons_of_ne {c : Char} (hc : c ≠ '\n') (t : Text) :
    rows (c :: t) = pushChar c (rows t) := by
  rw [rows, if_neg hc]

/-- Whether line feeds end all lines can be found out by looking at each character. -/
theorem eq_newline_of_all {t : Text} (h : t.all (fun c => !isLineBreak c || c == '\n') = true) :
    ∀ c ∈ t, isLineBreak c = true → c = '\n' := by
  intro c hc hbreak
  simpa [hbreak] using List.all_eq_true.1 h c hc

/-- The newline after a line does not begin with a character before it. -/
theorem stripNewline_cons {c : Char} (hc : c ≠ '\n' ∧ c ≠ '\r') (l : Text) :
    stripNewline (c :: l) = c :: stripNewline l := by
  rcases List.eq_nil_or_concat l with rfl | ⟨front, d, rfl⟩
  · exact (stripNewline_concat [] c).trans (if_neg hc.1)
  rw [List.concat_eq_append, ← List.cons_append, stripNewline_concat, stripNewline_concat]
  cases front with
  | nil =>
    rw [List.getLast?_singleton, if_neg fun h => hc.2 (Option.some.inj h)]
    split <;> rfl
  | cons e front =>
    rw [List.getLast?_cons_cons, List.dropLast_cons_cons]
    split_ifs <;> rfl

/-- **The rows of a text are its lines**, when line feeds end all of them. -/
theorem map_stripNewline_lines {t : Text} (hbreaks : ∀ c ∈ t, isLineBreak c = true → c = '\n') :
    (lines t).map stripNewline = rows t := by
  induction t with
  | nil => rfl
  | cons c t ih =>
    obtain ⟨hc, ht⟩ := List.forall_mem_cons.1 hbreaks
    have hreturn : c ≠ '\r' := by
      rintro rfl
      exact absurd (hc (by decide)) (by decide)
    rw [lines, rows]
    · by_cases hnewline : c = '\n'
      · subst hnewline
        rw [if_pos (by decide), if_pos rfl, List.map_cons, ih ht]
        rfl
      · rw [if_neg fun h => hnewline (hc h), if_neg hnewline, ← ih ht]
        cases hlines : lines t with
        | nil => exact absurd hlines (lines_ne_nil t)
        | cons l ls => rw [pushChar, List.map_cons, stripNewline_cons ⟨hnewline, hreturn⟩]; rfl
    · rintro rest rfl
      exact absurd rfl hreturn

/-! ### Rows of a text in two parts -/

/-- The characters up to the first line feed. -/
def firstRow (t : Text) : Text := (rows t).headD []

variable {c : Char} {p u : Text}

theorem rows_eq_cons (t : Text) : rows t = firstRow t :: (rows t).tail := by
  cases hrows : rows t with
  | nil => exact absurd hrows (rows_ne_nil t)
  | cons r rs => rw [firstRow, hrows]; rfl

/-- Text without line feeds belongs to the first row of what follows it. -/
theorem rows_append (hp : '\n' ∉ p) (u : Text) :
    rows (p ++ u) = (p ++ firstRow u) :: (rows u).tail := by
  induction p with
  | nil => exact rows_eq_cons u
  | cons c p ih =>
    obtain ⟨hc, hp⟩ := not_or.1 (List.mem_cons.not.1 hp)
    rw [List.cons_append, rows_cons_of_ne (Ne.symm hc), ih hp]
    rfl

theorem head?_firstRow (u : Text) : (firstRow u).head? = u.head?.filter (· != '\n') := by
  cases u with
  | nil => rfl
  | cons c u =>
    rw [firstRow, rows]
    by_cases hc : c = '\n'
    · simp [hc, Option.filter]
    · rw [if_neg hc, rows_eq_cons u]
      simp [pushChar, hc, Option.filter]

/-- A row ends where the next character is a line feed. -/
theorem firstRow_eq_nil (hu : ∀ d ∈ u.head?, d = '\n') : firstRow u = [] := by
  rw [← List.head?_eq_none_iff, head?_firstRow, Option.filter_eq_none_iff]
  intro d hd
  simp [hu d hd]

theorem newline_not_mem_cons (hc : isBlank c = false) (hp : '\n' ∉ p) : '\n' ∉ c :: p := by
  rw [List.mem_cons, not_or]
  refine ⟨?_, hp⟩
  rintro rfl
  exact absurd hc (by decide)

/-- No more than blanks stand after the last line feed of a text. -/
def AtRowStart (t : Text) : Prop := (t.reverse.takeWhile (· != '\n')).all isBlank = true

instance (t : Text) : Decidable (AtRowStart t) := inferInstanceAs (Decidable (_ = true))

theorem atRowStart_nil : AtRowStart [] := rfl

theorem atRowStart_newline (t : Text) : AtRowStart (t ++ ['\n']) := by
  simp [AtRowStart]

theorem atRowStart_blank (hblank : isBlank c = true) (hc : c ≠ '\n') (t : Text) :
    AtRowStart (t ++ [c]) ↔ AtRowStart t := by
  simp [AtRowStart, hc, hblank]

theorem not_atRowStart (hblank : isBlank c = false) (hp : '\n' ∉ p) (t : Text) :
    ¬AtRowStart (t ++ c :: p) := by
  have hc : c ≠ '\n' := by
    rintro rfl
    exact absurd hblank (by decide)
  intro hstart
  have hmem : c ∈ (t ++ c :: p).reverse.takeWhile (· != '\n') := by
    rw [List.reverse_append, List.reverse_cons, List.append_assoc, List.takeWhile_append_of_pos]
    · simp [hc]
    · intro d hd
      exact bne_iff_ne.2 fun h => hp (h ▸ List.mem_reverse.1 hd)
  rw [List.all_eq_true.1 hstart c hmem] at hblank
  cases hblank

end Text

end Mend
