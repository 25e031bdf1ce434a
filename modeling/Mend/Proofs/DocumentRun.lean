import Mend.Document.Apply
import Mend.Proofs.Draft

/-!
# Runs of a document

What a user does to an open document is a run of events: edit blocks, file changes, undoing,
redoing, and moving the caret.  An edit block is a program that looks at the draft after every edit
and goes on as it likes, also past an edit that was refused.

Whatever an event is, there are four things it can do to text and history: nothing, recording a
step, going back by one, and going ahead by one.  They are told once, as the turns of a document,
and the invariants of a run are proved from them.

## Main definitions

* `EditProgram`, `Document.block` — an edit block as a program, and running it.
* `DocumentEvent`, `Document.handle`, `Document.after` — events, and runs of them.
* `Document.Turn` — what an event can do to text and history.

## Main results

* `Document.document_edit_eq_block` — blocks of commands are programs.
* `Document.advance_block`, `Document.advance_apply` — blocks and changes leave at most one step.
* `Document.turn_handle` — **every event makes a turn.**
-/

namespace Mend

/-! ### Edit blocks as programs -/

/-- An edit block.  After each edit it is told the draft and, when the edit was refused, why. -/
inductive EditProgram
  /-- The block ends, well or not. -/
  | finish (ok : Bool)
  /-- An edit is made, and the block goes on. -/
  | perform (c : EditCommand) (next : Draft → Option BlockFailure → EditProgram)

namespace EditProgram

/-- Runs a block: the draft it leaves, and whether it ended well. -/
def run : EditProgram → Draft → Draft × Bool
  | finish ok, d => (d, ok)
  | perform c next, d => (next (d.run c).1 (d.run c).2).run (d.run c).1

/-- The block that makes edits until one of them is refused, and then fails. -/
def ofCommands : List EditCommand → EditProgram
  | [] => finish true
  | c :: cs => perform c fun _ failure => if failure.isNone then ofCommands cs else finish false

theorem run_ofCommands (cs : List EditCommand) (d : Draft) :
    (ofCommands cs).run d = ((d.runAll cs).2.1, (d.runAll cs).2.2.isNone) := by
  induction cs generalizing d with
  | nil => rfl
  | cons c cs ih =>
    -- the program looks at the failure of an edit just as the list of commands does
    rcases hrun : d.run c with ⟨d', failure⟩
    cases failure with
    | none => simp [ofCommands, run, Draft.runAll, hrun, ih]
    | some f => simp [ofCommands, run, Draft.runAll, hrun]

end EditProgram

namespace Document

/-- Runs an edit block on a document. -/
def block (d : Document) (p : EditProgram) : Document :=
  let (draft, ok) := p.run (.ofDocument d)
  if ok then draft.commit else draft.rollBack

/-- A block of commands is one of the programs. -/
theorem document_edit_eq_block (d : Document) (cs : List EditCommand) :
    (d.edit cs).document = d.block (.ofCommands cs) := by
  rw [block, EditProgram.run_ofCommands]
  rfl

end Document

/-! ### Drafts along a block -/

namespace Draft.Follows

variable {d : Draft} {start : Document}

/-- Every edit keeps a draft following, also one that is refused. -/
theorem run (h : d.Follows start) (c : EditCommand) : (d.run c).1.Follows start := by
  cases c with
  | replace s new =>
    rw [Draft.run]
    split
    next d' hok => exact h.replace? hok
    next => exact h
  | applyDelta δ => exact h.applyDelta δ
  | setCursor o => exact h.setCursor o
  | setSelection s => exact h.setSelection s
  | cancel => exact h

theorem runProgram (h : d.Follows start) (p : EditProgram) : (p.run d).1.Follows start := by
  induction p generalizing d with
  | finish ok => exact h
  | perform c next ih => exact ih _ _ (h.run c)

/-- New indentation keeps a draft following, be it given to all lines or to some. -/
theorem reindent? (h : d.Follows start) (indenter style : IndentStyle) (lines : List Nat) :
    (d.reindent? indenter style lines).1.Follows start := by
  induction lines generalizing d with
  | nil => exact h
  | cons line lines ih =>
    rw [Draft.reindent?]
    split
    · exact h
    · split
      · exact ih h
      · split
        next => exact h
        next d' hok =>
          -- what comes after a replacement decides only what is reported
          have hrest := ih (h.replace? hok)
          split <;> simp_all

theorem reindentAfter (h : d.Follows start) (δ : Delta) (c : FileChange) (indenter : IndentStyle)
    (s : Settings) : (Document.reindentAfter d δ c indenter s).1.Follows start := by
  rw [Document.reindentAfter]
  split
  · exact h.reindent? _ _ _
  · exact h

end Draft.Follows

/-! ### Turns -/

namespace Document

/-- What an event can do to the text and the history of a document. -/
inductive Turn (d d' : Document) : Prop
  /-- Nothing, or a block is committed. -/
  | advance (h : d.Advance d')
  /-- The most recent step is taken back. -/
  | undone (s : Step) (rest : List Step) (done_eq : d.history.done = s :: rest)
      (text_eq : d'.text = Replacement.revert d.text s.replacements)
      (history_eq : d'.history
        = { d.history with done := rest, undone := s :: d.history.undone })
  /-- The step that was taken back last is made again. -/
  | redone (s : Step) (rest : List Step) (undone_eq : d.history.undone = s :: rest)
      (text_eq : d'.text = Replacement.replay d.text s.replacements)
      (history_eq : d'.history
        = { d.history with done := s :: d.history.done, undone := rest })

variable {d d' : Document}

theorem advance_block (d : Document) (p : EditProgram) : d.Advance (d.block p) := by
  have hfollows := (Draft.follows_ofDocument d).runProgram p
  rw [block]
  split
  next draft ok hrun =>
    rw [hrun] at hfollows
    split
    · exact hfollows.advance_commit
    · exact hfollows.advance_rollBack

theorem advance_commit (d : Document) (δ : Delta) (c : FileChange) (indenter : IndentStyle)
    (s : Settings) : d.Advance (d.commit δ c indenter s).1 := by
  have hmade := (Draft.follows_ofDocument d).applyDelta δ
  rw [commit]
  split
  next draft e happly =>
    rw [happly] at hmade
    exact hmade.advance_rollBack
  next draft happly =>
    rw [happly] at hmade
    have hindented := hmade.reindentAfter δ c indenter s
    -- all that is left of a block that went well is to place the caret
    split
    next draft' e hre =>
      rw [hre] at hindented
      exact hindented.advance_rollBack
    next draft' indents hre =>
      rw [hre] at hindented
      exact ((hindented.setCursor _).setSelection _).advance_commit

theorem advance_apply (d : Document) (c : FileChange) (indenter : IndentStyle) (s : Settings) :
    d.Advance (d.apply c indenter s).1 := by
  rw [apply]
  split
  · exact advance_commit d _ c indenter s
  · exact .quiet rfl rfl

/-- Undoing takes the most recent step back and keeps it for redoing. -/
theorem eq_of_undo?_eq_some (h : d.undo? = some d') :
    ∃ s rest, d.history.done = s :: rest ∧ d'.text = Replacement.revert d.text s.replacements ∧
      d'.history = { d.history with done := rest, undone := s :: d.history.undone } := by
  unfold undo? at h
  split at h
  next => cases h
  next s rest hdone =>
    cases h
    exact ⟨s, rest, hdone, rfl, rfl⟩

/-- Redoing makes the step again that was taken back last. -/
theorem eq_of_redo?_eq_some (h : d.redo? = some d') :
    ∃ s rest, d.history.undone = s :: rest ∧ d'.text = Replacement.replay d.text s.replacements ∧
      d'.history = { d.history with done := s :: d.history.done, undone := rest } := by
  unfold redo? at h
  split at h
  next => cases h
  next s rest hundone =>
    cases h
    exact ⟨s, rest, hundone, rfl, rfl⟩

end Document

/-! ### Events -/

/-- What can happen to an open document. -/
inductive DocumentEvent
  /-- An edit block is run. -/
  | block (p : EditProgram)
  /-- A file change is applied. -/
  | change (c : FileChange) (indenter : IndentStyle) (s : Settings)
  /-- The most recent step is undone, if there is one. -/
  | undo
  /-- The step that was undone last is redone, if there is one. -/
  | redo
  /-- The cursor is moved. -/
  | setCursor (o : Nat)
  /-- Characters are selected, or nothing. -/
  | setSelection (s : Option Span)

namespace Document

/-- The document after an event. -/
def handle (d : Document) : DocumentEvent → Document
  | .block p => d.block p
  | .change c indenter s => (d.apply c indenter s).1
  | .undo => d.undo?.getD d
  | .redo => d.redo?.getD d
  | .setCursor o => d.setCursor o
  | .setSelection s => d.setSelection s

/-- The document after a run of events. -/
def after (d : Document) (es : List DocumentEvent) : Document := es.foldl handle d

@[simp] theorem after_nil (d : Document) : d.after [] = d := rfl

@[simp] theorem after_append (d : Document) (es fs : List DocumentEvent) :
    d.after (es ++ fs) = (d.after es).after fs := List.foldl_append

theorem after_concat (d : Document) (es : List DocumentEvent) (e : DocumentEvent) :
    d.after (es ++ [e]) = (d.after es).handle e := by
  rw [after_append]
  rfl

/-- **Every event makes a turn.** -/
theorem turn_handle (d : Document) (e : DocumentEvent) : d.Turn (d.handle e) := by
  cases e with
  | block p => exact .advance (advance_block d p)
  | change c indenter s => exact .advance (advance_apply d c indenter s)
  | undo =>
    rw [handle]
    cases h : d.undo? with
    | none => exact .advance (.quiet rfl rfl)
    | some d' =>
      obtain ⟨s, rest, hdone, htext, hhistory⟩ := eq_of_undo?_eq_some h
      exact .undone s rest hdone htext hhistory
  | redo =>
    rw [handle]
    cases h : d.redo? with
    | none => exact .advance (.quiet rfl rfl)
    | some d' =>
      obtain ⟨s, rest, hundone, htext, hhistory⟩ := eq_of_redo?_eq_some h
      exact .redone s rest hundone htext hhistory
  | setCursor o => exact .advance (.quiet rfl rfl)
  | setSelection s => exact .advance (.quiet rfl rfl)

end Document

end Mend
