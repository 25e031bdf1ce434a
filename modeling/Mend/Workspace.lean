import Mend.Document.Apply
import Mend.NameMap

/-!
# Workspaces

A workspace holds the open documents.  A change of several files is made in all of them or in none:
every file is planned before the first one is changed.

## Main definitions

* `Workspace` with `open`, `close` and `find?` — the open documents by path.
* `Workspace.plan` — the deltas of a change of several files.
* `Workspace.apply` — such a change as a whole.
-/

namespace Mend

/-- The open documents. -/
structure Workspace where
  /-- The documents by path. -/
  documents : NameMap Document
  deriving DecidableEq

namespace Workspace

/-- The workspace without open documents. -/
def empty : Workspace := ⟨.empty⟩

instance : Inhabited Workspace := ⟨empty⟩

/-- The document with a path. -/
def find? (w : Workspace) (path : String) : Option Document := w.documents.find? path

/-- Keeps a document under a path. -/
def put (w : Workspace) (path : String) (d : Document) : Workspace :=
  ⟨w.documents.insert path d⟩

/-- Opens a document, in place of the one with the same path if there is one. -/
def «open» (w : Workspace) (path : String) (text : Text) : Workspace :=
  w.put path (.open path text)

/-- Closes a document. -/
def close (w : Workspace) (path : String) : Workspace := ⟨w.documents.erase path⟩

/-- A file change together with its delta. -/
structure PlannedFile where
  /-- The path of the file. -/
  path : String
  /-- What is to be done to it. -/
  change : FileChange
  /-- The delta that does it. -/
  delta : Delta
  deriving DecidableEq, Repr

/-- Resolves file changes against the open documents, in order. -/
def plan (w : Workspace) : List (String × FileChange) → Except ApplyError (List PlannedFile)
  | [] => .ok []
  | (path, change) :: rest =>
    match w.find? path with
    | none => .error (.notOpen path)
    | some d =>
      match d.plan change with
      | .error e => .error e
      | .ok delta =>
        match plan w rest with
        | .error e => .error e
        | .ok planned => .ok (⟨path, change, delta⟩ :: planned)

/-- Undoes the last step of a document. -/
def undo (w : Workspace) (path : String) : Workspace :=
  match (w.find? path).bind Document.undo? with
  | some d => w.put path d
  | none => w

/-- Makes planned changes one after the other.  Should one of them fail, those before it are
undone; `changed` lists the files whose text was changed so far, the last one first. -/
def commitEach (indenter : IndentStyle) (s : Settings) (w : Workspace) (changed : List String) :
    List PlannedFile → Workspace × Except ApplyError (NameMap Outcome)
  | [] => (w, .ok .empty)
  | p :: rest =>
    match w.find? p.path with
    | none => (w, .error (.notOpen p.path))
    | some d =>
      match d.commit p.delta p.change indenter s with
      | (d', .error e) => (changed.foldl undo (w.put p.path d'), .error e)
      | (d', .ok outcome) =>
        let changed := if p.delta.edits = [] then changed else p.path :: changed
        match commitEach indenter s (w.put p.path d') changed rest with
        | (w', .ok outcomes) => (w', .ok (outcomes.insert p.path outcome))
        | (w', .error e) => (w', .error e)

/-- Makes a change of several files, in ascending order of their paths. -/
def apply (w : Workspace) (files : NameMap FileChange) (indenter : IndentStyle) (s : Settings) :
    Workspace × Except ApplyError (NameMap Outcome) :=
  match w.plan files.entries with
  | .error e => (w, .error e)
  | .ok planned => commitEach indenter s w [] planned

/-- A change that is refused when it is planned leaves every document alone. -/
theorem apply_of_plan_eq_error {w : Workspace} {files : NameMap FileChange} {e : ApplyError}
    (indenter : IndentStyle) (s : Settings) (h : w.plan files.entries = .error e) :
    w.apply files indenter s = (w, .error e) := by
  simp [apply, h]

end Workspace

end Mend
