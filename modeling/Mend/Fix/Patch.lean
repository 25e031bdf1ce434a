import Mend.Workspace
import Mend.Fix.Query

/-!
# Patches

A patch is what a fix does: changes to files, and places whose lines get their indentation
afterwards.  A fix proposes a patch; why it cannot is an error.

## Main definitions

* `Patch` — changes to files, by path.
* `FixError` — why a fix fails.
* `Proposal` — a fix as it is found: what it is called, how much it is preferred, how deep its node
  lies, and its patch.
* `Proposal.atDepth` — a fix with the priority that its depth gives it, as all fixes have it.
-/

namespace Mend

/-- Changes to files, by path. -/
abbrev Patch := NameMap FileChange

/-- Whether a patch changes no text. -/
def Patch.isIdle (p : Patch) : Bool := p.values.all (·.changes.changes.isEmpty)

/-- Why a fix fails. -/
inductive FixError
  /-- Its changes contradict each other. -/
  | conflict (error : ChangeError)
  /-- The workspace refuses its patch. -/
  | apply (error : ApplyError)
  /-- A document is not as it was when it was read. -/
  | stale (path : String) (parsed live : Nat)
  /-- A document is not open. -/
  | notOpen (path : String)
  /-- The type of an expression cannot be told. -/
  | unresolvedType (expression : Text)
  /-- There is no place for generated code. -/
  | noInsertionPoint (file : String)
  deriving DecidableEq, Repr

/-- The error as told to the user. -/
def FixError.message : FixError → String
  | .conflict e => e.message
  | .apply e => e.message
  | .stale path parsed live =>
    "snapshot of `" ++ path ++ "` is stale: parsed revision " ++ toString parsed ++
      ", document revision " ++ toString live
  | .notOpen path => "no open document for `" ++ path ++ "`"
  | .unresolvedType e => "cannot resolve the type of `" ++ String.ofList e ++ "`"
  | .noInsertionPoint file => "no valid insertion point for `" ++ file ++ "`"

/-- A patch for a single file. -/
def Patch.ofChanges (path : String) (changes : List Change) (reindent : List Span) :
    Except FixError Patch :=
  match ChangeSet.ofChanges changes with
  | .ok changes => .ok (NameMap.empty.insert path { changes, reindent })
  | .error e => .error (.conflict e)

/-- A fix as it is found. -/
structure Proposal where
  /-- What the user sees of it. -/
  description : String
  /-- How much it is preferred. -/
  priority : Int
  /-- How deep the node lies that it changes. -/
  depth : Nat
  /-- What it does. -/
  patch : Except FixError Patch

namespace Proposal

/-- A depth as a priority, which is a 32-bit number with a sign. -/
def priorityAt (depth : Nat) : Int := (depth : Int).bmod 4294967296

/-- A fix that is preferred the more, the deeper the node lies that it changes. -/
def atDepth (description : String) (depth : Nat) (patch : Except FixError Patch) : Proposal :=
  ⟨description, priorityAt depth, depth, patch⟩

@[simp] theorem patch_atDepth (description : String) (depth : Nat)
    (patch : Except FixError Patch) : (atDepth description depth patch).patch = patch := rfl

end Proposal

/-- A fix of the file that a query is about. -/
def Query.propose (q : Query) (description : String) (depth : Nat) (changes : List Change)
    (reindent : List Span) : Proposal :=
  .atDepth description depth (Patch.ofChanges q.file.path changes reindent)

@[simp] theorem Query.patch_propose (q : Query) (description : String) (depth : Nat)
    (changes : List Change) (reindent : List Span) :
    (q.propose description depth changes reindent).patch =
      Patch.ofChanges q.file.path changes reindent := rfl

end Mend
