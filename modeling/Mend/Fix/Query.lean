import Mend.Settings.Basic
import Mend.Snapshot.Typing

/-!
# Queries

A query asks which fixes there are for a file at a cursor.  It carries everything that a fix may
look at: the files of the project, the settings, and the nodes at the cursor.

## Main definitions

* `Query` — a query; `Query.path` are the nodes at its cursor.
* `Query.inward`, `Query.outward` — those nodes with their depths, in both directions.
* `Query.isOnToken`, `Query.isOnNode` — whether the query is about a token or a node.
* `Query.enclosingCall?` — the call that the innermost node is a part of.
-/

namespace Mend

/-- A query for fixes. -/
structure Query where
  /-- The files of the project. -/
  snapshot : Snapshot
  /-- The file. -/
  file : ParsedFile
  /-- The choices of the user. -/
  settings : Settings
  /-- The offset of the cursor. -/
  cursor : Nat
  /-- The selected span, if there is one. -/
  selection : Option Span

namespace Query

variable (q : Query)

/-- The nodes at the cursor, from the root to the innermost. -/
def path : List SyntaxTree := q.file.pathAt q.cursor

/-- The innermost node at the cursor. -/
def innermost? : Option SyntaxTree := q.path.getLast?

/-- The depth of the innermost node. -/
def depth : Nat := q.path.length - 1

/-- The nodes at the cursor with their depths, from the root inward. -/
def inward : List (SyntaxTree × Nat) := q.path.zipIdx

/-- The nodes at the cursor with their depths, from the innermost outward. -/
def outward : List (SyntaxTree × Nat) := q.inward.reverse

/-- What the query is about: the start of the selection, or the cursor. -/
def focus : Nat :=
  match q.selection with
  | some s => s.start
  | none => q.cursor

/-- Whether the query is about a token.  Both ends of the token count. -/
def isOnToken (i : Nat) : Bool := q.file.isOnToken q.focus i

/-- Whether the query is about a node.  Both ends of the node count. -/
def isOnNode (t : SyntaxTree) : Bool := decide ((q.file.spanOf t).Touches q.focus)

/-- The call that the innermost node is a direct part of, with the name of what is called, when
that is a plain name. -/
def enclosingCall? : Option (SyntaxTree × String) :=
  match q.path.dropLast.getLast? with
  | none => none
  | some t =>
    match t.label.kind, t.children with
    | .call _ _, callee :: _ =>
      match callee.label.kind with
      | .simpleName i => some (t, q.file.spelling i)
      | _ => none
    | _, _ => none

/-- What the nodes at the cursor decide, from the innermost outward.  A node may pass the question
on; the first one that does not has the last word, and may say that there is nothing. -/
def decideOutward {α : Type} (decision : SyntaxTree → Nat → Option (Option α)) : Option α :=
  (q.outward.findSome? fun n => decision n.1 n.2).join

end Query

end Mend
