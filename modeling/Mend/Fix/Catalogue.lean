import Mend.StableSort
import Mend.Fix.Comparison
import Mend.Fix.Declaration
import Mend.Fix.Branch
import Mend.Fix.Literal
import Mend.Fix.Header
import Mend.Fix.Rename
import Mend.Fix.Member

/-!
# All fixes

The kinds of fixes, in the order in which fixes of the same depth are listed.  Each kind has a name
by which a user can turn it off.

A fix is applied only to documents that are as they were when they were read.  Whatever goes wrong,
no document changes.

## Main definitions

* `FixKind` — the kinds of fixes; `FixKind.id` is the name of one.
* `Fix` — a fix that is offered.
* `Query.fixes` — the fixes for a query, the best first.
* `Workspace.fixesAt` — the fixes for a document that is open.
* `Fix.apply` — applying a fix.
-/

namespace Mend

/-! ### Kinds -/

/-- The kinds of fixes. -/
inductive FixKind
  /-- See `Query.invertComparison`. -/
  | invertComparison
  /-- See `Query.swapOperands`. -/
  | swapOperands
  /-- See `Query.joinNegations`. -/
  | joinNegations
  /-- See `Query.splitDeclaration`. -/
  | splitDeclaration
  /-- See `Query.addBraces`. -/
  | addBraces
  /-- See `Query.hoistFromIf`. -/
  | hoistFromIf
  /-- See `Query.hoistFromWhile`. -/
  | hoistFromWhile
  /-- See `Query.splitIf`. -/
  | splitIf
  /-- See `Query.wrapLiteral`. -/
  | wrapLiteral
  /-- See `Query.translateString`. -/
  | translateString
  /-- See `Query.signString`. -/
  | signString
  /-- See `Query.convertInteger`. -/
  | convertInteger
  /-- See `Query.completeSwitch`. -/
  | completeSwitch
  /-- See `Query.includeHeader`. -/
  | includeHeader
  /-- See `Query.declareLocal`. -/
  | declareLocal
  /-- See `Query.renameToCamelCase`. -/
  | renameToCamelCase
  /-- See `Query.declareMember`. -/
  | declareMember
  /-- See `Query.defineMember`. -/
  | defineMember
  deriving DecidableEq, Repr

namespace FixKind

/-- All kinds, in the order in which they are listed. -/
def all : List FixKind :=
  [
    invertComparison, swapOperands, joinNegations, splitDeclaration, addBraces, hoistFromIf,
    hoistFromWhile, splitIf, wrapLiteral, translateString, signString, convertInteger,
    completeSwitch, includeHeader, declareLocal, renameToCamelCase, declareMember, defineMember
  ]

/-- The name of a kind in the settings. -/
def id : FixKind → String
  | invertComparison => "use-inverse-operator"
  | swapOperands => "flip-binary-operands"
  | joinNegations => "rewrite-logical-and"
  | splitDeclaration => "split-declaration"
  | addBraces => "add-braces-to-if"
  | hoistFromIf => "move-declaration-out-of-if"
  | hoistFromWhile => "move-declaration-out-of-while"
  | splitIf => "split-if-statement"
  | wrapLiteral => "wrap-string-literal"
  | translateString => "translate-string-literal"
  | signString => "convert-cstring-to-nsstring"
  | convertInteger => "convert-numeric-literal"
  | completeSwitch => "complete-switch-case"
  | includeHeader => "fix-forward-declaration"
  | declareLocal => "add-local-declaration"
  | renameToCamelCase => "convert-to-camel-case"
  | declareMember => "insert-declaration-from-definition"
  | defineMember => "insert-definition-from-declaration"

/-- The place of a kind among all kinds. -/
def order (k : FixKind) : Nat := all.idxOf k

/-- What a kind of fixes has to offer. -/
def proposals (q : Query) : FixKind → List Proposal
  | invertComparison => q.invertComparison
  | swapOperands => q.swapOperands
  | joinNegations => q.joinNegations
  | splitDeclaration => q.splitDeclaration
  | addBraces => q.addBraces
  | hoistFromIf => q.hoistFromIf
  | hoistFromWhile => q.hoistFromWhile
  | splitIf => q.splitIf
  | wrapLiteral => q.wrapLiteral
  | translateString => q.translateString
  | signString => q.signString
  | convertInteger => q.convertInteger
  | completeSwitch => q.completeSwitch
  | includeHeader => q.includeHeader
  | declareLocal => q.declareLocal
  | renameToCamelCase => q.renameToCamelCase
  | declareMember => q.declareMember
  | defineMember => q.defineMember

end FixKind

/-! ### Fixes -/

/-- A fix that is offered. -/
structure Fix extends Proposal where
  /-- Its kind. -/
  kind : FixKind
  /-- The query that it answers. -/
  query : Query

namespace Fix

/-- Whether a fix may be listed before another one: it is preferred, or its node lies deeper, or
neither of the two decides and its kind does not come later. -/
def mayPrecede (x y : Fix) : Bool :=
  y.priority < x.priority || (x.priority == y.priority &&
    (y.depth < x.depth || (x.depth == y.depth && x.kind.order ≤ y.kind.order)))

end Fix

namespace Query

/-- The fixes of a kind, unless the user has turned it off. -/
def fixesOf (q : Query) (k : FixKind) : List Fix :=
  if q.settings.isEnabled k.id then
    (k.proposals q).map fun p => { p with kind := k, query := q }
  else []

/-- The fixes for a query, the best first.  Where there is no node there is no fix. -/
def fixes (q : Query) : List Fix :=
  if q.path.isEmpty then [] else stableSort Fix.mayPrecede (FixKind.all.flatMap q.fixesOf)

end Query

/-! ### Applying a fix -/

namespace Workspace

/-- Why a file that was read is not the document of its path any more, if it is not. -/
def staleness? (w : Workspace) (f : ParsedFile) : Option FixError :=
  match w.find? f.path with
  | none => some (.notOpen f.path)
  | some d =>
    if d.revision = f.revision ∧ d.text = f.text then none
    else some (.stale f.path f.revision d.revision)

/-- The fixes at a cursor in a document, the best first.  There are none when the document is not
open, has not been read, or has changed since. -/
def fixesAt (w : Workspace) (snapshot : Snapshot) (settings : Settings) (path : String)
    (cursor : Nat) (selection : Option Span) : List Fix :=
  match snapshot.find? path with
  | none => []
  | some file =>
    if (w.staleness? file).isSome then []
    else (Query.mk snapshot file settings cursor selection).fixes

end Workspace

namespace Fix

/-- A patch whose changes hold for the revisions at which the files were read. -/
def pinned (x : Fix) (p : Patch) : Patch :=
  p.mapNamed fun path c =>
    { c with
      baseRevision := c.baseRevision <|> (x.query.snapshot.find? path).map (·.revision) }

/-- Why a fix cannot be applied, if one of its files has changed since it was read. -/
def staleness? (x : Fix) (w : Workspace) (p : Patch) : Option FixError :=
  (p.keys.filterMap x.query.snapshot.find?).findSome? w.staleness?

/-- Applies a fix to the documents of a workspace. -/
def apply (x : Fix) (w : Workspace) (indenter : IndentStyle) :
    Workspace × Except FixError (NameMap Outcome) :=
  match w.staleness? x.query.file with
  | some e => (w, .error e)
  | none =>
    match x.patch with
    | .error e => (w, .error e)
    | .ok p =>
      match x.staleness? w p with
      | some e => (w, .error e)
      | none =>
        let (w, r) := w.apply (x.pinned p) indenter x.query.settings
        (w, r.mapError .apply)

end Fix

end Mend
