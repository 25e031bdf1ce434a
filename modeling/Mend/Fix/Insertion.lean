import Mend.Fix.FilePath
import Mend.Snapshot.Lookup

/-!
# Where generated code goes

A place for generated code is told by a file, a row and a column, both counted from one, and it
comes with the text to write before and after the code.

## Main definitions

* `AccessSpec` — the kinds of sections of a class.
* `InsertionPoint` — a place for generated code.
* `ParsedFile.memberPoint` — where to declare a member of a class.
* `Snapshot.definitionPoints` — where to define a member that a class declares.
-/

namespace Mend

/-! ### Sections -/

/-- The kinds of sections of a class. -/
inductive AccessSpec
  /-- Signals. -/
  | signals
  /-- Members for all. -/
  | pub
  /-- Members for the class and those derived from it. -/
  | prot
  /-- Members for the class alone. -/
  | priv
  /-- Slots for all. -/
  | pubSlots
  /-- Slots for the class and those derived from it. -/
  | protSlots
  /-- Slots for the class alone. -/
  | privSlots
  deriving DecidableEq, Repr

namespace AccessSpec

/-- The access level. -/
def level : AccessSpec → AccessLevel
  | signals => .signals
  | pub | pubSlots => .pub
  | prot | protSlots => .prot
  | priv | privSlots => .priv

/-- Whether the members are slots. -/
def isSlots : AccessSpec → Bool
  | pubSlots | protSlots | privSlots => true
  | _ => false

/-- The words of the label of a section. -/
def words (s : AccessSpec) : String :=
  s.level.keyword ++ (if s.isSlots then " slots" else "")

/-- The label of a section. -/
def label (s : AccessSpec) : String := s.words ++ ":"

end AccessSpec

/-! ### Points -/

/-- A place for generated code. -/
structure InsertionPoint where
  /-- The path of the file. -/
  file : String
  /-- The text to write before the code. -/
  before : String
  /-- The text to write after the code. -/
  after : String
  /-- The row, counted from one. -/
  line : Nat
  /-- The column, counted from one. -/
  column : Nat
  deriving DecidableEq, Repr

namespace InsertionPoint

/-- Whether a point names a file, a row and a column. -/
def IsValid (p : InsertionPoint) : Prop := p.file ≠ "" ∧ 0 < p.line ∧ 0 < p.column

instance (p : InsertionPoint) : Decidable p.IsValid := inferInstanceAs (Decidable (_ ∧ _))

/-- The offset of a point in a text. -/
def offsetIn (p : InsertionPoint) (t : Text) : Nat := Text.rowOffset t (p.line - 1) (p.column - 1)

/-- Generated code with the text before and after it. -/
def wrap (p : InsertionPoint) (code : String) : String := p.before ++ code ++ p.after

/-- The point at an offset of a file. -/
def atOffset (f : ParsedFile) (o : Nat) (before after : String) : InsertionPoint :=
  let (row, column) := Text.rowPosition f.text o
  ⟨f.path, before, after, row + 1, column + 1⟩

/-- The point at the end of a file, with a blank row before it. -/
def atEnd (f : ParsedFile) : InsertionPoint :=
  let closed := f.text.isEmpty || f.text.getLast? == some '\n'
  atOffset f f.text.length (if closed then "\n" else "\n\n") "\n"

end InsertionPoint

namespace ParsedFile

variable (f : ParsedFile)

/-- Where to declare a member of a class: at the end of the last section of its kind, or else in a
new section before the closing brace.  Where only blanks stand before the brace on its row, the new
section goes before them. -/
def memberPoint (c : ClassSymbol) (spec : AccessSpec) : InsertionPoint :=
  let isSought (s : AccessSection) : Bool := s.level == spec.level && s.slots == spec.isSlots
  match c.sections.reverse.find? isSought with
  | some s => .atOffset f s.stop "\n" ""
  | none =>
    let rowStart := Text.rowStart f.text (Text.rowOf f.text c.rbrace)
    if (f.slice ⟨rowStart, c.rbrace⟩).all isBlank then
      .atOffset f rowStart (spec.label ++ "\n") "\n"
    else .atOffset f c.rbrace ("\n" ++ spec.label ++ "\n") "\n"

/-- The declarations of a class that stand before one of its members, the nearest first. -/
def declaredBefore (c : ClassSymbol) (member : FunctionSymbol) : List FunctionSymbol :=
  ((f.symbols.functionsIn c.bodyScope).filter fun g =>
    !g.isDefinition && g.nameSpan.start < member.nameSpan.start).reverse

end ParsedFile

namespace Snapshot

variable (s : Snapshot)

/-- Where to declare a member of the class with a number in a file, if there is such a class. -/
def memberPoint? (file : String) (id : Nat) (spec : AccessSpec) : Option InsertionPoint := do
  let f ← s.find? file
  let c ← f.class? id
  return f.memberPoint c spec

/-- The point after the first definition of a member outside of its class. -/
def afterDefinition? (c : ClassSymbol) (member : FunctionSymbol) : Option InsertionPoint := do
  let (f, id) ← (s.memberDefinitions c.path member).head?
  let g ← f.function? id
  return .atOffset f g.span.stop "\n\n" ""

/-- Where to define a function that a file declares, the best place first: after the definition of
the nearest member before it that has one, at the end of the file, and at the end of its partner. -/
def definitionPoints (file : String) (id : Nat) : List InsertionPoint :=
  match s.find? file with
  | none => []
  | some f =>
    match f.function? id with
    | none => []
    | some g =>
      let neighbour :=
        match (f.ownerClass? id).bind f.class? with
        | some c => (f.declaredBefore c g).findSome? (s.afterDefinition? c)
        | none => none
      let partner := (FilePath.partners file).findSome? s.find?
      let points := neighbour.toList ++ InsertionPoint.atEnd f :: (partner.map .atEnd).toList
      (points.filter fun p => decide p.IsValid).eraseReps

end Snapshot

end Mend
