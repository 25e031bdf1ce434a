import Mend.Text.Blank

/-!
# Spelled types

A type is known by its spelling: the words of its specifiers, and the pointer and reference signs
after them.  No type is ever resolved further than to the class or the enumeration it names.

## Main definitions

* `SpelledType` — a base and its signs; `SpelledType.render` is how it is written.
* `SpelledType.pointerTo`, `SpelledType.pointee?` — one sign more, one sign less.
* `SpelledType.plain` — the type without `const`, `volatile` and references.
* `SpelledType.nameWords` — the words of the name that the base is.
-/

namespace Mend

namespace Text

/-- The pieces of a text between blanks. -/
def betweenBlanks (t : Text) : List Text :=
  (t.splitBy fun a b => isBlank a == isBlank b).filter fun w => !w.any isBlank

/-- The pieces of a text between pairs of colons. -/
def betweenColons : Text → List Text
  | [] => [[]]
  | ':' :: ':' :: rest => [] :: betweenColons rest
  | c :: rest =>
    match betweenColons rest with
    | [] => [[c]]
    | w :: ws => (c :: w) :: ws

end Text

/-- A type as it is spelled. -/
structure SpelledType where
  /-- The specifiers and the name of the type. -/
  base : String
  /-- The pointer and reference signs, the outermost one last. -/
  signs : String
  deriving DecidableEq, Repr, Inhabited

namespace SpelledType

/-- A type without signs. -/
def named (base : String) : SpelledType := ⟨base, ""⟩

/-- The type of what returns nothing at all, such as a constructor. -/
def isEmpty (t : SpelledType) : Bool := t.base.isEmpty && t.signs.isEmpty

/-- A pointer. -/
def isPointer (t : SpelledType) : Bool := t.signs.toList.getLast? == some '*'

/-- The type of a pointer to values of this type. -/
def pointerTo (t : SpelledType) : SpelledType := { t with signs := t.signs.push '*' }

/-- The type of what a pointer points to. -/
def pointee? (t : SpelledType) : Option SpelledType :=
  if t.isPointer then some { t with signs := String.ofList t.signs.toList.dropLast } else none

/-- The type without `const` and `volatile`, and without the references it ends with. -/
def plain (t : SpelledType) : SpelledType where
  base := " ".intercalate <|
    ((Text.betweenBlanks t.base.toList).map String.ofList).filter fun w =>
      w != "const" && w != "volatile"
  signs := String.ofList (t.signs.toList.reverse.dropWhile (· == '&')).reverse

/-- The words of the name that the base is; none when the base has several parts. -/
def nameWords (t : SpelledType) : List String :=
  let base := t.plain.base.toList
  if base.isEmpty || base.contains ' ' then []
  else ((Text.betweenColons base).filter fun w => !w.isEmpty).map String.ofList

/-- How a type is written: a space stands between the base and the signs. -/
def render (t : SpelledType) : String :=
  if t.signs.isEmpty then t.base
  else if t.base.isEmpty then t.signs
  else t.base ++ " " ++ t.signs

/-- The type of a pointer points to the type it was made from. -/
@[simp] theorem pointee?_pointerTo (t : SpelledType) : t.pointerTo.pointee? = some t := by
  simp [pointerTo, pointee?, isPointer]

end SpelledType

end Mend
