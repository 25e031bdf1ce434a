import Mend.Text.Slice

/-!
# Paths of code files

A header and the source file that belongs to it have the same path up to the ending.

## Main definitions

* `FilePath.lastPart` — the name of a file without its directories.
* `FilePath.partners` — the paths that the partner of a file may have.
-/

namespace Mend

namespace FilePath

/-- The name of a file without its directories, which end with a slash of either kind. -/
def lastPart (path : Text) : Text :=
  (path.reverse.takeWhile fun c => c != '/' && c != '\\').reverse

/-- The number of slashes in a path. -/
def depth (path : Text) : Nat := path.count '/'

/-- The part of a path before its last dot, and the part after it. -/
def splitEnding? (path : Text) : Option (Text × Text) :=
  if path.contains '.' then
    let ending := (path.reverse.takeWhile (· != '.')).reverse
    some (path.take (path.length - ending.length - 1), ending)
  else none

/-- The endings of headers, in no order of their own. -/
def headerEndings : List String := ["h", "hh", "hpp", "hxx"]

/-- The endings of source files, in no order of their own. -/
def sourceEndings : List String := ["c", "cc", "cpp", "cxx", "mm"]

/-- The endings that the partner of a file with an ending may have, the likeliest first. -/
def partnerEndings (ending : String) : List String :=
  if headerEndings.contains ending then ["cpp", "cc", "cxx", "mm", "c"]
  else if sourceEndings.contains ending then ["h", "hpp", "hh", "hxx"]
  else []

/-- The paths that the partner of a file may have, the likeliest first.  A path with a line feed
before its ending has no partner. -/
def partners (path : String) : List String :=
  match splitEnding? path.toList with
  | some (stem, ending) =>
    if stem.contains '\n' then []
    else
      (partnerEndings (String.ofList ending)).map fun e =>
        String.ofList (stem ++ '.' :: e.toList)
  | none => []

end FilePath

end Mend
