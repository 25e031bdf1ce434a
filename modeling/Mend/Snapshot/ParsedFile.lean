import Mend.Symbols.Bind
import Mend.Text.Rows
import Mend.NameMap

/-!
# Parsed files

A file as it was when it was read: its text with everything that was found there, and the revision
of the document that the text was taken from.  A snapshot holds the files of a project.

## Main definitions

* `Language` — the languages, told from the path of a file.
* `ParsedFile` and `ParsedFile.parse` — a file that has been read.
* `Snapshot` — files by path.
-/

namespace Mend

/-- The languages of code. -/
inductive Language
  /-- The usual one. -/
  | cpp
  /-- The one in which strings may have a sign before them. -/
  | objectiveCpp
  deriving DecidableEq, Repr

/-- The language of a file, told from its path. -/
def Language.ofPath (path : String) : Language :=
  if ".mm".toList.isSuffixOf path.toList then .objectiveCpp else .cpp

namespace SourceCode

/-- What has been read from a text has that text. -/
theorem text_of_ofText {t : Text} {c : SourceCode} (h : ofText t = .ok c) : c.text = t := by
  unfold ofText at h
  split at h
  · cases h
  · split at h
    · cases h
    · cases h; rfl

end SourceCode

/-- A file that has been read. -/
structure ParsedFile extends SourceCode where
  /-- Its path. -/
  path : String
  /-- The revision of the document that the text was taken from. -/
  revision : Nat
  /-- The language. -/
  language : Language
  /-- The symbols. -/
  symbols : SymbolTable
  /-- Everything was found by reading the text. -/
  isReading : SourceCode.ofText text = .ok toSourceCode
  /-- The symbols are those of the tree. -/
  symbols_eq : symbols = toSourceCode.symbolTable

namespace ParsedFile

/-- Reads a file in a language. -/
def parseAs (path : String) (revision : Nat) (language : Language) (text : Text) :
    Except SyntaxError ParsedFile :=
  match h : SourceCode.ofText text with
  | .error e => .error e
  | .ok code => .ok {
      code with
      path, revision, language
      symbols := code.symbolTable
      isReading := SourceCode.text_of_ofText h ▸ h
      symbols_eq := rfl }

/-- Reads a file in the language of its path. -/
def parse (path : String) (revision : Nat) (text : Text) : Except SyntaxError ParsedFile :=
  parseAs path revision (.ofPath path) text

end ParsedFile

/-- Parsed files by path. -/
abbrev Snapshot := NameMap ParsedFile

namespace Snapshot

/-- Adds a file, in place of the one with its path. -/
def add (s : Snapshot) (f : ParsedFile) : Snapshot := s.insert f.path f

end Snapshot

end Mend
