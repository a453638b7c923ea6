import LocaleTidy.FileTree.Operations
import LocaleTidy.Pattern.Compile

/-!
# Source files in memory

The source files of a project, and what went wrong while they were read or searched.
-/

namespace LocaleTidy

structure SourceFile where
  path : Path
  content : String
  /-- Whether the file lies where catalogs are kept. A use in such a file does not count. -/
  excluded : Bool
  deriving DecidableEq, Repr

/-- What can go wrong in a search without ending it. -/
inductive SearchProblem where
  | badPattern (pattern : String) (fault : Pattern.Fault)
  | unreadable (path : Path) (error : FileError)
  | missingRoot (root : Path)
  | unlistable (directory : Path) (error : FileError)
  deriving DecidableEq, Repr

def SearchProblem.message : SearchProblem → String
  | .badPattern pattern fault => s!"invalid search pattern `{pattern}`: {fault.message}"
  | .unreadable path error => s!"cannot read {path.text}: {error.message}"
  | .missingRoot root => s!"cannot access path: source root does not exist: {root.text}"
  | .unlistable directory error =>
      s!"cannot access path: IO error for operation on {directory.text}: {error.message}"

structure Corpus where
  files : List SourceFile
  warnings : List SearchProblem
  deriving DecidableEq, Repr

namespace Corpus

def ofFiles (files : List SourceFile) : Corpus := ⟨files, []⟩

/-- The files in which a use counts. -/
def evidenceFiles (corpus : Corpus) : List SourceFile :=
  corpus.files.filter fun file => !file.excluded

end Corpus

end LocaleTidy
