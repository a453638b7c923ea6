import LocaleTidy.Corpus.Basic
import LocaleTidy.Corpus.Filter
import LocaleTidy.FileTree.Listing

/-!
# Loading source files

Every file that a walk from one of the roots comes upon and the filter lets through is read
once, whichever root it is reached from. The files are in the order of their paths.
-/

namespace LocaleTidy.Corpus

/-- The first of several paths that have the same steps, in a list that is in order. -/
def firstSpellings : List (Path × Bool) → List (Path × Bool)
  | [] => []
  | item :: rest =>
      item :: (firstSpellings rest).dropWhile fun other => !item.1.before other.1

/-- Puts paths in order. Of several that have the same steps only the first one stays. -/
def inOrder (items : List (Path × Bool)) : List (Path × Bool) :=
  firstSpellings (items.mergeSort fun left right => !right.1.before left.1)

/-- The paths that the walk from a root comes upon and the filter lets through, and whether a
use in them is excluded. -/
def candidates (tree : FileTree) (filter : SourceFilter) (root : Path) : List (Path × Bool) :=
  (tree.listing root).files.filterMap fun path =>
    (filter.judge root path).map fun excluded => (path, excluded)

def paths (tree : FileTree) (roots : List Path) (filter : SourceFilter) : List (Path × Bool) :=
  inOrder ((roots.filter tree.isThere).flatMap (candidates tree filter))

def readFile (tree : FileTree) (path : Path) (excluded : Bool) :
    Except SearchProblem SourceFile :=
  match tree.readText path with
  | .ok content => .ok ⟨path, content, excluded⟩
  | .error error => .error (.unreadable path error)

/-- What goes wrong in the walk from a root. -/
def walkProblems (tree : FileTree) (root : Path) : List SearchProblem :=
  if tree.isThere root then
    (tree.listing root).barred.map fun (directory, error) => .unlistable directory error
  else [.missingRoot root]

/-- Reads the source files below the roots. What goes wrong in the walks and then in the reading
are warnings. -/
def load (tree : FileTree) (roots : List Path) (filter : SourceFilter) : Corpus :=
  let results := (paths tree roots filter).map fun (path, excluded) => readFile tree path excluded
  { files := results.filterMap fun
      | .ok file => some file
      | .error _ => none
    warnings :=
      roots.flatMap (walkProblems tree) ++
        results.filterMap fun
          | .ok _ => none
          | .error problem => some problem }

end LocaleTidy.Corpus
