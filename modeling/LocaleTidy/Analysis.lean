import LocaleTidy.Catalog.File
import LocaleTidy.Corpus.Load
import LocaleTidy.Usage.Classify

/-!
# Analysing a project

The keys of the catalog file are classified against the source files. Nothing is changed.
-/

namespace LocaleTidy

structure Analysis where
  messagesPath : Path
  catalog : Catalog
  /-- One verdict for each key, in the order of the document. -/
  verdicts : List Verdict
  sourceFiles : Nat
  /-- What went wrong while the source files were loaded. -/
  warnings : List SearchProblem
  reports : List ProgressReport

namespace Analysis

def unusedKeys (analysis : Analysis) : List String :=
  (analysis.verdicts.filter fun verdict => !verdict.isUsed).map (·.key)

/-- Adds the problems that are not in a list yet, in order. -/
def addMissing (known : List SearchProblem) (problems : List SearchProblem) :
    List SearchProblem :=
  problems.foldl (fun known problem => if problem ∈ known then known else known ++ [problem]) known

/-- The warnings, followed by each failed search once. -/
def allWarnings (analysis : Analysis) : List SearchProblem :=
  addMissing analysis.warnings (analysis.verdicts.flatMap (·.failures))

end Analysis

def UsageOptions.ofSettings (settings : Settings) : UsageOptions where
  search :=
    { function := settings.lookupFunction
      namespaceFunctions := settings.namespaceFunctions
      limit := Pattern.defaultLimit }
  errorNamespaces := settings.errorNamespaces
  bareLeafFallback := settings.bareLeafFallback

def analyze (tree : FileTree) (settings : Settings) (root : Path) :
    Except ProjectError Analysis := do
  let messagesPath := settings.messagesPath root
  let catalog ← Catalog.load tree messagesPath
  let filter ← (SourceFilter.ofSettings settings root).mapError .badIgnores
  let corpus := Corpus.load tree (settings.sourcePaths root) filter
  let board := corpus.classify (.ofSettings settings) catalog.keys
  return {
    messagesPath
    catalog
    verdicts := board.verdicts
    sourceFiles := corpus.files.length
    warnings := corpus.warnings
    reports := board.reports }

end LocaleTidy
