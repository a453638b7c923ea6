import LocaleTidy.Corpus.Basic

/-!
# Searches

How source files are searched for one text. A search finds the first file that shows the text,
or finds none, or cannot be carried out.
-/

namespace LocaleTidy

structure SearchOptions where
  function : String
  namespaceFunctions : List String
  limit : Nat
  deriving DecidableEq, Repr

inductive SearchOutcome where
  | found (path : Path)
  | notFound
  | failed (problem : SearchProblem)
  deriving DecidableEq, Repr

namespace SearchOptions

def compile (options : SearchOptions) (pattern : String) : Except SearchProblem Regex :=
  (Pattern.compile options.limit pattern).mapError (.badPattern pattern)

end SearchOptions

/-- The first of some files whose content is accepted. -/
def firstMatch (files : List SourceFile) (accepts : String → Bool) : SearchOutcome :=
  match files.find? fun file => accepts file.content with
  | some file => .found file.path
  | none => .notFound

def searchPattern (options : SearchOptions) (pattern : String) (files : List SourceFile) :
    SearchOutcome :=
  match options.compile pattern with
  | .ok regex => firstMatch files regex.foundIn
  | .error problem => .failed problem

namespace Corpus

/-- Looks for a text as a literal or as the argument of the lookup function. -/
def findReference (corpus : Corpus) (options : SearchOptions) (text : String) : SearchOutcome :=
  searchPattern options (Pattern.anyOf (Pattern.references options.function text))
    corpus.evidenceFiles

/-- The files that bind a namespace, excluded ones among them. -/
def declaring (corpus : Corpus) (options : SearchOptions) (space : String) :
    Except SearchProblem (List SourceFile) :=
  if options.namespaceFunctions.isEmpty then .ok []
  else do
    let regex ← options.compile (Pattern.declaration options.namespaceFunctions space)
    return corpus.files.filter fun file => regex.foundIn file.content

/-- Looks for a call with the last segment of a key in some files. -/
def findCall (options : SearchOptions) (key : String) (files : List SourceFile) :
    SearchOutcome :=
  if files.isEmpty then .notFound
  else
    searchPattern options
      (Pattern.anyOf (Pattern.calls options.function (Key.lastSegment key))) files

/-- Looks for a call with the last segment of a key in the files that bind a namespace. -/
def findNamespaced (corpus : Corpus) (options : SearchOptions) (key space : String) :
    SearchOutcome :=
  match corpus.declaring options space with
  | .ok files => findCall options key files
  | .error problem => .failed problem

/-- Looks for a line that holds a text in apostrophes and iterates. -/
def findIterated (corpus : Corpus) (base : String) : SearchOutcome :=
  firstMatch corpus.evidenceFiles fun content =>
    (Text.split '\n' content).any fun line =>
      Text.contains line ("'" ++ base ++ "'") && Pattern.iterates line

/-- Looks for a key in which the interior indices may differ. Where the pattern for that does
not compile, a line that iterates over the first segment counts instead. -/
def findIndexed (corpus : Corpus) (options : SearchOptions) (key : String) : SearchOutcome :=
  match options.compile (Pattern.generalized key) with
  | .ok regex => firstMatch corpus.evidenceFiles regex.foundIn
  | .error problem =>
      match corpus.findIterated (Key.firstSegment key) with
      | .notFound => .failed problem
      | outcome => outcome

end Corpus

end LocaleTidy
