import LocaleTidy.Usage.Search

/-!
# Verdicts

A key is used if one search of a chain finds it. The chain goes from the most specific search
to the least specific one, and the first search that finds a file is the evidence.
-/

namespace LocaleTidy

inductive Strategy where
  | dynamicIndex
  | fullKey
  | inNamespace (space : String)
  | variation (text : String)
  | errorKey (text : String)
  deriving DecidableEq, Repr

def Strategy.describe : Strategy → String
  | .dynamicIndex => "dynamic index"
  | .fullKey => "full key"
  | .inNamespace space => s!"namespace `{space}`"
  | .variation text => s!"variation `{text}`"
  | .errorKey text => s!"error key `{text}`"

structure Evidence where
  strategy : Strategy
  file : Path
  deriving DecidableEq, Repr

structure Verdict where
  key : String
  evidence : Option Evidence
  /-- The searches for the key that could not be carried out. -/
  failures : List SearchProblem
  deriving DecidableEq, Repr

def Verdict.isUsed (verdict : Verdict) : Bool :=
  verdict.evidence.isSome

structure UsageOptions where
  search : SearchOptions
  errorNamespaces : List String
  bareLeafFallback : Bool
  deriving DecidableEq, Repr

inductive Query where
  | indexed (key : String)
  | reference (text : String)
  | namespaced (key space : String)
  deriving DecidableEq, Repr

def Query.run (corpus : Corpus) (options : SearchOptions) : Query → SearchOutcome
  | .indexed key => corpus.findIndexed options key
  | .reference text => corpus.findReference options text
  | .namespaced key space => corpus.findNamespaced options key space

namespace UsageOptions

/-- The variations of a key after the key itself that are looked for. -/
def laterVariations (options : UsageOptions) (key : String) : List String :=
  ((Key.variations key).drop 1).filter fun text =>
    options.bareLeafFallback || text.toList.contains '.'

/-- The searches for a key, in order. -/
def chain (options : UsageOptions) (key : String) : List (Strategy × Query) :=
  (if Key.isDynamicIndex key then [(.dynamicIndex, .indexed key)] else []) ++
  [(.fullKey, .reference key)] ++
  (((Key.namespaceOf key).filter (!·.isEmpty)).map fun space =>
    (.inNamespace space, .namespaced key space)).toList ++
  ((options.laterVariations key).map fun text => (.variation text, .reference text)) ++
  ((Key.withoutErrorNamespace options.errorNamespaces key).map fun text =>
    (.errorKey text, .reference text)).toList

end UsageOptions

namespace Corpus

/-- Carries out searches until one finds a file; the second component lists the ones before it
that failed. -/
def firstEvidence (corpus : Corpus) (options : SearchOptions) :
    List (Strategy × Query) → Option Evidence × List SearchProblem
  | [] => (none, [])
  | (strategy, query) :: rest =>
      match query.run corpus options with
      | .found file => (some ⟨strategy, file⟩, [])
      | .notFound => corpus.firstEvidence options rest
      | .failed problem =>
          let (evidence, failures) := corpus.firstEvidence options rest
          (evidence, problem :: failures)

def decide (corpus : Corpus) (options : UsageOptions) (key : String) : Verdict :=
  let (evidence, failures) := corpus.firstEvidence options.search (options.chain key)
  ⟨key, evidence, failures⟩

end Corpus

end LocaleTidy
