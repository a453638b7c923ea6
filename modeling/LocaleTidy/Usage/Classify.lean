import LocaleTidy.Usage.Verdict

/-!
# Classifying keys

Each key is decided for itself, and the decisions may come in any order. Each puts its verdict
into the place of its key, counts itself and reports how many are done.
-/

namespace LocaleTidy

structure ProgressReport where
  done : Nat
  total : Nat
  deriving DecidableEq, Repr

/-- The state of a classification that is under way. -/
structure Board where
  /-- The verdicts that are there, each in the place of its key. -/
  slots : List (Option Verdict)
  done : Nat
  reports : List ProgressReport

namespace Board

def empty (total : Nat) : Board :=
  ⟨List.replicate total none, 0, []⟩

/-- A decision comes in for the key at an index. -/
def finish (board : Board) (index : Nat) (verdict : Verdict) : Board where
  slots := board.slots.set index (some verdict)
  done := board.done + 1
  reports := board.reports ++ [⟨board.done + 1, board.slots.length⟩]

def verdicts (board : Board) : List Verdict :=
  board.slots.filterMap id

end Board

namespace Corpus

/-- The decision for the key at an index comes in. -/
def decideAt (corpus : Corpus) (options : UsageOptions) (keys : List String) (board : Board)
    (index : Nat) : Board :=
  match keys[index]? with
  | some key => board.finish index (corpus.decide options key)
  | none => board

/-- Classifies keys; `schedule` lists the indices of the keys in the order in which their
decisions come in. -/
def classifyIn (corpus : Corpus) (options : UsageOptions) (keys : List String)
    (schedule : List Nat) : Board :=
  schedule.foldl (corpus.decideAt options keys) (.empty keys.length)

/-- Classifies keys one after the other. -/
def classify (corpus : Corpus) (options : UsageOptions) (keys : List String) : Board :=
  corpus.classifyIn options keys (List.range keys.length)

end Corpus

end LocaleTidy
