import Mathlib.Data.List.Induction
import LocaleTidy.Analysis

/-!
# Verdicts of a classification

Once every key is decided, the verdicts are those of the keys, in the order of the keys.
-/

namespace LocaleTidy.Corpus

variable (corpus : Corpus) (options : UsageOptions) (keys : List String)

/-! ## Decisions that come in -/

/-- The reports of the first decisions that come in. -/
def reportsUpTo (count total : Nat) : List ProgressReport :=
  (List.range count).map fun index => ⟨index + 1, total⟩

theorem reportsUpTo_succ (count total : Nat) :
    reportsUpTo (count + 1) total = reportsUpTo count total ++ [⟨count + 1, total⟩] := by
  simp [reportsUpTo, List.range_succ]

/-- A board that has the decisions for the keys at some indices, and no others. -/
structure HasDecided (indices : List Nat) (board : Board) : Prop where
  done : board.done = indices.length
  reports : board.reports = reportsUpTo indices.length keys.length
  slots : board.slots = keys.mapIdx fun index key =>
    if index ∈ indices then some (corpus.decide options key) else none

variable {corpus options keys} {indices : List Nat} {index : Nat} {board : Board}

/-- One more decision is put into the place of its key and reported with the next number. -/
theorem HasDecided.decideAt (h : HasDecided corpus options keys indices board)
    (hindex : index < keys.length) :
    HasDecided corpus options keys (indices ++ [index])
      (corpus.decideAt options keys board index) := by
  have hboard : corpus.decideAt options keys board index =
      board.finish index (corpus.decide options keys[index]) := by
    rw [Corpus.decideAt, List.getElem?_eq_getElem hindex]
  rw [hboard]
  refine ⟨?_, ?_, ?_⟩
  · simp [Board.finish, h.done]
  · simp [Board.finish, h.done, h.reports, h.slots, reportsUpTo_succ]
  · refine List.ext_getElem? fun other => ?_
    rw [Board.finish, h.slots, List.getElem?_set]
    by_cases hother : index = other
    · subst hother
      simp [hindex]
    · simp [hother, Ne.symm hother]

theorem hasDecided_classifyIn (h : ∀ index ∈ indices, index < keys.length) :
    HasDecided corpus options keys indices (corpus.classifyIn options keys indices) := by
  induction indices using List.reverseRecOn with
  | nil =>
      refine ⟨rfl, rfl, List.ext_getElem ?_ fun index _ _ => ?_⟩
      · simp [classifyIn, Board.empty]
      · simp [classifyIn, Board.empty]
  | append_singleton indices index ih =>
      rw [classifyIn, List.foldl_append, ← classifyIn, List.foldl_cons, List.foldl_nil]
      exact (ih fun other hother => h other (List.mem_append_left _ hother)).decideAt
        (h index (by simp))

theorem HasDecided.verdicts_eq (h : HasDecided corpus options keys indices board)
    (hall : ∀ index < keys.length, index ∈ indices) :
    board.verdicts = keys.map (corpus.decide options) := by
  have hslots : board.slots = keys.map fun key => some (corpus.decide options key) := by
    rw [h.slots]
    refine List.ext_getElem (by simp) fun index hindex _ => ?_
    simp [hall index (by simpa using hindex)]
  simp [Board.verdicts, hslots]

/-- Boards that have the same decisions in the same order are the same. -/
theorem HasDecided.board_eq {other : Board} (h : HasDecided corpus options keys indices board)
    (hother : HasDecided corpus options keys indices other) : board = other := by
  cases board
  cases other
  rw [Board.mk.injEq]
  exact ⟨h.slots.trans hother.slots.symm, h.done.trans hother.done.symm,
    h.reports.trans hother.reports.symm⟩

variable (corpus options keys)

theorem verdicts_classify :
    (corpus.classify options keys).verdicts = keys.map (corpus.decide options) :=
  (hasDecided_classifyIn fun _ => List.mem_range.mp).verdicts_eq fun _ => List.mem_range.mpr

/-! ## Unused keys -/

def unusedKeys : List String :=
  ((corpus.classify options keys).verdicts.filter fun verdict => !verdict.isUsed).map (·.key)

theorem key_decide (key : String) : (corpus.decide options key).key = key := rfl

theorem unusedKeys_eq :
    corpus.unusedKeys options keys =
      keys.filter fun key => !(corpus.decide options key).isUsed := by
  rw [unusedKeys, verdicts_classify, List.filter_map, List.map_map]
  have hkey : (fun verdict => verdict.key) ∘ corpus.decide options = id :=
    funext (corpus.key_decide options)
  rw [hkey, List.map_id]
  rfl

theorem mem_unusedKeys {key : String} :
    key ∈ corpus.unusedKeys options keys ↔
      key ∈ keys ∧ (corpus.decide options key).isUsed = false := by
  simp [unusedKeys_eq]

/-! ## Only the files count -/

variable {corpus} {other : Corpus}

theorem run_congr (h : other.files = corpus.files) (options : SearchOptions) (query : Query) :
    query.run other options = query.run corpus options := by
  cases query with
  | indexed key => simp only [Query.run, findIndexed, findIterated, evidenceFiles, h]
  | reference text => simp only [Query.run, findReference, evidenceFiles, h]
  | namespaced key space => simp only [Query.run, findNamespaced, declaring, h]

theorem firstEvidence_congr (h : other.files = corpus.files) (options : SearchOptions)
    (chain : List (Strategy × Query)) :
    other.firstEvidence options chain = corpus.firstEvidence options chain := by
  induction chain with
  | nil => rfl
  | cons search rest ih =>
      rcases search with ⟨strategy, query⟩
      simp only [firstEvidence, run_congr h, ih]

/-- What went wrong while the files were loaded does not matter to a classification. -/
theorem unusedKeys_congr (h : other.files = corpus.files) :
    other.unusedKeys options keys = corpus.unusedKeys options keys := by
  rw [unusedKeys_eq, unusedKeys_eq]
  simp only [decide, firstEvidence_congr h]

end LocaleTidy.Corpus
