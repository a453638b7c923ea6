import Mathlib.Data.List.Basic
import Mathlib.Data.List.Induction
import LocaleTidy.Analysis

/-!
# The warnings of an analysis

All warnings of an analysis are those of its corpus, as they are, and behind them the problems of
failed searches that are not among these, each at the place of its first occurrence.
-/

namespace LocaleTidy.Analysis

variable {known problems added : List SearchProblem}

/-- Of some problems those that are not known yet, each once, in the order in which they come
first. -/
structure FirstSeen (known problems added : List SearchProblem) : Prop where
  mem_iff : ∀ problem, problem ∈ added ↔ problem ∈ problems ∧ problem ∉ known
  nodup : added.Nodup
  ordered : added.Pairwise fun first second => problems.idxOf first < problems.idxOf second

theorem FirstSeen.mem_append_iff (h : FirstSeen known problems added) {problem : SearchProblem} :
    problem ∈ known ++ added ↔ problem ∈ known ∨ problem ∈ problems := by
  rw [List.mem_append, h.mem_iff]
  tauto

theorem FirstSeen.idxOf_append (h : FirstSeen known problems added) {problem : SearchProblem}
    (hin : problem ∈ added) (later : List SearchProblem) :
    (problems ++ later).idxOf problem = problems.idxOf problem :=
  List.idxOf_append_of_mem ((h.mem_iff problem).mp hin).1

/-- A problem that is known or was seen before changes nothing. -/
theorem FirstSeen.skip (h : FirstSeen known problems added) {problem : SearchProblem}
    (hin : problem ∈ known ++ added) : FirstSeen known (problems ++ [problem]) added where
  mem_iff other := by
    rw [h.mem_iff, List.mem_append, List.mem_singleton]
    constructor
    · rintro ⟨hp, hk⟩
      exact ⟨.inl hp, hk⟩
    · rintro ⟨hp | rfl, hk⟩
      · exact ⟨hp, hk⟩
      · exact ⟨(h.mem_append_iff.mp hin).resolve_left hk, hk⟩
  nodup := h.nodup
  ordered := h.ordered.imp_of_mem fun hfirst hsecond hlt => by
    rwa [h.idxOf_append hfirst, h.idxOf_append hsecond]

/-- Any other problem comes behind all that were seen before it. -/
theorem FirstSeen.add (h : FirstSeen known problems added) {problem : SearchProblem}
    (hnew : problem ∉ known ++ added) :
    FirstSeen known (problems ++ [problem]) (added ++ [problem]) := by
  have hknown : problem ∉ known := fun hin => hnew (List.mem_append_left _ hin)
  have hadded : problem ∉ added := fun hin => hnew (List.mem_append_right _ hin)
  have hseen : problem ∉ problems := fun hin => hnew (h.mem_append_iff.mpr (.inr hin))
  refine ⟨fun other => ?_, ?_, ?_⟩
  · simp only [List.mem_append, List.mem_singleton, h.mem_iff]
    constructor
    · rintro (⟨hp, hk⟩ | rfl)
      · exact ⟨.inl hp, hk⟩
      · exact ⟨.inr rfl, hknown⟩
    · rintro ⟨hp | rfl, hk⟩
      · exact .inl ⟨hp, hk⟩
      · exact .inr rfl
  · exact List.nodup_append.mpr ⟨h.nodup, by simp, by
      rintro first hfirst second hsecond rfl
      exact hadded (List.mem_singleton.mp hsecond ▸ hfirst)⟩
  · refine List.pairwise_append.mpr ⟨?_, List.pairwise_singleton _ _, ?_⟩
    · exact h.ordered.imp_of_mem fun hfirst hsecond hlt => by
        rwa [h.idxOf_append hfirst, h.idxOf_append hsecond]
    · intro first hfirst second hsecond
      obtain rfl := List.mem_singleton.mp hsecond
      have hlast : (problems ++ [second]).idxOf second = problems.length := by
        rw [List.idxOf_append_of_notMem hseen, List.idxOf_cons_self, Nat.add_zero]
      rw [h.idxOf_append hfirst, hlast]
      exact List.idxOf_lt_length_of_mem ((h.mem_iff first).mp hfirst).1

theorem addMissing_append (known problems : List SearchProblem) (problem : SearchProblem) :
    addMissing known (problems ++ [problem]) =
      if problem ∈ addMissing known problems then addMissing known problems
      else addMissing known problems ++ [problem] := by
  rw [addMissing, List.foldl_append]
  rfl

/-- The list that grows is at every moment what was known and what was first seen up to then. -/
theorem exists_firstSeen (known problems : List SearchProblem) :
    ∃ added, addMissing known problems = known ++ added ∧ FirstSeen known problems added := by
  induction problems using List.reverseRecOn with
  | nil => exact ⟨[], by simp [addMissing], by simp, by simp, by simp⟩
  | append_singleton problems problem ih =>
      obtain ⟨added, hlist, hseen⟩ := ih
      rw [addMissing_append, hlist]
      by_cases hin : problem ∈ known ++ added
      · exact ⟨added, by rw [if_pos hin], hseen.skip hin⟩
      · exact ⟨added ++ [problem], by rw [if_neg hin, List.append_assoc], hseen.add hin⟩

theorem mem_allWarnings {analysis : Analysis} {problem : SearchProblem} :
    problem ∈ analysis.allWarnings ↔
      problem ∈ analysis.warnings ∨ ∃ verdict ∈ analysis.verdicts, problem ∈ verdict.failures := by
  obtain ⟨added, hlist, hseen⟩ :=
    exists_firstSeen analysis.warnings (analysis.verdicts.flatMap (·.failures))
  rw [allWarnings, hlist, hseen.mem_append_iff, List.mem_flatMap]

/-! ## Verdict by verdict -/

/-- Of two problems the first one comes first: in the first verdict that has either of them it is
there, and further ahead than the other one if that is there too. -/
def ComesFirst (verdicts : List Verdict) (first second : SearchProblem) : Prop :=
  ∃ before verdict after, verdicts = before ++ verdict :: after ∧
    (∀ earlier ∈ before, first ∉ earlier.failures ∧ second ∉ earlier.failures) ∧
    first ∈ verdict.failures ∧ verdict.failures.idxOf first < verdict.failures.idxOf second

theorem comesFirst_of_idxOf_lt {verdicts : List Verdict} {first second : SearchProblem}
    (hin : first ∈ verdicts.flatMap (·.failures))
    (h : (verdicts.flatMap (·.failures)).idxOf first <
      (verdicts.flatMap (·.failures)).idxOf second) : ComesFirst verdicts first second := by
  induction verdicts with
  | nil => simp at hin
  | cons verdict verdicts ih =>
      rw [List.flatMap_cons] at hin h
      by_cases hfirst : first ∈ verdict.failures
      · have hahead := List.idxOf_lt_length_of_mem hfirst
        refine ⟨[], verdict, verdicts, rfl, by simp, hfirst, ?_⟩
        rw [List.idxOf_append_of_mem hfirst] at h
        by_cases hsecond : second ∈ verdict.failures
        · rwa [List.idxOf_append_of_mem hsecond] at h
        · rwa [List.idxOf_of_notMem hsecond]
      · have hsecond : second ∉ verdict.failures := by
          intro hsecond
          rw [List.idxOf_append_of_notMem hfirst, List.idxOf_append_of_mem hsecond] at h
          have hahead := List.idxOf_lt_length_of_mem hsecond
          omega
        rw [List.idxOf_append_of_notMem hfirst, List.idxOf_append_of_notMem hsecond] at h
        obtain ⟨before, later, after, rfl, hbefore, hfound⟩ :=
          ih ((List.mem_append.mp hin).resolve_left hfirst) (Nat.lt_of_add_lt_add_left h)
        exact ⟨verdict :: before, later, after, rfl,
          List.forall_mem_cons.mpr ⟨⟨hfirst, hsecond⟩, hbefore⟩, hfound⟩

/-- The warnings of the corpus stand first and unchanged. What follows are the failures of the
verdicts that are no warnings of the corpus, each once, in the order in which they come first. -/
theorem exists_allWarnings_eq (analysis : Analysis) :
    ∃ added, analysis.allWarnings = analysis.warnings ++ added ∧
      (∀ problem, problem ∈ added ↔
        (∃ verdict ∈ analysis.verdicts, problem ∈ verdict.failures) ∧
          problem ∉ analysis.warnings) ∧
      added.Nodup ∧ added.Pairwise (ComesFirst analysis.verdicts) := by
  obtain ⟨added, hlist, hseen⟩ :=
    exists_firstSeen analysis.warnings (analysis.verdicts.flatMap (·.failures))
  refine ⟨added, hlist, fun problem => ?_, hseen.nodup, ?_⟩
  · rw [hseen.mem_iff, List.mem_flatMap]
  · exact hseen.ordered.imp_of_mem fun hfirst _ hlt =>
      comesFirst_of_idxOf_lt ((hseen.mem_iff _).mp hfirst).1 hlt

end LocaleTidy.Analysis
