import Mathlib.Data.List.Pairwise
import LocaleTidy.Proofs.Key.Variations
import LocaleTidy.Proofs.Usage.Decision

/-!
# What a verdict accounts for

The searches for a key are carried out in a fixed order until one finds a file. The verdict names
that file and the problems of the searches before it. A verdict that names neither a file nor a
problem says that every search was carried out and was shown nothing.
-/

namespace LocaleTidy

/-! ## Outcomes -/

def SearchOutcome.problem? : SearchOutcome → Option SearchProblem
  | .failed problem => some problem
  | .found _ | .notFound => none

/-- A search can be carried out: the patterns that it comes to compile. A search for an indexed key
can do without its pattern if there is a line that iterates. -/
def Query.Runs (corpus : Corpus) (options : SearchOptions) : Query → Prop
  | .indexed key =>
      (options.compile (Pattern.generalized key)).isOk = true ∨
        (corpus.findIterated (Key.firstSegment key)).IsFound
  | .reference text =>
      (options.compile (Pattern.anyOf (Pattern.references options.function text))).isOk = true
  | .namespaced key space =>
      options.namespaceFunctions = [] ∨
        (options.compile (Pattern.declaration options.namespaceFunctions space)).isOk = true ∧
          ((∀ file ∈ corpus.files, ¬ Corpus.Binds options.namespaceFunctions space file) ∨
            (options.compile (Pattern.anyOf
              (Pattern.calls options.function (Key.lastSegment key)))).isOk = true)

variable {corpus : Corpus} {options : SearchOptions} {pattern : String} {problem : SearchProblem}
  {files : List SourceFile} {query : Query}

/-- Some line of a file holds a text in apostrophes and one of the beginnings of an iteration. -/
def SourceFile.Iterates (file : SourceFile) (base : String) : Prop :=
  ∃ line ∈ Text.split '\n' file.content, ("'" ++ base ++ "'").toList <:+: line.toList ∧
    ("map(".toList <:+: line.toList ∨ "forEach(".toList <:+: line.toList ∨
      "for (".toList <:+: line.toList)

theorem Corpus.findIterated_isFound_iff (corpus : Corpus) (base : String) :
    (corpus.findIterated base).IsFound ↔ ∃ file ∈ corpus.evidenceFiles, file.Iterates base := by
  rw [findIterated, firstMatch_isFound_iff]
  simp only [List.any_eq_true, Bool.and_eq_true, Pattern.iterates, Pattern.iterationMarkers,
    List.mem_cons, List.not_mem_nil, or_false, exists_eq_or_imp, exists_eq_left, Text.contains,
    Text.occursIn_iff, SourceFile.Iterates]

theorem firstMatch_ne_failed {accepts : String → Bool} :
    firstMatch files accepts ≠ .failed problem := by
  unfold firstMatch
  split <;> simp

theorem SearchOptions.compile_eq_error :
    options.compile pattern = .error problem ↔
      ∃ fault, Pattern.compile options.limit pattern = .error fault ∧
        problem = .badPattern pattern fault := by
  unfold SearchOptions.compile
  cases Pattern.compile options.limit pattern with
  | error fault =>
      show Except.error (SearchProblem.badPattern pattern fault) = Except.error problem ↔ _
      simp [eq_comm]
  | ok regex =>
      show Except.ok regex = Except.error problem ↔ _
      simp

theorem searchPattern_eq_failed :
    searchPattern options pattern files = .failed problem ↔
      options.compile pattern = .error problem := by
  unfold searchPattern
  cases options.compile pattern with
  | error fault => simp
  | ok regex => simp [firstMatch_ne_failed]

theorem isOk_compile_iff :
    (options.compile pattern).isOk = true ↔
      ∀ problem, options.compile pattern ≠ .error problem := by
  cases options.compile pattern with
  | error fault => simp [Except.isOk, Except.toBool]
  | ok regex => simp [Except.isOk, Except.toBool]

namespace Corpus

variable {key space text : String}

theorem findIndexed_eq_failed :
    corpus.findIndexed options key = .failed problem ↔
      options.compile (Pattern.generalized key) = .error problem ∧
        ¬ (corpus.findIterated (Key.firstSegment key)).IsFound := by
  unfold findIndexed
  cases options.compile (Pattern.generalized key) with
  | ok regex => simp [firstMatch_ne_failed]
  | error fault =>
      cases hiterated : corpus.findIterated (Key.firstSegment key) with
      | found path => simp [SearchOutcome.IsFound]
      | notFound => simp [SearchOutcome.IsFound]
      | failed other => exact (firstMatch_ne_failed hiterated).elim

theorem findCall_eq_failed :
    findCall options key files = .failed problem ↔
      files ≠ [] ∧ options.compile
        (Pattern.anyOf (Pattern.calls options.function (Key.lastSegment key))) =
          .error problem := by
  unfold findCall
  cases files with
  | nil => simp
  | cons file files => simp [searchPattern_eq_failed]

theorem declaring_eq_error :
    corpus.declaring options space = .error problem ↔
      options.namespaceFunctions ≠ [] ∧
        options.compile (Pattern.declaration options.namespaceFunctions space) =
          .error problem := by
  unfold declaring
  cases hfunctions : options.namespaceFunctions with
  | nil => simp
  | cons name names =>
      cases options.compile (Pattern.declaration (name :: names) space) with
      | error fault => simp [bind, Except.bind]
      | ok regex => simp [bind, Except.bind, pure, Except.pure]

/-- The search in a namespace fails with its first pattern, or with the second one if some file
binds the namespace. -/
theorem findNamespaced_eq_failed :
    corpus.findNamespaced options key space = .failed problem ↔
      corpus.declaring options space = .error problem ∨
        ∃ files, corpus.declaring options space = .ok files ∧ files ≠ [] ∧
          options.compile (Pattern.anyOf
            (Pattern.calls options.function (Key.lastSegment key))) = .error problem := by
  unfold findNamespaced
  cases corpus.declaring options space with
  | error fault => simp
  | ok files => simp [findCall_eq_failed]

end Corpus

theorem Query.exists_pattern_of_failed (h : query.run corpus options = .failed problem) :
    ∃ pattern ∈ query.patterns options, options.compile pattern = .error problem := by
  cases query with
  | indexed key =>
      rw [run, Corpus.findIndexed_eq_failed] at h
      exact ⟨Pattern.generalized key, List.mem_singleton_self _, h.1⟩
  | reference text =>
      rw [run, Corpus.findReference, searchPattern_eq_failed] at h
      exact ⟨_, List.mem_singleton_self _, h⟩
  | namespaced key space =>
      rw [run, Corpus.findNamespaced_eq_failed] at h
      have hpatterns (hfunctions : options.namespaceFunctions ≠ []) :
          patterns options (.namespaced key space) =
            [Pattern.declaration options.namespaceFunctions space,
              Pattern.anyOf (Pattern.calls options.function (Key.lastSegment key))] := by
        rw [patterns, if_neg (by simpa using hfunctions)]
      rcases h with hdeclaring | ⟨files, hfiles, hne, hcall⟩
      · obtain ⟨hfunctions, hcompile⟩ := Corpus.declaring_eq_error.mp hdeclaring
        exact ⟨_, by rw [hpatterns hfunctions]; exact List.mem_cons_self, hcompile⟩
      · have hfunctions : options.namespaceFunctions ≠ [] := by
          intro hnil
          simp only [Corpus.declaring, hnil, List.isEmpty_nil, if_true, Except.ok.injEq] at hfiles
          exact hne hfiles.symm
        refine ⟨_, ?_, hcall⟩
        rw [hpatterns hfunctions]
        exact List.mem_cons_of_mem _ List.mem_cons_self

theorem Query.runs_iff :
    query.Runs corpus options ↔ ∀ problem, query.run corpus options ≠ .failed problem := by
  cases query with
  | indexed key =>
      simp only [Runs, run, ne_eq, Corpus.findIndexed_eq_failed, isOk_compile_iff, not_and, not_not]
      by_cases hiterated : (corpus.findIterated (Key.firstSegment key)).IsFound
      · simp [hiterated]
      · simp [hiterated]
  | reference text =>
      simp only [Runs, run, Corpus.findReference, ne_eq, searchPattern_eq_failed, isOk_compile_iff]
  | namespaced key space =>
      by_cases hfunctions : options.namespaceFunctions = []
      · simp [Runs, run, Corpus.findNamespaced, Corpus.declaring, Corpus.findCall, hfunctions]
      by_cases hdeclaration : (options.compile
        (Pattern.declaration options.namespaceFunctions space)).isOk = true
      · obtain ⟨files, hfiles, hmem⟩ :=
          @Corpus.declaring_eq_ok corpus options space fun _ => hdeclaration
        have hempty : files = [] ↔
            ∀ file ∈ corpus.files, ¬ Corpus.Binds options.namespaceFunctions space file := by
          simp only [List.eq_nil_iff_forall_not_mem, hmem, not_and]
        simp only [Runs, run, hfunctions, hdeclaration, ← hempty, false_or, true_and, ne_eq,
          Corpus.findNamespaced_eq_failed, hfiles, reduceCtorEq, Except.ok.injEq,
          exists_eq_left', not_and, isOk_compile_iff]
        by_cases hnil : files = []
        · simp [hnil]
        · simp [hnil]
      · simp only [Runs, hfunctions, hdeclaration, false_or, Bool.false_eq_true, false_and,
          false_iff, not_forall, not_not]
        rw [isOk_compile_iff, not_forall] at hdeclaration
        obtain ⟨problem, hproblem⟩ := hdeclaration
        rw [not_not] at hproblem
        exact ⟨problem, Corpus.findNamespaced_eq_failed.mpr
          (.inl (Corpus.declaring_eq_error.mpr ⟨hfunctions, hproblem⟩))⟩

/-- A search that is carried out and finds nothing is shown nothing of what it looks for. -/
theorem Query.not_shownIn_of_runs {options : UsageOptions} {key : String}
    (hquery : query ∈ options.queries key) (hruns : query.Runs corpus options.search)
    (hnot : ¬ (query.run corpus options.search).IsFound) :
    ∀ file ∈ corpus.files, ¬ query.ShownIn options.search file := by
  intro file hfile hshown
  apply hnot
  cases query with
  | indexed other =>
      obtain ⟨hindex, rfl⟩ : Key.isDynamicIndex key = true ∧ other = key := by
        simpa using Corpus.mem_queries.mp hquery
      rcases hruns with hcompile | ⟨path, hpath⟩
      · exact (Corpus.findIndexed_isFound_iff hindex hcompile).mpr ⟨file, hfile, hshown⟩
      · cases hcompile : options.search.compile (Pattern.generalized other) with
        | ok regex =>
            have hok : (options.search.compile (Pattern.generalized other)).isOk = true := by
              rw [hcompile]
              rfl
            exact (Corpus.findIndexed_isFound_iff hindex hok).mpr ⟨file, hfile, hshown⟩
        | error problem => exact ⟨path, by simp only [run, Corpus.findIndexed, hcompile, hpath]⟩
  | reference text =>
      exact (Corpus.findReference_isFound_iff hruns).mpr ⟨file, hfile, hshown⟩
  | namespaced other space =>
      have hfunctions : options.search.namespaceFunctions ≠ [] := by
        obtain ⟨⟨name, hname, -⟩, -⟩ := hshown
        exact List.ne_nil_of_mem hname
      rcases hruns with hnil | ⟨hdeclaration, hfree | hcall⟩
      · exact (hfunctions hnil).elim
      · exact (hfree file hfile hshown.1).elim
      · exact (Corpus.findNamespaced_isFound_iff (fun _ => hdeclaration) fun _ => hcall).mpr
          ⟨file, hfile, hshown⟩

/-! ## The order of searches -/

/-- The searches that apply to a key, and the strategies that they stand for. -/
inductive UsageOptions.Applies (options : UsageOptions) (key : String) : Strategy → Query → Prop
  where
  | dynamicIndex (hindex : Key.isDynamicIndex key = true) :
      Applies options key .dynamicIndex (.indexed key)
  | fullKey : Applies options key .fullKey (.reference key)
  | inNamespace {space leaf : String} (hkey : key = space ++ "." ++ leaf)
      (hleaf : '.' ∉ leaf.toList) (hspace : space ≠ "") :
      Applies options key (.inNamespace space) (.namespaced key space)
  | variation {front back : String} (hkey : key = front ++ "." ++ back)
      (hlong : options.bareLeafFallback = true ∨ '.' ∈ back.toList) :
      Applies options key (.variation back) (.reference back)
  | errorKey {space rest : String} (hspace : space ∈ options.errorNamespaces)
      (hfirst : '.' ∉ space.toList) (hkey : key = space ++ "." ++ rest) :
      Applies options key (.errorKey rest) (.reference rest)

def Strategy.stage : Strategy → Nat
  | .dynamicIndex => 0
  | .fullKey => 1
  | .inNamespace _ => 2
  | .variation _ => 3
  | .errorKey _ => 4

/-- A strategy is tried before another one: at an earlier stage or, among variations, for a longer
text. -/
def Strategy.Precedes : Strategy → Strategy → Prop
  | .variation text, .variation other => other.length < text.length
  | strategy, other => strategy.stage < other.stage

theorem Strategy.precedes_of_stage {strategy other : Strategy}
    (h : strategy.stage < other.stage) : strategy.Precedes other := by
  cases strategy <;> cases other <;> first | exact h | exact (Nat.lt_irrefl _ h).elim

namespace UsageOptions

variable {options : UsageOptions} {key : String}

theorem mem_chain {search : Strategy × Query} :
    search ∈ options.chain key ↔ options.Applies key search.1 search.2 := by
  rcases search with ⟨strategy, query⟩
  simp only [chain, List.mem_append, or_assoc]
  constructor
  · intro h
    rcases h with h | h | h | h | h
    · split at h
      · obtain ⟨rfl, rfl⟩ : strategy = .dynamicIndex ∧ query = .indexed key := by simpa using h
        exact .dynamicIndex (by assumption)
      · cases h
    · obtain ⟨rfl, rfl⟩ : strategy = .fullKey ∧ query = .reference key := by simpa using h
      exact .fullKey
    · simp only [Option.mem_toList, Option.map_eq_some_iff, Option.filter_eq_some_iff] at h
      obtain ⟨space, ⟨hspace, hne⟩, heq⟩ := h
      cases heq
      obtain ⟨hleaf, hkey⟩ := Key.namespaceOf_eq_some_iff.mp hspace
      exact .inNamespace hkey hleaf (by simpa using hne)
    · obtain ⟨back, hback, heq⟩ := List.mem_map.mp h
      cases heq
      obtain ⟨⟨front, hkey⟩, hlong⟩ := Corpus.mem_laterVariations.mp hback
      exact .variation hkey hlong
    · simp only [Option.mem_toList, Option.map_eq_some_iff] at h
      obtain ⟨rest, hrest, heq⟩ := h
      cases heq
      obtain ⟨space, hspace, hfirst, hkey⟩ := Key.withoutErrorNamespace_eq_some_iff.mp hrest
      exact .errorKey hspace hfirst hkey
  · intro h
    cases h with
    | dynamicIndex hindex => exact .inl (by simp [hindex])
    | fullKey => exact .inr (.inl (by simp))
    | @inNamespace space leaf hkey hleaf hspace =>
        have hnamespace : Key.namespaceOf key = some space := by
          rw [hkey]
          exact Key.namespaceOf_append hleaf
        exact .inr (.inr (.inl (by simp [hnamespace, Option.filter_some, hspace])))
    | @variation front back hkey hlong =>
        exact .inr (.inr (.inr (.inl (List.mem_map.mpr
          ⟨back, Corpus.mem_laterVariations.mpr ⟨⟨front, hkey⟩, hlong⟩, rfl⟩))))
    | @errorKey space rest hspace hfirst hkey =>
        have hrest : Key.withoutErrorNamespace options.errorNamespaces key = some rest :=
          Key.withoutErrorNamespace_eq_some_iff.mpr ⟨space, hspace, hfirst, hkey⟩
        exact .inr (.inr (.inr (.inr (by simp [hrest]))))

/-- The order of searches whose strategies are tried before a stage. -/
def OrderedBelow (stage : Nat) (searches : List (Strategy × Query)) : Prop :=
  (searches.Pairwise fun first second => first.1.Precedes second.1) ∧
    ∀ search ∈ searches, search.1.stage < stage

/-- The searches of the next stage come after those of the stages before. -/
theorem OrderedBelow.append {stage : Nat} {front back : List (Strategy × Query)}
    (hfront : OrderedBelow stage front)
    (hback : back.Pairwise fun first second => first.1.Precedes second.1)
    (hstage : ∀ search ∈ back, search.1.stage = stage) :
    OrderedBelow (stage + 1) (front ++ back) := by
  refine ⟨List.pairwise_append.mpr ⟨hfront.1, hback, fun first hfirst second hsecond =>
    Strategy.precedes_of_stage ?_⟩, fun search hsearch => ?_⟩
  · rw [hstage second hsecond]
    exact hfront.2 first hfirst
  · rcases List.mem_append.mp hsearch with hsearch | hsearch
    · exact Nat.lt_succ_of_lt (hfront.2 search hsearch)
    · rw [hstage search hsearch]
      exact Nat.lt_succ_self stage

theorem OrderedBelow.append_toList {α : Type} {stage : Nat} {front : List (Strategy × Query)}
    {search? : Option α} {search : α → Strategy × Query} (hfront : OrderedBelow stage front)
    (hstage : ∀ x, (search x).1.stage = stage) :
    OrderedBelow (stage + 1) (front ++ (search?.map search).toList) := by
  cases search? with
  | none => exact hfront.append .nil nofun
  | some x =>
      exact hfront.append (List.pairwise_singleton _ _) fun _ hsearch =>
        List.mem_singleton.mp hsearch ▸ hstage x

theorem pairwise_chain :
    (options.chain key).Pairwise fun first second => first.1.Precedes second.1 := by
  have hindexed : OrderedBelow 1
      (if Key.isDynamicIndex key then [(.dynamicIndex, .indexed key)] else []) := by
    split
    · exact ⟨List.pairwise_singleton _ _, by simp [Strategy.stage]⟩
    · exact ⟨.nil, nofun⟩
  have hvariations : ((options.laterVariations key).map fun text =>
      (Strategy.variation text, Query.reference text)).Pairwise
        fun first second => first.1.Precedes second.1 := by
    have hshorter := (Key.pairwise_variations key).imp fun h => (Key.shorter_of_follows h).1
    exact List.pairwise_map.mpr (hshorter.drop.filter _)
  suffices h : OrderedBelow 5 (options.chain key) from h.1
  refine OrderedBelow.append_toList (.append (.append_toList (.append hindexed ?_ ?_) ?_)
    hvariations ?_) fun _ => rfl
  · exact List.pairwise_singleton _ _
  · simp [Strategy.stage]
  · exact fun _ => rfl
  · simp [Strategy.stage]

end UsageOptions

/-! ## The account -/

namespace Corpus

variable {before after searches : List (Strategy × Query)} {strategy : Strategy} {file : Path}

/-- The problems of the searches that cannot be carried out, in order. -/
def failures (corpus : Corpus) (options : SearchOptions) (searches : List (Strategy × Query)) :
    List SearchProblem :=
  searches.filterMap fun search => (search.2.run corpus options).problem?

/-- Searches that find no file add their own failures to what the ones behind them end with. -/
theorem firstEvidence_of_not_found
    (hbefore : ∀ search ∈ before, ¬ (search.2.run corpus options).IsFound)
    (after : List (Strategy × Query)) :
    corpus.firstEvidence options (before ++ after) =
      ((corpus.firstEvidence options after).1,
        corpus.failures options before ++ (corpus.firstEvidence options after).2) := by
  induction before with
  | nil => rfl
  | cons search before ih =>
      have hsearch := hbefore search List.mem_cons_self
      have ih := ih fun other hother => hbefore other (List.mem_cons_of_mem _ hother)
      cases hrun : search.2.run corpus options with
      | found path => exact (hsearch ⟨path, hrun⟩).elim
      | notFound =>
          simp [firstEvidence, hrun, ih, failures, SearchOutcome.problem?]
      | failed problem =>
          simp [firstEvidence, hrun, ih, failures, SearchOutcome.problem?]

/-- The first search that finds a file is the evidence, whatever the ones before it end with. -/
theorem firstEvidence_of_found
    (hbefore : ∀ search ∈ before, ¬ (search.2.run corpus options).IsFound)
    (hfound : query.run corpus options = .found file) :
    corpus.firstEvidence options (before ++ (strategy, query) :: after) =
      (some ⟨strategy, file⟩, corpus.failures options before) := by
  rw [firstEvidence_of_not_found hbefore, firstEvidence, hfound, List.append_nil]

/-- Where no search finds a file, every search that cannot be carried out is reported. -/
theorem firstEvidence_of_none
    (hnone : ∀ search ∈ searches, ¬ (search.2.run corpus options).IsFound) :
    corpus.firstEvidence options searches = (none, corpus.failures options searches) := by
  have hall := firstEvidence_of_not_found hnone []
  rwa [List.append_nil, firstEvidence, List.append_nil] at hall

theorem exists_first_found (corpus : Corpus) (options : SearchOptions)
    (searches : List (Strategy × Query)) :
    (∃ before strategy query after file, searches = before ++ (strategy, query) :: after ∧
      (∀ search ∈ before, ¬ (search.2.run corpus options).IsFound) ∧
      query.run corpus options = .found file) ∨
    ∀ search ∈ searches, ¬ (search.2.run corpus options).IsFound := by
  induction searches with
  | nil => exact .inr nofun
  | cons search searches ih =>
      by_cases hfound : (search.2.run corpus options).IsFound
      · obtain ⟨file, hfile⟩ := hfound
        exact .inl ⟨[], search.1, search.2, searches, file, rfl, nofun, hfile⟩
      · rcases ih with ⟨before, strategy, query, after, file, rfl, hbefore, hfile⟩ | hnone
        · exact .inl ⟨search :: before, strategy, query, after, file, rfl,
            List.forall_mem_cons.mpr ⟨hfound, hbefore⟩, hfile⟩
        · exact .inr (List.forall_mem_cons.mpr ⟨hfound, hnone⟩)

theorem mem_failures :
    problem ∈ corpus.failures options searches ↔
      ∃ search ∈ searches, search.2.run corpus options = .failed problem := by
  simp only [failures, List.mem_filterMap]
  refine exists_congr fun search => and_congr_right fun _ => ?_
  cases search.2.run corpus options <;> simp [SearchOutcome.problem?]

/-- What a verdict says about the searches for its key. -/
structure Accounts (corpus : Corpus) (options : UsageOptions) (key : String)
    (verdict : Verdict) : Prop where
  key_eq : verdict.key = key
  /-- The chain consists of the searches that apply. -/
  applicable : ∀ strategy query,
    (strategy, query) ∈ options.chain key ↔ options.Applies key strategy query
  /-- The chain is in the order in which strategies are tried. -/
  ordered : (options.chain key).Pairwise fun first second => first.1.Precedes second.1
  /-- Evidence is that of the first search of the chain that finds a file, and the failures are
  those of the searches before it. -/
  found : ∀ evidence, verdict.evidence = some evidence → ∃ before query after,
    options.chain key = before ++ (evidence.strategy, query) :: after ∧
      (∀ search ∈ before, ¬ (search.2.run corpus options.search).IsFound) ∧
      query.run corpus options.search = .found evidence.file ∧
      verdict.failures = corpus.failures options.search before
  /-- Without evidence no search of the chain finds a file, and every one that fails is a
  failure. -/
  absent : verdict.evidence = none →
    (∀ search ∈ options.chain key, ¬ (search.2.run corpus options.search).IsFound) ∧
      verdict.failures = corpus.failures options.search (options.chain key)
  /-- A failure is that of a pattern of a search of the chain that does not compile. -/
  faults : ∀ problem ∈ verdict.failures, ∃ search ∈ options.chain key,
    ∃ pattern ∈ search.2.patterns options.search, ∃ fault,
      Pattern.compile options.search.limit pattern = .error fault ∧
        problem = .badPattern pattern fault
  /-- Without evidence and failures every search of the chain is carried out, and no file shows
  what one of them looks for. -/
  searched : verdict.evidence = none → verdict.failures = [] →
    ∀ search ∈ options.chain key, search.2.Runs corpus options.search ∧
      ∀ file ∈ corpus.files, ¬ search.2.ShownIn options.search file

/-- The verdict of a key accounts for the searches for it. -/
theorem accounts_decide (corpus : Corpus) (options : UsageOptions) (key : String) :
    corpus.Accounts options key (corpus.decide options key) := by
  have hfaults : ∀ searches ⊆ options.chain key,
      ∀ problem ∈ corpus.failures options.search searches, ∃ search ∈ options.chain key,
        ∃ pattern ∈ search.2.patterns options.search, ∃ fault,
          Pattern.compile options.search.limit pattern = .error fault ∧
            problem = .badPattern pattern fault := by
    intro searches hsub problem hproblem
    obtain ⟨search, hsearch, hrun⟩ := mem_failures.mp hproblem
    obtain ⟨pattern, hpattern, hcompile⟩ := Query.exists_pattern_of_failed hrun
    exact ⟨search, hsub hsearch, pattern, hpattern, SearchOptions.compile_eq_error.mp hcompile⟩
  rcases exists_first_found corpus options.search (options.chain key) with
    ⟨before, strategy, query, after, file, hchain, hbefore, hfile⟩ | hnone
  · have hdecide : corpus.decide options key =
        ⟨key, some ⟨strategy, file⟩, corpus.failures options.search before⟩ := by
      simp only [decide, hchain, firstEvidence_of_found hbefore hfile]
    rw [hdecide]
    refine ⟨rfl, fun _ _ => UsageOptions.mem_chain, UsageOptions.pairwise_chain, ?_, by simp,
      hfaults before (hchain ▸ List.subset_append_left _ _), by simp⟩
    rintro evidence ⟨⟩
    exact ⟨before, query, after, hchain, hbefore, hfile, rfl⟩
  · have hdecide : corpus.decide options key =
        ⟨key, none, corpus.failures options.search (options.chain key)⟩ := by
      simp only [decide, firstEvidence_of_none hnone]
    rw [hdecide]
    refine ⟨rfl, fun _ _ => UsageOptions.mem_chain, UsageOptions.pairwise_chain, by simp,
      fun _ => ⟨hnone, rfl⟩, hfaults _ (List.Subset.refl _), fun _ hfailures search hsearch => ?_⟩
    have hruns : search.2.Runs corpus options.search :=
      Query.runs_iff.mpr fun problem hrun =>
        List.ne_nil_of_mem (mem_failures.mpr ⟨search, hsearch, hrun⟩) hfailures
    exact ⟨hruns, Query.not_shownIn_of_runs (List.mem_map_of_mem hsearch) hruns
      (hnone search hsearch)⟩

end Corpus

end LocaleTidy
