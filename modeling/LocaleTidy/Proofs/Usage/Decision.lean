import LocaleTidy.Proofs.Key.Parts
import LocaleTidy.Proofs.Pattern.Indices
import LocaleTidy.Usage.Verdict

/-!
# What decides that a key is used

The searches of a chain differ in the files they look at and in the patterns they look for. As
long as every pattern compiles, they find a file exactly if the source texts show one of five
things, in whatever order these are looked for.
-/

namespace LocaleTidy

/-! ## Searches -/

def SearchOutcome.IsFound (outcome : SearchOutcome) : Prop :=
  ∃ path, outcome = .found path

theorem firstMatch_isFound_iff {files : List SourceFile} {accepts : String → Bool} :
    (firstMatch files accepts).IsFound ↔ ∃ file ∈ files, accepts file.content = true := by
  unfold firstMatch
  cases h : files.find? fun file => accepts file.content with
  | none =>
      simp only [SearchOutcome.IsFound, reduceCtorEq, exists_false, false_iff]
      intro hx
      rcases hx with ⟨file, hf, ha⟩
      exact List.find?_eq_none.mp h file hf ha
  | some file =>
      have hf := List.mem_of_find?_eq_some h
      have ha := List.find?_some h
      simp only [SearchOutcome.IsFound, SearchOutcome.found.injEq, exists_eq', true_iff]
      exact ⟨file, hf, ha⟩

/-- A pattern that compiles is searched for as an expression that is found where it has to be. -/
theorem exists_compile {options : SearchOptions} {pattern : String} {Holds : String → Prop}
    (hpattern : Pattern.FoundWhere pattern Holds)
    (hcompile : (options.compile pattern).isOk = true) :
    ∃ regex, options.compile pattern = .ok regex ∧
      ∀ content, regex.foundIn content = true ↔ Holds content := by
  rw [SearchOptions.compile] at hcompile ⊢
  cases hread : Pattern.compile options.limit pattern with
  | error fault =>
      rw [hread] at hcompile
      cases hcompile
  | ok regex => exact ⟨regex, rfl, hpattern.good _ _ hread⟩

theorem compile_references {options : SearchOptions} {text : String}
    (hcompile : (options.compile
      (Pattern.anyOf (Pattern.references options.function text))).isOk = true) :
    ∃ regex, options.compile (Pattern.anyOf (Pattern.references options.function text)) =
        .ok regex ∧
      ∀ content, regex.foundIn content = true ↔
        ∃ form ∈ quotedForms options.function text, Shows content form :=
  exists_compile (Pattern.foundWhere_references options.function text) hcompile

theorem compile_calls {options : SearchOptions} {text : String}
    (hcompile : (options.compile
      (Pattern.anyOf (Pattern.calls options.function text))).isOk = true) :
    ∃ regex, options.compile (Pattern.anyOf (Pattern.calls options.function text)) = .ok regex ∧
      ∀ content, regex.foundIn content = true ↔
        ∃ form ∈ callForms options.function text, Shows content form :=
  exists_compile (Pattern.foundWhere_calls options.function text) hcompile

theorem compile_declaration {options : SearchOptions} {space : String}
    (hne : options.namespaceFunctions ≠ [])
    (hcompile : (options.compile
      (Pattern.declaration options.namespaceFunctions space)).isOk = true) :
    ∃ regex, options.compile (Pattern.declaration options.namespaceFunctions space) = .ok regex ∧
      ∀ content, regex.foundIn content = true ↔
        ∃ name ∈ options.namespaceFunctions, ∃ opening ∈ Pattern.spaceMarks,
          ∃ closing ∈ Pattern.spaceMarks, Shows content (callForm name opening space closing) :=
  exists_compile (Pattern.foundWhere_declaration hne space) hcompile

theorem compile_generalized {options : SearchOptions} {key : String}
    (hindex : Key.isDynamicIndex key = true)
    (hcompile : (options.compile (Pattern.generalized key)).isOk = true) :
    ∃ regex, options.compile (Pattern.generalized key) = .ok regex ∧
      ∀ content, regex.foundIn content = true ↔
        ∃ other, IndexVariant key other ∧ Shows content other := by
  obtain ⟨first, interior, last, hsegments, -⟩ := Key.isDynamicIndex_iff.mp hindex
  exact exists_compile (Pattern.foundWhere_generalized hsegments) hcompile

namespace Corpus

variable {corpus : Corpus} {options : SearchOptions} {key text space : String}

theorem mem_evidenceFiles {file : SourceFile} :
    file ∈ corpus.evidenceFiles ↔ file ∈ corpus.files ∧ file.excluded = false := by
  simp [evidenceFiles]

theorem findReference_isFound_iff
    (hcompile : (options.compile
      (Pattern.anyOf (Pattern.references options.function text))).isOk = true) :
    (corpus.findReference options text).IsFound ↔
      ∃ file ∈ corpus.files, file.excluded = false ∧
        ∃ form ∈ quotedForms options.function text, Shows file.content form := by
  obtain ⟨regex, hregex, hfound⟩ := compile_references hcompile
  rw [findReference, searchPattern, hregex]
  simp only [firstMatch_isFound_iff, hfound, mem_evidenceFiles, and_assoc]

theorem findCall_isFound_iff {files : List SourceFile}
    (hcompile : (options.compile
      (Pattern.anyOf (Pattern.calls options.function (Key.lastSegment key)))).isOk = true) :
    (findCall options key files).IsFound ↔
      ∃ file ∈ files, ∃ form ∈ callForms options.function (Key.lastSegment key),
        Shows file.content form := by
  unfold findCall
  split
  · rename_i hempty
    obtain rfl := List.isEmpty_iff.mp hempty
    simp [SearchOutcome.IsFound]
  · obtain ⟨regex, hregex, hfound⟩ := compile_calls hcompile
    rw [searchPattern, hregex]
    simp only [firstMatch_isFound_iff, hfound]

/-- The file binds a namespace with one of the functions for that. -/
def Binds (functions : List String) (space : String) (file : SourceFile) : Prop :=
  ∃ name ∈ functions, ∃ opening ∈ Pattern.spaceMarks, ∃ closing ∈ Pattern.spaceMarks,
    Shows file.content (callForm name opening space closing)

theorem declaring_eq_ok
    (hcompile : options.namespaceFunctions ≠ [] → (options.compile
      (Pattern.declaration options.namespaceFunctions space)).isOk = true) :
    ∃ files, corpus.declaring options space = .ok files ∧
      ∀ file, file ∈ files ↔ file ∈ corpus.files ∧ Binds options.namespaceFunctions space file := by
  unfold declaring
  split
  · rename_i hempty
    refine ⟨[], rfl, fun file => ?_⟩
    simp [List.isEmpty_iff.mp hempty, Binds]
  · rename_i hsome
    have hne : options.namespaceFunctions ≠ [] := by simpa using hsome
    obtain ⟨regex, hregex, hfound⟩ := compile_declaration hne (hcompile hne)
    rw [hregex]
    refine ⟨_, rfl, fun file => ?_⟩
    rw [List.mem_filter, hfound]
    rfl

theorem findNamespaced_isFound_iff
    (hdeclaration : options.namespaceFunctions ≠ [] → (options.compile
      (Pattern.declaration options.namespaceFunctions space)).isOk = true)
    (hcall : options.namespaceFunctions ≠ [] → (options.compile
      (Pattern.anyOf (Pattern.calls options.function (Key.lastSegment key)))).isOk = true) :
    (corpus.findNamespaced options key space).IsFound ↔
      ∃ file ∈ corpus.files, Binds options.namespaceFunctions space file ∧
        ∃ form ∈ callForms options.function (Key.lastSegment key), Shows file.content form := by
  obtain ⟨files, hfiles, hmem⟩ := @declaring_eq_ok corpus options space hdeclaration
  rw [findNamespaced, hfiles]
  simp only
  by_cases hne : options.namespaceFunctions = []
  · have hempty : files = [] := List.eq_nil_iff_forall_not_mem.mpr fun file hf => by
      simpa [Binds, hne] using (hmem file).mp hf
    simp [hempty, findCall, SearchOutcome.IsFound, Binds, hne]
  · rw [findCall_isFound_iff (hcall hne)]
    simp only [hmem, and_assoc]

theorem findIndexed_isFound_iff (hindex : Key.isDynamicIndex key = true)
    (hcompile : (options.compile (Pattern.generalized key)).isOk = true) :
    (corpus.findIndexed options key).IsFound ↔
      ∃ file ∈ corpus.files, file.excluded = false ∧
        ∃ other, IndexVariant key other ∧ Shows file.content other := by
  obtain ⟨regex, hregex, hfound⟩ := compile_generalized hindex hcompile
  rw [findIndexed, hregex]
  simp only [firstMatch_isFound_iff, hfound, mem_evidenceFiles, and_assoc]

end Corpus

/-! ## The chain of searches -/

/-- The patterns that a search may have to compile. -/
def Query.patterns (options : SearchOptions) : Query → List String
  | .indexed key => [Pattern.generalized key]
  | .reference text => [Pattern.anyOf (Pattern.references options.function text)]
  | .namespaced key space =>
      if options.namespaceFunctions.isEmpty then []
      else
        [ Pattern.declaration options.namespaceFunctions space,
          Pattern.anyOf (Pattern.calls options.function (Key.lastSegment key)) ]

def UsageOptions.queries (options : UsageOptions) (key : String) : List Query :=
  (options.chain key).map Prod.snd

def UsageOptions.patterns (options : UsageOptions) (key : String) : List String :=
  (options.queries key).flatMap (Query.patterns options.search)

/-- What a search has to find in a file. -/
def Query.ShownIn (options : SearchOptions) (file : SourceFile) : Query → Prop
  | .indexed key =>
      file.excluded = false ∧ ∃ other, IndexVariant key other ∧ Shows file.content other
  | .reference text =>
      file.excluded = false ∧ ∃ form ∈ quotedForms options.function text, Shows file.content form
  | .namespaced key space =>
      Corpus.Binds options.namespaceFunctions space file ∧
        ∃ form ∈ callForms options.function (Key.lastSegment key), Shows file.content form

/-- What source files can show of a key. Uses count in files that are not excluded, and where a
namespace is bound in every file. -/
inductive IsShown (corpus : Corpus) (options : UsageOptions) (key : String) : Prop where
  /-- The key with other indices in its interior. -/
  | indexed {file : SourceFile} {other : String} (hfile : file ∈ corpus.files)
      (hcounts : file.excluded = false) (hindex : Key.isDynamicIndex key = true)
      (hother : IndexVariant key other) (hshow : Shows file.content other)
  /-- The key in quotes. -/
  | reference {file : SourceFile} {form : String} (hfile : file ∈ corpus.files)
      (hcounts : file.excluded = false) (hform : form ∈ quotedForms options.search.function key)
      (hshow : Shows file.content form)
  /-- A binding of the namespace and a call with the last segment. -/
  | namespaced {file : SourceFile} {space leaf form : String} (hfile : file ∈ corpus.files)
      (hkey : key = space ++ "." ++ leaf) (hleaf : '.' ∉ leaf.toList) (hspace : space ≠ "")
      (hbinds : Corpus.Binds options.search.namespaceFunctions space file)
      (hform : form ∈ callForms options.search.function leaf) (hshow : Shows file.content form)
  /-- An end of the key in quotes. -/
  | variation {file : SourceFile} {front back form : String} (hfile : file ∈ corpus.files)
      (hcounts : file.excluded = false) (hkey : key = front ++ "." ++ back)
      (hlong : options.bareLeafFallback = true ∨ '.' ∈ back.toList)
      (hform : form ∈ quotedForms options.search.function back) (hshow : Shows file.content form)
  /-- What follows an error namespace in quotes. -/
  | errorKey {file : SourceFile} {space rest form : String} (hfile : file ∈ corpus.files)
      (hcounts : file.excluded = false) (hspace : space ∈ options.errorNamespaces)
      (hfirst : '.' ∉ space.toList) (hkey : key = space ++ "." ++ rest)
      (hform : form ∈ quotedForms options.search.function rest) (hshow : Shows file.content form)

namespace Corpus

variable {corpus : Corpus} {options : UsageOptions} {key : String}

theorem evidence_decide (corpus : Corpus) (options : UsageOptions) (key : String) :
    (corpus.decide options key).evidence =
      (corpus.firstEvidence options.search (options.chain key)).1 := by
  simp only [decide]

theorem firstEvidence_isSome_iff {options : SearchOptions} {searches : List (Strategy × Query)} :
    (corpus.firstEvidence options searches).1.isSome = true ↔
      ∃ query ∈ searches.map Prod.snd, (query.run corpus options).IsFound := by
  induction searches with
  | nil => simp [firstEvidence]
  | cons search searches ih =>
      rcases search with ⟨strategy, query⟩
      simp only [firstEvidence, List.map_cons, List.mem_cons, exists_eq_or_imp]
      cases h : query.run corpus options with
      | found path => simp [SearchOutcome.IsFound]
      | notFound => simpa [SearchOutcome.IsFound] using ih
      | failed problem => simpa [SearchOutcome.IsFound] using ih

theorem mem_queries {query : Query} :
    query ∈ options.queries key ↔
      (Key.isDynamicIndex key = true ∧ query = .indexed key) ∨
      query = .reference key ∨
      (∃ space, Key.namespaceOf key = some space ∧ space ≠ "" ∧ query = .namespaced key space) ∨
      (∃ back ∈ options.laterVariations key, query = .reference back) ∨
      (∃ rest, Key.withoutErrorNamespace options.errorNamespaces key = some rest ∧
        query = .reference rest) := by
  simp only [UsageOptions.queries, UsageOptions.chain, List.map_append, List.mem_append, or_assoc,
    List.map_cons, List.map_nil, List.mem_singleton]
  refine or_congr ?_ (or_congr Iff.rfl (or_congr ?_ (or_congr ?_ ?_)))
  · by_cases h : Key.isDynamicIndex key <;> simp [h]
  · cases Key.namespaceOf key with
    | none => simp
    | some space => by_cases h : space = "" <;> simp [h, Option.filter_some]
  · simp [eq_comm]
  · cases Key.withoutErrorNamespace options.errorNamespaces key <;> simp

theorem mem_laterVariations {back : String} :
    back ∈ options.laterVariations key ↔
      (∃ front, key = front ++ "." ++ back) ∧
        (options.bareLeafFallback = true ∨ '.' ∈ back.toList) := by
  rw [UsageOptions.laterVariations, List.mem_filter, Key.mem_drop_variations]
  simp

/-- A search whose patterns compile finds a file exactly if one shows what it looks for. -/
theorem run_isFound_iff {query : Query} (hq : query ∈ options.queries key)
    (hcompile : ∀ pattern ∈ query.patterns options.search,
      (options.search.compile pattern).isOk = true) :
    (query.run corpus options.search).IsFound ↔
      ∃ file ∈ corpus.files, query.ShownIn options.search file := by
  cases query with
  | indexed other =>
      obtain ⟨hindex, rfl⟩ : Key.isDynamicIndex key = true ∧ other = key := by
        simpa using mem_queries.mp hq
      exact findIndexed_isFound_iff hindex (hcompile _ (by simp [Query.patterns]))
  | reference text => exact findReference_isFound_iff (hcompile _ (by simp [Query.patterns]))
  | namespaced other space =>
      have hsome : options.search.namespaceFunctions ≠ [] →
          options.search.namespaceFunctions.isEmpty = false := by simp
      exact findNamespaced_isFound_iff
        (fun hne => hcompile _ (by simp [Query.patterns, hsome hne]))
        (fun hne => hcompile _ (by simp [Query.patterns, hsome hne]))

/-- The five things that can be shown are what the searches of the chain look for. -/
theorem isShown_iff :
    IsShown corpus options key ↔
      ∃ query ∈ options.queries key, ∃ file ∈ corpus.files,
        query.ShownIn options.search file := by
  constructor
  · intro hshown
    cases hshown with
    | indexed hfile hcounts hindex hother hshow =>
        exact ⟨.indexed key, mem_queries.mpr (.inl ⟨hindex, rfl⟩), _, hfile, hcounts, _, hother,
          hshow⟩
    | reference hfile hcounts hform hshow =>
        exact ⟨.reference key, mem_queries.mpr (.inr (.inl rfl)), _, hfile, hcounts, _, hform,
          hshow⟩
    | @namespaced file space leaf form hfile hkey hleaf hspace hbinds hform hshow =>
        have hlast : Key.lastSegment key = leaf := by rw [hkey, Key.lastSegment_append hleaf]
        have hnamespace : Key.namespaceOf key = some space := by
          rw [hkey, Key.namespaceOf_append hleaf]
        exact ⟨.namespaced key space,
          mem_queries.mpr (.inr (.inr (.inl ⟨space, hnamespace, hspace, rfl⟩))),
          file, hfile, hbinds, form, hlast ▸ hform, hshow⟩
    | @variation file front back form hfile hcounts hkey hlong hform hshow =>
        have hback : back ∈ options.laterVariations key :=
          mem_laterVariations.mpr ⟨⟨front, hkey⟩, hlong⟩
        exact ⟨.reference back, mem_queries.mpr (.inr (.inr (.inr (.inl ⟨back, hback, rfl⟩)))),
          file, hfile, hcounts, form, hform, hshow⟩
    | @errorKey file space rest form hfile hcounts hspace hfirst hkey hform hshow =>
        have hrest : Key.withoutErrorNamespace options.errorNamespaces key = some rest :=
          Key.withoutErrorNamespace_eq_some_iff.mpr ⟨space, hspace, hfirst, hkey⟩
        exact ⟨.reference rest, mem_queries.mpr (.inr (.inr (.inr (.inr ⟨rest, hrest, rfl⟩)))),
          file, hfile, hcounts, form, hform, hshow⟩
  · intro h
    rcases h with ⟨query, hq, file, hfile, hshown⟩
    rcases mem_queries.mp hq with
      ⟨hindex, rfl⟩ | rfl | ⟨space, hs, hne, rfl⟩ | ⟨back, hb, rfl⟩ | ⟨rest, hr, rfl⟩
    · rcases hshown with ⟨hcounts, other, hother, hshow⟩
      exact .indexed hfile hcounts hindex hother hshow
    · rcases hshown with ⟨hcounts, form, hform, hshow⟩
      exact .reference hfile hcounts hform hshow
    · rcases hshown with ⟨hbinds, form, hform, hshow⟩
      obtain ⟨hleaf, hkey⟩ := Key.namespaceOf_eq_some_iff.mp hs
      exact .namespaced hfile hkey hleaf hne hbinds hform hshow
    · rcases hshown with ⟨hcounts, form, hform, hshow⟩
      obtain ⟨⟨front, hkey⟩, hlong⟩ := mem_laterVariations.mp hb
      exact .variation hfile hcounts hkey hlong hform hshow
    · rcases hshown with ⟨hcounts, form, hform, hshow⟩
      obtain ⟨space, hspace, hfirst, hkey⟩ := Key.withoutErrorNamespace_eq_some_iff.mp hr
      exact .errorKey hfile hcounts hspace hfirst hkey hform hshow

/-- A key is unused if and only if the source files show none of what counts as a use. -/
theorem isUsed_decide_eq_false_iff
    (hcompile : ∀ pattern ∈ options.patterns key, (options.search.compile pattern).isOk = true) :
    (corpus.decide options key).isUsed = false ↔ ¬ IsShown corpus options key := by
  have hused : (corpus.decide options key).isUsed =
      (corpus.firstEvidence options.search (options.chain key)).1.isSome := by
    simp only [decide, Verdict.isUsed]
  have hfound : ∀ query ∈ options.queries key, ((query.run corpus options.search).IsFound ↔
      ∃ file ∈ corpus.files, query.ShownIn options.search file) :=
    fun query hq => run_isFound_iff hq fun pattern hp =>
      hcompile pattern (List.mem_flatMap.mpr ⟨query, hq, hp⟩)
  rw [← Bool.not_eq_true, hused, firstEvidence_isSome_iff, ← UsageOptions.queries, isShown_iff]
  apply not_congr
  constructor
  · intro h
    rcases h with ⟨query, hq, hf⟩
    exact ⟨query, hq, (hfound query hq).mp hf⟩
  · intro h
    rcases h with ⟨query, hq, hf⟩
    exact ⟨query, hq, (hfound query hq).mpr hf⟩

/-- A binding of the namespace without a call shows nothing of a key. -/
theorem not_isShown_bound :
    ¬ IsShown (.ofFiles [⟨⟨"app.ts"⟩, "u('a')", false⟩])
      ⟨⟨"t", ["u"], Pattern.defaultLimit⟩, [], false⟩ "a.b" :=
  (isUsed_decide_eq_false_iff (by decide +kernel)).mp (by decide +kernel)

end Corpus

end LocaleTidy
