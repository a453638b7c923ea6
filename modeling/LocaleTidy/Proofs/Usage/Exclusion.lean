import LocaleTidy.Proofs.Usage.Accounting

/-!
# Excluded files

An excluded file counts in one way only: it may bind the namespace of a key. Where no excluded file
does, a key is decided as if there were none, and a verdict that does not rest on a namespace never
names an excluded file.
-/

namespace LocaleTidy

variable {corpus other : Corpus} {options : SearchOptions} {query : Query} {path : Path}
  {space : String}

namespace Corpus

/-! ## Without excluded files -/

def evidenceOnly (corpus : Corpus) : Corpus :=
  ofFiles corpus.evidenceFiles

@[simp] theorem evidenceFiles_evidenceOnly (corpus : Corpus) :
    corpus.evidenceOnly.evidenceFiles = corpus.evidenceFiles := by
  simp [evidenceOnly, ofFiles, evidenceFiles, List.filter_filter]

def BoundAside (corpus : Corpus) (functions : List String) (space : String) : Prop :=
  ∃ file ∈ corpus.files, file.excluded = true ∧ Binds functions space file

theorem foundIn_declaration_iff {regex : Regex} {file : SourceFile}
    (hne : options.namespaceFunctions ≠ [])
    (hcompile : options.compile (Pattern.declaration options.namespaceFunctions space) =
      .ok regex) :
    regex.foundIn file.content = true ↔ Binds options.namespaceFunctions space file := by
  obtain ⟨found, hok, hfound⟩ := compile_declaration hne (by rw [hcompile]; rfl)
  obtain rfl : found = regex := Except.ok.inj (hok.symm.trans hcompile)
  exact hfound file.content

/-- The files that bind a namespace are the same without excluded ones if none of these does. -/
theorem declaring_evidenceOnly (h : ¬ corpus.BoundAside options.namespaceFunctions space) :
    corpus.evidenceOnly.declaring options space = corpus.declaring options space := by
  unfold declaring
  split
  · rfl
  · rename_i hsome
    have hne : options.namespaceFunctions ≠ [] := by simpa using hsome
    cases hcompile : options.compile (Pattern.declaration options.namespaceFunctions space) with
    | error problem => rfl
    | ok regex =>
        refine congrArg Except.ok ?_
        rw [evidenceOnly, ofFiles, evidenceFiles, List.filter_filter]
        refine List.filter_congr fun file hfile => ?_
        cases hexcluded : file.excluded with
        | false => simp
        | true =>
            have hfree : regex.foundIn file.content = false := by
              rw [← Bool.not_eq_true, foundIn_declaration_iff hne hcompile]
              exact fun hbinds => h ⟨file, hfile, hexcluded, hbinds⟩
            simp [hfree]

end Corpus

open Corpus

/-- A search that is not for a namespace which an excluded file binds ends as without excluded
files. -/
theorem Query.run_evidenceOnly
    (h : ∀ key space, query = .namespaced key space →
      ¬ corpus.BoundAside options.namespaceFunctions space) :
    query.run corpus.evidenceOnly options = query.run corpus options := by
  cases query with
  | indexed key => simp only [run, findIndexed, findIterated, evidenceFiles_evidenceOnly]
  | reference text => simp only [run, findReference, evidenceFiles_evidenceOnly]
  | namespaced key space =>
      simp only [run, findNamespaced, declaring_evidenceOnly (h key space rfl)]

theorem firstMatch_eq_found {files : List SourceFile} {accepts : String → Bool}
    (h : firstMatch files accepts = .found path) : ∃ file ∈ files, file.path = path := by
  unfold firstMatch at h
  split at h
  · rename_i file hfind
    exact ⟨file, List.mem_of_find?_eq_some hfind, SearchOutcome.found.inj h⟩
  · cases h

theorem Query.exists_of_found (h : query.run corpus options = .found path)
    (hspace : ∀ key space, query ≠ .namespaced key space) :
    ∃ file ∈ corpus.evidenceFiles, file.path = path := by
  cases query with
  | indexed key =>
      rw [run, findIndexed] at h
      split at h
      · exact firstMatch_eq_found h
      · split at h
        · cases h
        · exact firstMatch_eq_found h
  | reference text =>
      rw [run, findReference, searchPattern] at h
      split at h
      · exact firstMatch_eq_found h
      · cases h
  | namespaced key space => exact (hspace key space rfl).elim

/-! ## Verdicts -/

namespace Corpus

variable {options : UsageOptions} {key : String} {searches : List (Strategy × Query)}

theorem firstEvidence_eq_of_run
    (h : ∀ search ∈ searches,
      search.2.run other options.search = search.2.run corpus options.search) :
    other.firstEvidence options.search searches = corpus.firstEvidence options.search searches := by
  induction searches with
  | nil => rfl
  | cons search searches ih =>
      obtain ⟨hsearch, hsearches⟩ := List.forall_mem_cons.mp h
      simp only [firstEvidence, hsearch, ih hsearches]

theorem exists_query_of_firstEvidence {options : SearchOptions} {evidence : Evidence}
    (h : (corpus.firstEvidence options searches).1 = some evidence) :
    ∃ query, (evidence.strategy, query) ∈ searches ∧
      query.run corpus options = .found evidence.file := by
  rcases exists_first_found corpus options searches with
    ⟨before, strategy, query, after, file, rfl, hbefore, hfile⟩ | hnone
  · rw [firstEvidence_of_found hbefore hfile] at h
    obtain rfl := Option.some.inj h
    exact ⟨query, by simp, hfile⟩
  · rw [firstEvidence_of_none hnone] at h
    cases h

theorem exists_query_of_evidence {evidence : Evidence}
    (h : (corpus.decide options key).evidence = some evidence) :
    ∃ query, (evidence.strategy, query) ∈ options.chain key ∧
      query.run corpus options.search = .found evidence.file := by
  rw [evidence_decide] at h
  exact exists_query_of_firstEvidence h

theorem exists_file_of_evidence {evidence : Evidence}
    (h : (corpus.decide options key).evidence = some evidence)
    (hstrategy : ∀ space, evidence.strategy ≠ .inNamespace space) :
    ∃ file ∈ corpus.files, file.excluded = false ∧ file.path = evidence.file := by
  obtain ⟨query, hmem, hfound⟩ := exists_query_of_evidence h
  have hquery : ∀ key space, query ≠ .namespaced key space := by
    rintro other space rfl
    generalize hnamed : evidence.strategy = strategy at hmem
    cases UsageOptions.mem_chain.mp hmem with
    | inNamespace => exact hstrategy _ hnamed
  obtain ⟨file, hfile, hpath⟩ := query.exists_of_found hfound hquery
  rw [mem_evidenceFiles] at hfile
  exact ⟨file, hfile.1, hfile.2, hpath⟩

/-- A key is decided as if there were no excluded files if none of them binds its namespace. -/
theorem decide_evidenceOnly
    (h : ∀ space ∈ Key.namespaceOf key,
      ¬ corpus.BoundAside options.search.namespaceFunctions space) :
    corpus.evidenceOnly.decide options key = corpus.decide options key := by
  rw [decide, decide, firstEvidence_eq_of_run fun search hsearch => ?_]
  refine Query.run_evidenceOnly fun other space hquery => h space ?_
  have hmem : search.2 ∈ options.queries key := List.mem_map_of_mem hsearch
  obtain ⟨hspace, -, -⟩ : Key.namespaceOf key = some space ∧ space ≠ "" ∧ other = key := by
    simpa [hquery, mem_queries] using hmem
  exact hspace

/-- Excluded files that do not bind the namespace of a key change nothing about its verdict, and
whatever a verdict names that does not rest on a namespace is a file that is not excluded. -/
theorem decide_of_evidenceFiles_eq (corpus : Corpus) (options : UsageOptions) (key : String) :
    (∀ other : Corpus, other.evidenceFiles = corpus.evidenceFiles →
      (∀ space ∈ Key.namespaceOf key,
        ¬ corpus.BoundAside options.search.namespaceFunctions space ∧
          ¬ other.BoundAside options.search.namespaceFunctions space) →
      other.decide options key = corpus.decide options key) ∧
    ∀ evidence ∈ (corpus.decide options key).evidence,
      (∀ space, evidence.strategy ≠ .inNamespace space) →
        ∃ file ∈ corpus.files, file.excluded = false ∧ file.path = evidence.file := by
  constructor
  · intro other hsame hfree
    have hother := decide_evidenceOnly fun space hspace => (hfree space hspace).2
    have hcorpus := decide_evidenceOnly fun space hspace => (hfree space hspace).1
    rw [← hother, ← hcorpus, evidenceOnly, evidenceOnly, hsame]
  · exact fun evidence hevidence => exists_file_of_evidence hevidence

/-- A file that quotes the whole key and calls its last segment counts for nothing where it is
excluded: the verdict rests on an end of the key in another file. -/
theorem decide_beside_excluded :
    let options : UsageOptions := ⟨⟨"t", ["u"], Pattern.defaultLimit⟩, [], false⟩
    let corpus : Corpus :=
      .ofFiles [⟨⟨"locales/zh.ts"⟩, "'a.b.c'; t('c')", true⟩, ⟨⟨"app.ts"⟩, "'b.c'", false⟩]
    let other : Corpus :=
      .ofFiles [⟨⟨"app.ts"⟩, "'b.c'", false⟩, ⟨⟨"locales/a.ts"⟩, "u('a')", true⟩]
    other.decide options "a.b.c" = corpus.decide options "a.b.c" ∧
      ⟨.variation "b.c", ⟨"app.ts"⟩⟩ ∈ (corpus.decide options "a.b.c").evidence ∧
      ∃ file ∈ corpus.files, file.excluded = false ∧ file.path = ⟨"app.ts"⟩ := by
  intro options corpus other
  have hspace : Key.namespaceOf "a.b.c" = some "a.b" := by decide
  have hfree : ∀ file ∈ corpus.files ++ other.files,
      ¬ Binds options.search.namespaceFunctions "a.b" file := by
    have hshow : (corpus.files ++ other.files).all (fun file =>
        Pattern.spaceMarks.all fun opening => Pattern.spaceMarks.all fun closing =>
          !Text.contains file.content (callForm "u" opening "a.b" closing)) = true := by
      decide +kernel
    simp only [List.all_eq_true, Bool.not_eq_true'] at hshow
    rintro file hfile ⟨name, hname, opening, hopening, closing, hclosing, hshown⟩
    rw [List.mem_singleton.mp hname] at hshown
    have habsent := hshow file hfile opening hopening closing hclosing
    rw [Text.contains, (Text.occursIn_iff _ _).mpr hshown] at habsent
    cases habsent
  have hevidence : ⟨.variation "b.c", ⟨"app.ts"⟩⟩ ∈ (corpus.decide options "a.b.c").evidence := by
    decide +kernel
  obtain ⟨hsame, hcounts⟩ := decide_of_evidenceFiles_eq corpus options "a.b.c"
  refine ⟨hsame other rfl fun space h => ?_, hevidence,
    hcounts _ hevidence fun space => Strategy.noConfusion⟩
  obtain rfl := Option.some.inj (hspace.symm.trans h)
  constructor
  · rintro ⟨file, hfile, -, hbinds⟩
    exact hfree file (List.mem_append_left _ hfile) hbinds
  · rintro ⟨file, hfile, -, hbinds⟩
    exact hfree file (List.mem_append_right _ hfile) hbinds

end Corpus

end LocaleTidy
