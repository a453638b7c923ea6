import LocaleTidy.Proofs.Analysis.Warnings
import LocaleTidy.Proofs.Clean.Steps
import LocaleTidy.Proofs.Corpus.Ignores
import LocaleTidy.Proofs.Corpus.Loading
import LocaleTidy.Proofs.Usage.Accounting

/-!
# When an analysis fails

With settings that pass their check, an analysis fails only for want of a catalog. Whatever else
goes wrong, in the walks, in the reading of source files or in the searches, is a warning.
-/

namespace LocaleTidy

variable {tree : FileTree} {settings : Settings} {root path : Path} {filter : SourceFilter}
  {catalog : Catalog} {problem : ProjectError}

/-! ## The catalog -/

/-- Why a file holds no catalog, and the error that says so: it cannot be read as a text, the text
is no JSON, or it is JSON but no object. -/
inductive LacksCatalog (tree : FileTree) (path : Path) : ProjectError → Prop where
  | unreadable {error : FileError} (hread : tree.readText path = .error error) :
      LacksCatalog tree path (.unreadableCatalog path error)
  | malformed {text : String} {fault : Json.Fault} (hread : tree.readText path = .ok text)
      (hparse : Json.parse text = .error fault) :
      LacksCatalog tree path (.malformedCatalog path (.json fault))
  | noObject {text : String} {value : Json} (hread : tree.readText path = .ok text)
      (hparse : Json.parse text = .ok value) (hvalue : ∀ members, value ≠ .object members) :
      LacksCatalog tree path (.malformedCatalog path .rootNotObject)

namespace Catalog

theorem parse_eq_error {text : String} {fault : Fault} :
    parse text = .error fault ↔
      (∃ cause, Json.parse text = .error cause ∧ fault = .json cause) ∨
        ∃ value, Json.parse text = .ok value ∧ (∀ members, value ≠ .object members) ∧
          fault = .rootNotObject := by
  unfold parse
  cases Json.parse text with
  | error cause => simp [eq_comm]
  | ok value => cases value <;> simp [eq_comm]

theorem load_eq_error_iff :
    load tree path = .error problem ↔ LacksCatalog tree path problem := by
  simp only [load, bind_eq_error, mapError_eq_error, mapError_eq_ok, parse_eq_error]
  constructor
  · intro h
    rcases h with ⟨error, hread, rfl⟩ | ⟨text, hread, fault, hfault, rfl⟩
    · exact .unreadable hread
    · rcases hfault with ⟨cause, hparse, rfl⟩ | ⟨value, hparse, hvalue, rfl⟩
      · exact .malformed hread hparse
      · exact .noObject hread hparse hvalue
  · intro h
    cases h with
    | unreadable hread => exact .inl ⟨_, hread, rfl⟩
    | malformed hread hparse => exact .inr ⟨_, hread, _, .inl ⟨_, hparse, rfl⟩, rfl⟩
    | noObject hread hparse hvalue =>
        exact .inr ⟨_, hread, _, .inr ⟨_, hparse, hvalue, rfl⟩, rfl⟩

end Catalog

/-! ## The analysis -/

/-- Once the filter is made, an analysis fails only as the loading of the catalog does. -/
theorem analyze_eq_error_iff (hfilter : SourceFilter.ofSettings settings root = .ok filter) :
    analyze tree settings root = .error problem ↔
      Catalog.load tree (settings.messagesPath root) = .error problem := by
  rw [analyze_eq, bind_eq_error, hfilter]
  constructor
  · intro h
    rcases h with h | ⟨catalog, -, hrest⟩
    · exact h
    · cases hrest
  · exact .inl

namespace Corpus

variable {corpus : Corpus} {options : UsageOptions} {key : String} {failure : SearchProblem}

/-- A search for a key fails, and none before it finds a file. -/
def FailsFor (corpus : Corpus) (options : UsageOptions) (key : String) (failure : SearchProblem) :
    Prop :=
  ∃ before search after, options.chain key = before ++ search :: after ∧
    (∀ earlier ∈ before, ¬ (earlier.2.run corpus options.search).IsFound) ∧
    search.2.run corpus options.search = .failed failure

theorem FailsFor.mem_failures (h : corpus.FailsFor options key failure) :
    failure ∈ (corpus.decide options key).failures := by
  obtain ⟨before, search, after, hchain, hbefore, hfailed⟩ := h
  rw [decide, hchain]
  clear hchain
  -- the searches before the one that fails add failures of their own in front of it
  induction before with
  | nil => simp [firstEvidence, hfailed]
  | cons earlier before ih =>
      obtain ⟨hearlier, hbefore⟩ := List.forall_mem_cons.mp hbefore
      rw [List.cons_append, firstEvidence]
      cases hrun : earlier.2.run corpus options.search with
      | found file => exact absurd ⟨file, hrun⟩ hearlier
      | notFound => exact ih hbefore
      | failed other => exact List.mem_cons_of_mem _ (ih hbefore)

end Corpus

namespace Analysis

/-- What an analysis does about all that goes wrong besides the catalog: it decides every key, and
its warnings name each source directory that is not there, each directory that cannot be listed,
each source file that cannot be read and each search that fails before another one finds a file. -/
structure Withstands (tree : FileTree) (settings : Settings) (root : Path) (filter : SourceFilter)
    (analysis : Analysis) : Prop where
  decided : analysis.verdicts.map (·.key) = analysis.catalog.keys
  missing : ∀ source ∈ settings.sourcePaths root, tree.isThere source = false →
    .missingRoot source ∈ analysis.allWarnings
  unlistable : ∀ source ∈ settings.sourcePaths root, tree.isThere source = true →
    ∀ directory error, (directory, error) ∈ (tree.listing source).barred →
      .unlistable directory error ∈ analysis.allWarnings
  unreadable : ∀ item ∈ Corpus.paths tree (settings.sourcePaths root) filter,
    ∀ error, tree.readText item.1 = .error error →
      .unreadable item.1 error ∈ analysis.allWarnings
  failed : ∀ key ∈ analysis.catalog.keys, ∀ failure,
    (Corpus.load tree (settings.sourcePaths root) filter).FailsFor (.ofSettings settings) key
      failure → failure ∈ analysis.allWarnings

theorem withstands_ofParts (tree : FileTree) (settings : Settings) (root : Path)
    (filter : SourceFilter) (catalog : Catalog) :
    (ofParts tree settings root catalog filter).Withstands tree settings root filter := by
  have hload : ∀ problem ∈ (Corpus.load tree (settings.sourcePaths root) filter).warnings,
      problem ∈ (ofParts tree settings root catalog filter).allWarnings :=
    fun problem hproblem => mem_allWarnings.mpr (.inl hproblem)
  refine ⟨?_, fun source hsource hmissing => hload _ ?_,
    fun source hsource hthere directory error hbarred => hload _ ?_,
    fun item hitem error herror => hload _ ?_,
    fun key hkey failure hfails =>
      mem_allWarnings.mpr (.inr ⟨_, ?_, hfails.mem_failures⟩)⟩
  · rw [verdicts_ofParts, List.map_map]
    exact List.map_id _
  · rw [Corpus.warnings_load]
    refine List.mem_append_left _ (List.mem_flatMap.mpr ⟨source, hsource, ?_⟩)
    simp [Corpus.walkProblems, hmissing]
  · rw [Corpus.warnings_load]
    refine List.mem_append_left _ (List.mem_flatMap.mpr ⟨source, hsource, ?_⟩)
    rw [Corpus.walkProblems, if_pos hthere]
    exact List.mem_map.mpr ⟨_, hbarred, rfl⟩
  · rw [Corpus.warnings_load]
    refine List.mem_append_right _ (List.mem_filterMap.mpr ⟨item, hitem, ?_⟩)
    rw [Corpus.readProblem?, herror]
  · rw [verdicts_ofParts]
    exact List.mem_map_of_mem hkey

/-- With settings that pass the check, the filter of a project is made, with every ignored entry
as a pattern or as a path. The analysis fails exactly if there is no catalog, with the error that
says why. If there is one, the analysis succeeds, and all that goes wrong besides is a warning. -/
theorem analyze_of_check (h : settings.check = .ok ()) (root : Path) :
    ∃ filter, SourceFilter.ofSettings settings root = .ok filter ∧
      filter.Ignores settings.ignores ∧ ∀ tree : FileTree,
        (∀ problem, analyze tree settings root = .error problem ↔
          LacksCatalog tree (settings.messagesPath root) problem) ∧
        ∀ text members, tree.readText (settings.messagesPath root) = .ok text →
          Json.parse text = .ok (.object members) →
          ∃ analysis, analyze tree settings root = .ok analysis ∧ analysis.catalog = ⟨members⟩ ∧
            analysis.Withstands tree settings root filter := by
  obtain ⟨filter, hfilter, hignores⟩ := SourceFilter.exists_ofSettings_of_check h root
  refine ⟨filter, hfilter, hignores, fun tree => ⟨fun problem => ?_,
    fun text members hread hparse => ?_⟩⟩
  · rw [analyze_eq_error_iff hfilter, Catalog.load_eq_error_iff]
  · have hload : Catalog.load tree (settings.messagesPath root) = .ok ⟨members⟩ := by
      rw [Catalog.load, bind_eq_ok]
      exact ⟨text, mapError_eq_ok.mpr hread,
        mapError_eq_ok.mpr (Catalog.parse_eq_ok.mpr hparse)⟩
    exact ⟨.ofParts tree settings root ⟨members⟩ filter,
      analyze_eq_ok_iff.mpr ⟨_, filter, hload, hfilter, rfl⟩, rfl,
      withstands_ofParts tree settings root filter ⟨members⟩⟩

/-! ### A project with gaps -/

/-- A project with a catalog, one source directory out of two, and a source file that is no text. -/
def gappy : FileTree where
  entries := [
    (["app"], .directory Entry.newDirectoryMode),
    (["app", "zh.json"],
      .file (Catalog.mk [("title", .string "x")]).toText.toUTF8 Entry.newFileMode),
    (["app", "src"], .directory Entry.newDirectoryMode),
    (["app", "src", "bytes.ts"], .file ⟨#[0xff]⟩ Entry.newFileMode)]
  current := []

/-- The settings of that project. A class in brackets alone does not make an entry a pattern. -/
def gappySettings : Settings :=
  { Settings.default with
    messagesFile := "zh.json"
    sourceRoots := ["src", "lib"]
    ignores := ["src/old", "**/*.gen.ts", "src/[ab]", "lib/?"] }

/-- The gaps are warnings, and only without its catalog the project cannot be analysed. -/
theorem analyze_gappy :
    ∃ filter, SourceFilter.ofSettings gappySettings ⟨"/app"⟩ = .ok filter ∧
      filter.globs.length = 2 ∧ filter.ignored = [⟨"src/old"⟩, ⟨"src/[ab]"⟩] ∧
      (∃ analysis, analyze gappy gappySettings ⟨"/app"⟩ = .ok analysis ∧
        .missingRoot ⟨"/app/lib"⟩ ∈ analysis.allWarnings ∧
        .unreadable ⟨"/app/src/bytes.ts"⟩ .notText ∈ analysis.allWarnings) ∧
      analyze (gappy.erase ["app", "zh.json"]) gappySettings ⟨"/app"⟩ =
        .error (.unreadableCatalog ⟨"/app/zh.json"⟩ .notFound) := by
  have hcheck : gappySettings.check = .ok () := eq_ok_of_mem_toOption (by decide +kernel)
  obtain ⟨filter, hfilter, hignores, hanalyze⟩ := analyze_of_check hcheck ⟨"/app"⟩
  have hcatalog : (Catalog.parse (Catalog.mk [("title", .string "x")]).toText).toOption.isSome =
      true := by
    decide +kernel
  obtain ⟨catalog, hcatalog⟩ := Option.isSome_iff_exists.mp hcatalog
  have hread : gappy.readText (gappySettings.messagesPath ⟨"/app"⟩) =
      .ok (Catalog.mk [("title", .string "x")]).toText := by
    decide +kernel
  obtain ⟨analysis, hanalysis, -, hwithstands⟩ := (hanalyze gappy).2 _ _ hread
    (Catalog.parse_eq_ok.mp (eq_ok_of_mem_toOption hcatalog))
  have hpaths : (SourceFilter.ofSettings gappySettings ⟨"/app"⟩).toOption.map
      (Corpus.paths gappy (gappySettings.sourcePaths ⟨"/app"⟩)) =
        some [(⟨"/app/src/bytes.ts"⟩, false)] := by
    decide +kernel
  have hitem : (⟨"/app/src/bytes.ts"⟩, false) ∈
      Corpus.paths gappy (gappySettings.sourcePaths ⟨"/app"⟩) filter := by
    rw [hfilter] at hpaths
    exact Option.some.inj hpaths ▸ List.mem_singleton_self _
  refine ⟨filter, hfilter, ?_, ?_, ⟨analysis, hanalysis, ?_, ?_⟩, ?_⟩
  · exact hignores.globs.length_eq.symm.trans (by decide +kernel)
  · exact hignores.ignored.trans (by decide +kernel)
  · exact hwithstands.missing _ (by decide +kernel) (by decide +kernel)
  · exact hwithstands.unreadable _ hitem _ (by decide +kernel)
  · have hpath : gappySettings.messagesPath ⟨"/app"⟩ = ⟨"/app/zh.json"⟩ := by decide +kernel
    have hgone : (gappy.erase ["app", "zh.json"]).readText ⟨"/app/zh.json"⟩ = .error .notFound := by
      decide +kernel
    rw [(hanalyze _).1, hpath]
    exact .unreadable hgone

end Analysis

end LocaleTidy
