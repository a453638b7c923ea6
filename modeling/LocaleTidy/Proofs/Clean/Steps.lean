import LocaleTidy.Clean.Apply
import LocaleTidy.Proofs.Catalog.Saving
import LocaleTidy.Proofs.Usage.Classification

/-!
# The steps of a clean-up

A clean-up ends in one of a few ways, and only after the user has agreed are files written: first
the backup, unless none is wanted, and then the catalog.
-/

namespace LocaleTidy

open FileTree

variable {tree left : FileTree} {settings : Settings} {root : Path} {filter : SourceFilter}
  {analysis : Analysis}

/-! ### What an analysis is made of -/

/-- The analysis of a project whose catalog is loaded, with a filter. -/
def Analysis.ofParts (tree : FileTree) (settings : Settings) (root : Path) (catalog : Catalog)
    (filter : SourceFilter) : Analysis :=
  let corpus := Corpus.load tree (settings.sourcePaths root) filter
  let board := corpus.classify (.ofSettings settings) catalog.keys
  { messagesPath := settings.messagesPath root
    catalog := catalog
    verdicts := board.verdicts
    sourceFiles := corpus.files.length
    warnings := corpus.warnings
    reports := board.reports }

theorem Analysis.verdicts_ofParts {catalog : Catalog} :
    (ofParts tree settings root catalog filter).verdicts =
      catalog.keys.map ((Corpus.load tree (settings.sourcePaths root) filter).decide
        (.ofSettings settings)) :=
  Corpus.verdicts_classify ..

theorem analyze_eq (tree : FileTree) (settings : Settings) (root : Path) :
    analyze tree settings root = do
      let catalog ← Catalog.load tree (settings.messagesPath root)
      let filter ← (SourceFilter.ofSettings settings root).mapError .badIgnores
      return .ofParts tree settings root catalog filter :=
  rfl

theorem analyze_eq_ok_iff :
    analyze tree settings root = .ok analysis ↔ ∃ catalog filter,
      Catalog.load tree (settings.messagesPath root) = .ok catalog ∧
        SourceFilter.ofSettings settings root = .ok filter ∧
          .ofParts tree settings root catalog filter = analysis := by
  simp only [analyze_eq, bind_eq_ok, mapError_eq_ok, pure_eq_ok]
  constructor
  · intro hx
    obtain ⟨catalog, hload, filter, hfilter, heq⟩ := hx
    exact ⟨catalog, filter, hload, hfilter, heq⟩
  · intro hx
    obtain ⟨catalog, filter, hload, hfilter, heq⟩ := hx
    exact ⟨catalog, hload, filter, hfilter, heq⟩

theorem analyze_eq_ok (h : analyze tree settings root = .ok analysis) :
    ∃ filter, SourceFilter.ofSettings settings root = .ok filter ∧
      Catalog.load tree (settings.messagesPath root) = .ok analysis.catalog ∧
      analysis.messagesPath = settings.messagesPath root ∧
      analysis.unusedKeys = (Corpus.load tree (settings.sourcePaths root) filter).unusedKeys
        (.ofSettings settings) analysis.catalog.keys := by
  obtain ⟨catalog, filter, hload, hfilter, rfl⟩ := analyze_eq_ok_iff.mp h
  exact ⟨filter, hfilter, hload, rfl, rfl⟩

theorem exists_analyze {catalog : Catalog}
    (hfilter : SourceFilter.ofSettings settings root = .ok filter)
    (hload : Catalog.load tree (settings.messagesPath root) = .ok catalog) :
    ∃ analysis, analyze tree settings root = .ok analysis ∧ analysis.catalog = catalog :=
  ⟨_, analyze_eq_ok_iff.mpr ⟨catalog, filter, hload, hfilter, rfl⟩, rfl⟩

namespace Analysis

variable {σ : Type} {options : CleanOptions} {confirm : Confirm σ} {state state' : σ}
  {deleted : List String} {backup : Option Path}

/-! ### Ends -/

/-- The ways in which a clean-up ends. -/
inductive Ends (analysis : Analysis) (settings : Settings) (root : Path) (options : CleanOptions)
    (confirm : Confirm σ) (tree : FileTree) (state : σ) : Cleaned σ → Prop where
  | nothingToClean (hunused : analysis.unusedKeys = []) :
      Ends analysis settings root options confirm tree state ⟨.ok .nothingToClean, tree, state⟩
  | dryRun (hunused : analysis.unusedKeys ≠ []) (hdry : options.dryRun = true) :
      Ends analysis settings root options confirm tree state ⟨.ok .dryRun, tree, state⟩
  | unanswered (hunused : analysis.unusedKeys ≠ []) (hdry : options.dryRun = false)
      (hyes : options.yes = false) {error : ProjectError} {asked : σ}
      (hanswer : confirm analysis.unusedKeys state = (.error error, asked)) :
      Ends analysis settings root options confirm tree state ⟨.error error, tree, asked⟩
  | declined (hunused : analysis.unusedKeys ≠ []) (hdry : options.dryRun = false)
      (hyes : options.yes = false) {asked : σ}
      (hanswer : confirm analysis.unusedKeys state = (.ok false, asked)) :
      Ends analysis settings root options confirm tree state ⟨.ok .declined, tree, asked⟩
  | agreed (hunused : analysis.unusedKeys ≠ []) (hdry : options.dryRun = false) {asked : σ}
      (hanswer : options.yes = true ∧ asked = state ∨
        options.yes = false ∧ confirm analysis.unusedKeys state = (.ok true, asked))
      {outcome : Except ProjectError CleanOutcome} {left : FileTree}
      (hdone : analysis.backUpAndDelete settings root options tree = (outcome, left)) :
      Ends analysis settings root options confirm tree state ⟨outcome, left, asked⟩

theorem ends_clean (analysis : Analysis) (settings : Settings) (root : Path)
    (options : CleanOptions) (confirm : Confirm σ) (tree : FileTree) (state : σ) :
    Ends analysis settings root options confirm tree state
      (analysis.clean settings root options confirm tree state) := by
  unfold clean
  split
  · rename_i hempty
    exact .nothingToClean (List.isEmpty_iff.mp hempty)
  rename_i hempty
  have hunused : analysis.unusedKeys ≠ [] := by simpa using hempty
  split
  · exact .dryRun hunused (by assumption)
  rename_i hdry
  rw [Bool.not_eq_true] at hdry
  rcases hdone : analysis.backUpAndDelete settings root options tree with ⟨outcome, left⟩
  cases hyes : options.yes with
  | true => exact .agreed hunused hdry (.inl ⟨hyes, rfl⟩) hdone
  | false =>
      simp only [Bool.false_eq_true, if_false]
      rcases hanswer : confirm analysis.unusedKeys state with ⟨_ | agreed, asked⟩
      · exact .unanswered hunused hdry hyes hanswer
      · cases agreed with
        | false => exact .declined hunused hdry hyes hanswer
        | true => exact .agreed hunused hdry (.inr ⟨hyes, hanswer⟩) hdone

/-- The backup comes first, and if it is made the catalog is saved. -/
theorem backUpAndDelete_cases {outcome : Except ProjectError CleanOutcome}
    (h : analysis.backUpAndDelete settings root options tree = (outcome, left)) :
    (∃ error, analysis.backUp settings root options tree = .error error ∧
        outcome = .ok (.backupFailed error) ∧ left = tree) ∨
      ∃ backup written result, analysis.backUp settings root options tree = .ok (backup, written) ∧
        (analysis.catalog.eraseAll analysis.unusedKeys).2.save written analysis.messagesPath =
          (result, left) ∧
        outcome = result.map fun _ =>
          .applied (analysis.catalog.eraseAll analysis.unusedKeys).1 backup := by
  unfold backUpAndDelete at h
  split at h
  · rename_i error herror
    cases h
    exact .inl ⟨error, herror, rfl, rfl⟩
  · rename_i backup written hbackup
    rcases hsaved : (analysis.catalog.eraseAll analysis.unusedKeys).2.save written
      analysis.messagesPath with ⟨result, final⟩
    simp only [delete, hsaved, Prod.mk.injEq] at h
    rcases h with ⟨rfl, rfl⟩
    exact .inr ⟨backup, written, result, hbackup, hsaved, rfl⟩

theorem clean_eq_applied (h : analysis.clean settings root options confirm tree state =
    ⟨.ok (.applied deleted backup), left, state'⟩) :
    ∃ written, analysis.backUp settings root options tree = .ok (backup, written) ∧
      (analysis.catalog.eraseAll analysis.unusedKeys).2.save written analysis.messagesPath =
        (.ok (), left) := by
  have hends := ends_clean analysis settings root options confirm tree state
  rw [h] at hends
  cases hends with
  | agreed hunused hdry hanswer hdone =>
      rcases backUpAndDelete_cases hdone with
        ⟨_, -, hfailed, -⟩ | ⟨kept, written, result, hbackup, hsave, hresult⟩
      · cases hfailed
      · cases result with
        | error error => cases hresult
        | ok _ =>
            cases hresult
            exact ⟨written, hbackup, hsave⟩

/-! ### Backups -/

theorem backUp_eq_ok {written : FileTree}
    (h : analysis.backUp settings root options tree = .ok (backup, written)) :
    options.noBackup = true ∧ backup = none ∧ written = tree ∨
      options.noBackup = false ∧ backup = some (settings.backupPath root) ∧
        tree.copy analysis.messagesPath (settings.backupPath root) = .ok written := by
  unfold backUp at h
  split at h
  · rename_i hnone
    cases h
    exact .inl ⟨hnone, rfl, rfl⟩
  · rename_i hwanted
    rw [bind_eq_ok] at h
    rcases h with ⟨copied, hcopied, h⟩
    cases h
    exact .inr ⟨Bool.eq_false_iff.mpr hwanted, rfl, mapError_eq_ok.mp hcopied⟩

theorem copy_of_backUp_eq_error {error : ProjectError}
    (h : analysis.backUp settings root options tree = .error error) (copied : FileTree) :
    tree.copy analysis.messagesPath (settings.backupPath root) ≠ .ok copied := by
  intro hcopied
  have hdone : tree.backUp analysis.messagesPath (settings.backupPath root) = .ok copied :=
    mapError_eq_ok.mpr hcopied
  unfold backUp at h
  split at h
  · cases h
  · simp only [hdone] at h
    cases h

/-- What a backup changes: nothing if none is wanted, and otherwise the place of the copy. A file
that is copied onto itself is empty then. -/
theorem backUp_cases (ht : tree.WellFormed) {written : FileTree} {place : Location}
    {bytes : ByteArray} {mode : Nat}
    (hfind : tree.find analysis.messagesPath = .ok (place, .file bytes mode))
    (h : analysis.backUp settings root options tree = .ok (backup, written)) :
    options.noBackup = true ∧ backup = none ∧ written = tree ∨
      options.noBackup = false ∧ backup = some (settings.backupPath root) ∧
        ∃ site, tree.Targets (settings.backupPath root) site ∧ WrittenAt [site] tree written ∧
          written.get? site =
            some (.file (if site = place then ByteArray.empty else bytes) mode) ∧
          written.HasMode place mode := by
  rcases backUp_eq_ok h with hnone | ⟨hwanted, hnamed, hcopied⟩
  · exact .inl hnone
  · exact .inr ⟨hwanted, hnamed, copy_eq_ok ht hcopied hfind⟩

theorem writtenAt_of_backUp (ht : tree.WellFormed) {written : FileTree} {place : Location}
    {bytes : ByteArray} {mode : Nat}
    (hfind : tree.find analysis.messagesPath = .ok (place, .file bytes mode))
    (h : analysis.backUp settings root options tree = .ok (backup, written)) :
    ∃ places, WrittenAt places tree written ∧ written.HasMode place mode ∧
      ∀ site ∈ places, tree.Targets (settings.backupPath root) site := by
  rcases backUp_cases ht hfind h with ⟨-, -, rfl⟩ | ⟨-, -, site, htargets, hwritten, -, hmode⟩
  · exact ⟨[], .start ht, ⟨bytes, get?_of_find hfind⟩, by simp⟩
  · exact ⟨[site], hwritten, hmode, by simpa using htargets⟩

theorem backup_of_clean (hclean : analysis.clean settings root options confirm tree state =
      ⟨.ok (.applied deleted backup), left, state'⟩) :
    backup = if options.noBackup then none else some (settings.backupPath root) := by
  obtain ⟨written, hbackup, -⟩ := clean_eq_applied hclean
  rcases backUp_eq_ok hbackup with ⟨hnone, rfl, -⟩ | ⟨hwanted, rfl, -⟩
  · rw [if_pos hnone]
  · rw [if_neg (by simp [hwanted])]

end Analysis

end LocaleTidy
