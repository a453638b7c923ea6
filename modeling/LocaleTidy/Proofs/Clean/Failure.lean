import LocaleTidy.Proofs.Clean.Backup

/-!
# Clean-ups that are not applied

A clean-up that ends without an error changes nothing unless it is applied, and one that fails
leaves the catalog file as it was if neither the backup nor the temporary file is written in its
place. The user is asked at most once, and only about the unused keys.
-/

namespace LocaleTidy

open FileTree

variable {tree left : FileTree} {settings : Settings} {root : Path} {analysis : Analysis}
  {σ : Type}

/-- The questions are written down as they are asked. -/
def Confirm.recorded (confirm : Confirm σ) : Confirm (σ × List (List String)) :=
  fun keys state =>
    let (answer, asked) := confirm keys state.1
    (answer, asked, state.2 ++ [keys])

namespace Analysis

variable {options : CleanOptions} {confirm : Confirm σ} {state state' : σ}

/-- Writing the questions down changes nothing else: there is one if there are unused keys and
neither of the options that spare it is set. -/
theorem clean_recorded (analysis : Analysis) (settings : Settings) (root : Path)
    (options : CleanOptions) (confirm : Confirm σ) (tree : FileTree) (state : σ) :
    analysis.clean settings root options confirm.recorded tree (state, []) =
      let cleaned := analysis.clean settings root options confirm tree state
      ⟨cleaned.outcome, cleaned.tree, cleaned.state,
        if analysis.unusedKeys ≠ [] ∧ options.yes = false ∧ options.dryRun = false
        then [analysis.unusedKeys] else []⟩ := by
  have hends := ends_clean analysis settings root options confirm tree state
  generalize hcleaned : analysis.clean settings root options confirm tree state = cleaned at hends
  cases hends with
  | nothingToClean hunused => simp [clean, hunused]
  | dryRun hunused hdry => simp [clean, hunused, hdry]
  | unanswered hunused hdry hyes hanswer =>
      simp [clean, Confirm.recorded, hunused, hdry, hyes, hanswer]
  | declined hunused hdry hyes hanswer =>
      simp [clean, Confirm.recorded, hunused, hdry, hyes, hanswer]
  | agreed hunused hdry hanswer hdone =>
      rcases hanswer with ⟨hyes, rfl⟩ | ⟨hyes, hanswer⟩
      · simp [clean, hunused, hdry, hyes, hdone]
      · simp [clean, Confirm.recorded, hunused, hdry, hyes, hanswer, hdone]

theorem tree_of_not_applied {outcome : CleanOutcome}
    (h : analysis.clean settings root options confirm tree state = ⟨.ok outcome, left, state'⟩)
    (hnot : ∀ deleted backup, outcome ≠ .applied deleted backup) : left = tree := by
  have hends := ends_clean analysis settings root options confirm tree state
  rw [h] at hends
  cases hends with
  | nothingToClean | dryRun | declined => rfl
  | agreed hunused hdry hanswer hdone =>
      rcases backUpAndDelete_cases hdone with
        ⟨_, -, -, hsame⟩ | ⟨backup, written, result, -, -, hresult⟩
      · exact hsame
      · cases result with
        | error error => cases hresult
        | ok _ =>
            cases hresult
            exact (hnot _ _ rfl).elim

/-- A backup fails before anything is written: the catalog file cannot be read, or the file for the
copy cannot be opened. -/
theorem unopened_of_backupFailed (ht : tree.WellFormed) {error : ProjectError}
    (h : analysis.clean settings root options confirm tree state =
      ⟨.ok (.backupFailed error), left, state'⟩) {place : Location} {bytes : ByteArray} {mode : Nat}
    (hreadable : tree.findReadable analysis.messagesPath = .ok (place, .file bytes mode))
    (emptied : FileTree) :
    tree.writeNew (settings.backupPath root) ByteArray.empty mode ≠ .ok emptied := by
  intro hemptied
  obtain ⟨site, -, hcopied⟩ := copy_of_writeNew ht hreadable hemptied
  have hends := ends_clean analysis settings root options confirm tree state
  rw [h] at hends
  cases hends with
  | agreed hunused hdry hanswer hdone =>
      rcases backUpAndDelete_cases hdone with
        ⟨_, hbackup, -, -⟩ | ⟨backup, written, result, -, -, hresult⟩
      · exact copy_of_backUp_eq_error hbackup _ hcopied
      · cases result <;> cases hresult

/-! ### The catalog file after a failure -/

/-- What a save that fails leaves of the catalog file: what the backup has left of it. -/
theorem find_of_failure (ht : tree.WellFormed)
    (hpath : analysis.messagesPath = settings.messagesPath root)
    {place : Location} {bytes : ByteArray} {mode : Nat}
    (hfind : tree.find (settings.messagesPath root) = .ok (place, .file bytes mode))
    (htemporary : tree.Elsewhere (Catalog.temporaryFor (settings.messagesPath root))
      (settings.messagesPath root)) {error : ProjectError}
    (h : analysis.backUpAndDelete settings root options tree = (.error error, left)) :
    (options.noBackup = true ∨
        tree.Elsewhere (settings.backupPath root) (settings.messagesPath root) →
      left.find (settings.messagesPath root) = .ok (place, .file bytes mode)) ∧
    (options.noBackup = false →
        ¬ tree.Elsewhere (settings.backupPath root) (settings.messagesPath root) →
      left.find (settings.messagesPath root) = .ok (place, .file ByteArray.empty mode)) := by
  have hfile := targets_of_find ht.toRooted (isDirectory_start ht.toRooted ht.current _) hfind
  rcases backUpAndDelete_cases h with
    ⟨_, -, hresult, -⟩ | ⟨backup, written, result, hbackup, hsave, hresult⟩
  · cases hresult
  cases result with
  | ok _ => cases hresult
  | error fault =>
      rw [hpath] at hsave
      have hkept : ∀ {places : List Location} {held : ByteArray}, WrittenAt places tree written →
          written.HasMode place mode →
          written.find (settings.messagesPath root) = .ok (place, .file held mode) →
          left.find (settings.messagesPath root) = .ok (place, .file held mode) := by
        intro places held hwritten hmode hnow
        exact Catalog.save_keeps hwritten ht hfind hmode hsave hnow
          (fun h => htemporary place h hfile) (by simp)
      rcases backUp_cases ht (hpath ▸ hfind) hbackup with
        ⟨hnone, -, rfl⟩ | ⟨hwanted, -, site, htargets, hwritten, hcopy, hmode⟩
      · refine ⟨fun _ => hkept (.start ht) ⟨bytes, get?_of_find hfind⟩ hfind, ?_⟩
        intro hbackup
        simp [hnone] at hbackup
      by_cases hsame : site = place
      · subst hsame
        rw [if_pos rfl] at hcopy
        have hlost := hkept hwritten hmode (hwritten.find_at ht hfind hcopy)
        refine ⟨?_, fun _ _ => hlost⟩
        rintro (hnone | helsewhere)
        · simp [hwanted] at hnone
        · exact (helsewhere site htargets hfile).elim
      · have hsafe : written.get? place = some (.file bytes mode) := by
          rw [hwritten.agree.get? (by simpa using Ne.symm hsame), get?_of_find hfind]
        refine ⟨fun _ => hkept hwritten hmode (hwritten.find_at ht hfind hsafe), ?_⟩
        intro _ hnot
        apply (hnot _).elim
        intro other hother hplace
        exact hsame ((htargets.unique hother).trans (hplace.unique hfile))

/-! ### However a clean-up ends -/

/-- What is so of every clean-up. -/
structure CleanContract (analysis : Analysis) (settings : Settings) (root : Path)
    (options : CleanOptions) (confirm : Confirm σ) (tree : FileTree) (state : σ) : Prop where
  /-- The user is asked at most once, and only about the unused keys. -/
  asked : analysis.clean settings root options confirm.recorded tree (state, []) =
    let cleaned := analysis.clean settings root options confirm tree state
    ⟨cleaned.outcome, cleaned.tree, cleaned.state,
      if analysis.unusedKeys ≠ [] ∧ options.yes = false ∧ options.dryRun = false
      then [analysis.unusedKeys] else []⟩
  /-- Without an error, the tree is changed only by a clean-up that is applied. -/
  quiet : ∀ {outcome left state'},
    analysis.clean settings root options confirm tree state = ⟨.ok outcome, left, state'⟩ →
    (∀ deleted backup, outcome ≠ .applied deleted backup) → left = tree
  /-- An error of the question ends the clean-up and leaves the tree as it is. -/
  unanswered : ∀ {error state'}, analysis.unusedKeys ≠ [] → options.yes = false →
    options.dryRun = false → confirm analysis.unusedKeys state = (.error error, state') →
    analysis.clean settings root options confirm tree state = ⟨.error error, tree, state'⟩
  /-- No file was opened for a backup that failed. -/
  unopened : ∀ {error left state' place bytes mode},
    analysis.clean settings root options confirm tree state =
      ⟨.ok (.backupFailed error), left, state'⟩ →
    tree.findReadable (settings.messagesPath root) = .ok (place, .file bytes mode) →
    ∀ emptied, tree.writeNew (settings.backupPath root) ByteArray.empty mode ≠ .ok emptied
  /-- After an error the catalog file is as it was, unless it was written over. -/
  kept : ∀ {error left state' place bytes mode},
    analysis.clean settings root options confirm tree state = ⟨.error error, left, state'⟩ →
    tree.find (settings.messagesPath root) = .ok (place, .file bytes mode) →
    tree.Elsewhere (Catalog.temporaryFor (settings.messagesPath root))
      (settings.messagesPath root) →
    options.noBackup = true ∨
      tree.Elsewhere (settings.backupPath root) (settings.messagesPath root) →
    left.find (settings.messagesPath root) = .ok (place, .file bytes mode)
  /-- After an error of the save it is empty, if the backup was written over it. -/
  lost : ∀ {error left state' place bytes mode},
    analysis.clean settings root options confirm tree state = ⟨.error error, left, state'⟩ →
    (∀ fault asked, confirm analysis.unusedKeys state ≠ (.error fault, asked)) →
    tree.find (settings.messagesPath root) = .ok (place, .file bytes mode) →
    tree.Elsewhere (Catalog.temporaryFor (settings.messagesPath root))
      (settings.messagesPath root) →
    options.noBackup = false →
    ¬ tree.Elsewhere (settings.backupPath root) (settings.messagesPath root) →
    left.find (settings.messagesPath root) = .ok (place, .file ByteArray.empty mode)

/-- How clean-ups end. All files belong to whoever runs the program, and the system refuses nothing
but what the tree does not permit. -/
theorem clean_contract (ht : tree.WellFormed)
    (hpath : analysis.messagesPath = settings.messagesPath root) (options : CleanOptions)
    (confirm : Confirm σ) (state : σ) :
    CleanContract analysis settings root options confirm tree state where
  asked := clean_recorded analysis settings root options confirm tree state
  quiet := tree_of_not_applied
  unanswered := by
    intro error state' hunused hyes hdry hanswer
    simp [clean, hunused, hyes, hdry, hanswer]
  unopened := by
    intro error left state' place bytes mode h hreadable
    exact unopened_of_backupFailed ht h (hpath ▸ hreadable)
  kept := by
    intro error left state' place bytes mode h hfind htemporary hsafe
    have hends := ends_clean analysis settings root options confirm tree state
    rw [h] at hends
    cases hends with
    | unanswered => exact hfind
    | agreed hunused hdry hanswer hdone =>
        exact (find_of_failure ht hpath hfind htemporary hdone).1 hsafe
  lost := by
    intro error left state' place bytes mode h hanswers hfind htemporary hwanted hsame
    have hends := ends_clean analysis settings root options confirm tree state
    rw [h] at hends
    cases hends with
    | unanswered hunused hdry hyes hanswer => exact (hanswers _ _ hanswer).elim
    | agreed hunused hdry hanswer hdone =>
        exact (find_of_failure ht hpath hfind htemporary hdone).2 hwanted hsame

theorem eq_of_outcome {cleaned : Cleaned Unit} {outcome : Except ProjectError CleanOutcome}
    (h : cleaned.outcome = outcome) : cleaned = ⟨outcome, cleaned.tree, ()⟩ := by
  rw [← h]

/-- A directory in the place of the temporary file makes the save fail, and the catalog file of the
small project is kept. -/
theorem clean_contract_small :
    ∃ analysis error,
      analyze (smallBeside ["zh.json.tmp"]) smallSettings ⟨""⟩ = .ok analysis ∧
      (cleanAtOnce smallSettings (smallBeside ["zh.json.tmp"]) analysis).outcome =
        .error error ∧
      (cleanAtOnce smallSettings (smallBeside ["zh.json.tmp"]) analysis).tree.find
          (smallSettings.messagesPath ⟨""⟩) =
        .ok (["locales", "zh.json"], .file mixed.toText.toUTF8 Entry.newFileMode) := by
  have hrun : (smallBeside ["zh.json.tmp"]).WellFormed ∧
      (smallBeside ["zh.json.tmp"]).place? (smallSettings.messagesPath ⟨""⟩) =
        some ["locales", "zh.json"] ∧
      (smallBeside ["zh.json.tmp"]).target?
          (Catalog.temporaryFor (smallSettings.messagesPath ⟨""⟩)) ≠
        (smallBeside ["zh.json.tmp"]).target? (smallSettings.messagesPath ⟨""⟩) ∧
      (smallBeside ["zh.json.tmp"]).target? (smallSettings.backupPath ⟨""⟩) ≠
        (smallBeside ["zh.json.tmp"]).target? (smallSettings.messagesPath ⟨""⟩) ∧
      (analyze (smallBeside ["zh.json.tmp"]) smallSettings ⟨""⟩).toOption.isSome ∧
      ∀ analysis ∈ (analyze (smallBeside ["zh.json.tmp"]) smallSettings ⟨""⟩).toOption,
        (cleanAtOnce smallSettings (smallBeside ["zh.json.tmp"])
          analysis).outcome.toOption.isNone := by
    decide +kernel
  obtain ⟨hwell, hplace, htemporary, hbackup, hsome, hfails⟩ := hrun
  obtain ⟨analysis, hmem⟩ := Option.isSome_iff_exists.mp hsome
  have hanalysis := eq_ok_of_mem_toOption hmem
  obtain ⟨_, -, -, hpath, -⟩ := analyze_eq_ok hanalysis
  obtain ⟨error, herror⟩ := eq_error_of_toOption_isNone (hfails analysis hmem)
  have hkept := (clean_contract hwell hpath ⟨true, false, false⟩
    (fun _ state => (.ok true, state)) ()).kept (eq_of_outcome herror) (find_of_place? hplace rfl)
    (elsewhere_of_target?_ne htemporary) (.inr (elsewhere_of_target?_ne hbackup))
  exact ⟨analysis, error, hanalysis, herror, hkept⟩

/-- A save that fails leaves an empty catalog file if the backup was written over it, through a
directory beside it and up again. -/
theorem catalog_lost_through_directory :
    ¬ ∀ (tree : FileTree) (settings : Settings) (root : Path) (analysis : Analysis)
        (options : CleanOptions) (confirm : Confirm Unit) (error : ProjectError),
      tree.WellFormed → (∃ checked, settings.check = .ok checked) →
      analyze tree settings root = .ok analysis → ¬ tree.IsLink (settings.backupPath root) →
      (analysis.clean settings root options confirm tree ()).outcome = .error error →
      (analysis.clean settings root options confirm tree ()).tree.find
          (settings.messagesPath root) =
        tree.find (settings.messagesPath root) := by
  intro hall
  have hrun : (smallBeside ["zh.json.d", "zh.json.tmp"]).WellFormed ∧
      (analyze (smallBeside ["zh.json.d", "zh.json.tmp"]) (suffixed ".d/../zh.json")
        ⟨""⟩).toOption.isSome ∧
      ∀ analysis ∈ (analyze (smallBeside ["zh.json.d", "zh.json.tmp"]) (suffixed ".d/../zh.json")
          ⟨""⟩).toOption,
        (cleanAtOnce (suffixed ".d/../zh.json") (smallBeside ["zh.json.d", "zh.json.tmp"])
          analysis).outcome.toOption.isNone ∧
        ((cleanAtOnce (suffixed ".d/../zh.json") (smallBeside ["zh.json.d", "zh.json.tmp"])
            analysis).tree.readBytes ((suffixed ".d/../zh.json").messagesPath ⟨""⟩)).toOption ≠
          ((smallBeside ["zh.json.d", "zh.json.tmp"]).readBytes
            ((suffixed ".d/../zh.json").messagesPath ⟨""⟩)).toOption := by
    decide +kernel
  obtain ⟨hwell, hsome, hfails⟩ := hrun
  obtain ⟨analysis, hmem⟩ := Option.isSome_iff_exists.mp hsome
  obtain ⟨hnone, hdiffer⟩ := hfails analysis hmem
  obtain ⟨error, herror⟩ := eq_error_of_toOption_isNone hnone
  have hsame := hall _ (suffixed ".d/../zh.json") ⟨""⟩ analysis _ _ error hwell ⟨(), rfl⟩
    (eq_ok_of_mem_toOption hmem)
    (not_isLink (by simp [smallBeside, small, FileTree.set, setIn])) herror
  apply hdiffer
  rw [cleanAtOnce, readBytes, findReadable, hsame]
  rfl

end Analysis

end LocaleTidy
