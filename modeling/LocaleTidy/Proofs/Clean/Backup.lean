import LocaleTidy.Proofs.Clean.Rerun

/-!
# The backup of a clean-up

The backup is copied before the catalog is saved. It is still there afterwards if it was written
neither where the catalog file is nor where the temporary file is.
-/

namespace LocaleTidy

open FileTree

variable {tree left : FileTree} {settings : Settings} {root : Path} {analysis : Analysis}

def FileTree.target? (tree : FileTree) (path : Path) : Option Location :=
  (tree.resolve .write path).toOption.map (·.location)

theorem FileTree.elsewhere_of_target?_ne {first second : Path}
    (h : tree.target? first ≠ tree.target? second) : tree.Elsewhere first second := by
  intro site hfirst hsecond
  rw [Targets] at hfirst hsecond
  apply h
  rw [target?, target?, hfirst, hsecond]

/-- The backup is written neither where the catalog file is nor where its temporary file is. -/
structure Settings.BackupApart (settings : Settings) (root : Path) (tree : FileTree) : Prop where
  file : tree.Elsewhere (settings.backupPath root) (settings.messagesPath root)
  temporary : tree.Elsewhere (settings.backupPath root)
    (Catalog.temporaryFor (settings.messagesPath root))

namespace Analysis

variable {σ : Type} {options : CleanOptions} {confirm : Confirm σ} {state state' : σ}
  {deleted : List String} {backup : Option Path} {path : Path}

/-- The text of the catalog without the unused keys, as a file holds it. -/
def remainder (analysis : Analysis) : ByteArray :=
  (analysis.catalog.eraseAll analysis.unusedKeys).2.toText.toUTF8

theorem readBytes_backup (ht : tree.WellFormed) {written : FileTree} {place site : Location}
    {bytes : ByteArray} {mode : Nat} {catalog : Catalog}
    (hfind : tree.find (settings.messagesPath root) = .ok (place, .file bytes mode))
    (hread : (Entry.file bytes mode).permits .read = true)
    (htargets : tree.Targets (settings.backupPath root) site)
    (hwritten : WrittenAt [site] tree written)
    (hcopy : written.get? site =
      some (.file (if site = place then ByteArray.empty else bytes) mode))
    (hmode : written.HasMode place mode)
    (hsave : catalog.save written (settings.messagesPath root) = (.ok (), left))
    (hapart : settings.BackupApart root tree) :
    left.readBytes (settings.backupPath root) = .ok bytes := by
  have hfile := targets_of_find ht.toRooted (isDirectory_start ht.toRooted ht.current _) hfind
  have hne : site ≠ place := by
    rintro rfl
    exact hapart.file site htargets hfile
  rw [if_neg hne] at hcopy
  have hthere := ((hwritten.targets_iff ht).mpr htargets).find hcopy
  have hkept := Catalog.save_keeps hwritten ht hfind hmode hsave hthere
    (hapart.temporary site htargets) (fun _ => hne)
  exact readBytes_eq_ok.mpr ⟨site, mode, hkept, hread⟩

/-- After a clean-up that names a backup, the backup holds what the catalog file held before if
it was written elsewhere than that file and its temporary file. Otherwise it holds the new catalog
or nothing, unless the temporary file is a link. -/
theorem backup_holds (ht : tree.WellFormed)
    (hpath : analysis.messagesPath = settings.messagesPath root)
    (hclean : analysis.clean settings root options confirm tree state =
      ⟨.ok (.applied deleted (some path)), left, state'⟩) :
    ∃ bytes, tree.readBytes (settings.messagesPath root) = .ok bytes ∧
      (settings.BackupApart root tree → left.readBytes path = .ok bytes) ∧
      (¬ settings.BackupApart root tree →
        ¬ tree.IsLink (Catalog.temporaryFor (settings.messagesPath root)) →
        ∀ held, left.readBytes path = .ok held →
          held = analysis.remainder ∨ held = ByteArray.empty) := by
  obtain ⟨written, hbackup, hsave⟩ := clean_eq_applied hclean
  rcases backUp_eq_ok hbackup with ⟨-, hnone, -⟩ | ⟨-, hnamed, hcopied⟩
  · cases hnone
  cases hnamed
  rw [hpath] at hcopied hsave
  obtain ⟨place, bytes, mode, hreadable⟩ := readable_of_copy hcopied
  obtain ⟨hfind, hread⟩ := findReadable_eq_ok.mp hreadable
  obtain ⟨site, htargets, hwritten, hcopy, hmode⟩ := copy_eq_ok ht hcopied hfind
  refine ⟨bytes, readBytes_eq_ok.mpr ⟨place, mode, hfind, hread⟩, ?_, ?_⟩
  · exact readBytes_backup ht hfind hread htargets hwritten hcopy hmode hsave
  · intro hapart hl held hheld
    have hfile := targets_of_find ht.toRooted (isDirectory_start ht.toRooted ht.current _) hfind
    obtain ⟨found, right, hfound, -⟩ := readBytes_eq_ok.mp hheld
    rcases Catalog.find_after_save hwritten ht hl hfind hmode hsave htargets hfound with
      hnew | ⟨htemporary, hold⟩
    · exact .inl hnew
    · -- The temporary file is elsewhere, and so the catalog file is not: it was copied to itself.
      have hsame : site = place := by
        apply Classical.byContradiction
        intro hne
        apply hapart
        constructor
        · intro other hother hplace
          exact hne ((htargets.unique hother).trans (hplace.unique hfile))
        · intro other hother htemp
          exact htemporary (htargets.unique hother ▸ htemp)
      rw [hold, if_pos hsame] at hcopy
      cases hcopy
      exact .inr rfl

theorem backupApart_small : smallSettings.BackupApart ⟨""⟩ (small "'home'" mixed) where
  file := elsewhere_of_target?_ne (by decide +kernel)
  temporary := elsewhere_of_target?_ne (by decide +kernel)

/-- The clean-up of the small project leaves a backup with the old catalog. -/
theorem backup_holds_small :
    ∃ analysis, analyze (small "'home'" mixed) smallSettings ⟨""⟩ = .ok analysis ∧
      (smallClean "'home'" mixed analysis).tree.readBytes (smallSettings.backupPath ⟨""⟩) =
        .ok mixed.toText.toUTF8 := by
  obtain ⟨analysis, deleted, hanalysis, -, -, hclean, -⟩ := small_applied
  obtain ⟨_, -, -, hpath, -⟩ := analyze_eq_ok hanalysis
  obtain ⟨bytes, hbytes, hkept, -⟩ := backup_holds (wellFormed_small _ _) hpath hclean
  have hheld := readBytes_eq_ok.mpr ⟨_, _, find_small, rfl⟩
  rw [hbytes] at hheld
  cases hheld
  exact ⟨analysis, hanalysis, hkept backupApart_small⟩

/-! ### A backup in the place of the temporary file -/

def suffixed (suffix : String) : Settings :=
  { smallSettings with backupSuffix := suffix }

/-- The small project with directories beside the catalog file. -/
def smallBeside (names : List String) : FileTree :=
  names.foldl (fun tree name =>
    tree.set ["locales", name] (.directory Entry.newDirectoryMode)) (small "" mixed)

def cleanAtOnce (settings : Settings) (tree : FileTree) (analysis : Analysis) : Cleaned Unit :=
  analysis.clean settings ⟨""⟩ ⟨true, false, false⟩ (fun _ state => (.ok true, state)) tree ()

/-- A backup that is where the temporary file is written is moved away with that. -/
theorem backup_lost :
    ¬ ∀ (tree left : FileTree) (settings : Settings) (root : Path) (analysis : Analysis)
        (options : CleanOptions) (confirm : Confirm Unit) (deleted : List String) (path : Path),
      tree.WellFormed → (∃ checked, settings.check = .ok checked) →
      analyze tree settings root = .ok analysis →
      analysis.clean settings root options confirm tree () =
        ⟨.ok (.applied deleted (some path)), left, ()⟩ →
      left.readBytes path = tree.readBytes (settings.messagesPath root) := by
  intro hall
  have hrun : (analyze (small "" mixed) (suffixed ".tmp") ⟨""⟩).toOption.isSome ∧
      ∀ analysis ∈ (analyze (small "" mixed) (suffixed ".tmp") ⟨""⟩).toOption,
        isApplied (cleanAtOnce (suffixed ".tmp") (small "" mixed) analysis) = true ∧
        ((cleanAtOnce (suffixed ".tmp") (small "" mixed) analysis).tree.readBytes
          ((suffixed ".tmp").backupPath ⟨""⟩)).toOption = none ∧
        ((small "" mixed).readBytes ((suffixed ".tmp").messagesPath ⟨""⟩)).toOption ≠ none := by
    decide +kernel
  obtain ⟨analysis, hmem⟩ := Option.isSome_iff_exists.mp hrun.1
  obtain ⟨happlied, hgone, hthere⟩ := hrun.2 analysis hmem
  obtain ⟨deleted, backup, hclean⟩ := eq_applied happlied
  obtain rfl := backup_of_clean hclean
  have hsame := hall _ _ (suffixed ".tmp") ⟨""⟩ analysis _ _ deleted _ (wellFormed_small _ _)
    ⟨(), rfl⟩ (eq_ok_of_mem_toOption hmem) hclean
  rw [← hsame] at hthere
  exact hthere hgone

end Analysis

end LocaleTidy
