import LocaleTidy.Proofs.Catalog.Changes
import LocaleTidy.Proofs.Clean.Backup

/-!
# What a clean-up changes

A clean-up that is applied changes a tree at three places: the catalog file is left with the used
keys, the backup has what that file held, and the temporary file is gone.
-/

namespace LocaleTidy

open FileTree

variable {tree left : FileTree} {settings : Settings} {root : Path} {analysis : Analysis}

namespace Analysis

/-! ### Used keys -/

def usedKeys (analysis : Analysis) : List String :=
  (analysis.verdicts.filter (·.isUsed)).map (·.key)

theorem verdicts_of_analyze (h : analyze tree settings root = .ok analysis) :
    ∃ corpus : Corpus, analysis.verdicts =
      analysis.catalog.keys.map (corpus.decide (.ofSettings settings)) := by
  simp only [analyze, bind_eq_ok, mapError_eq_ok] at h
  rcases h with ⟨catalog, -, filter, -, h⟩
  cases h
  exact ⟨_, Corpus.verdicts_classify _ _ _⟩

theorem usedKeys_eq (h : analyze tree settings root = .ok analysis) :
    analysis.usedKeys = analysis.catalog.keys.filter fun key => key ∉ analysis.unusedKeys := by
  obtain ⟨corpus, hverdicts⟩ := verdicts_of_analyze h
  have hunused : analysis.unusedKeys = corpus.unusedKeys (.ofSettings settings)
      analysis.catalog.keys := by
    rw [unusedKeys, hverdicts, Corpus.unusedKeys, Corpus.verdicts_classify]
  have hkey : (fun verdict => verdict.key) ∘ corpus.decide (.ofSettings settings) = id :=
    funext (corpus.key_decide _)
  rw [usedKeys, hverdicts, List.filter_map, List.map_map, hkey, List.map_id]
  apply List.filter_congr
  intro key hmem
  rw [hunused, Bool.eq_iff_iff, decide_eq_true_iff, corpus.mem_unusedKeys]
  simp [hmem]

theorem unusedKeys_subset (h : analyze tree settings root = .ok analysis) :
    ∀ key ∈ analysis.unusedKeys, key ∈ analysis.catalog.keys := by
  obtain ⟨filter, -, -, -, hunused⟩ := analyze_eq_ok h
  intro key hkey
  rw [hunused, Corpus.mem_unusedKeys] at hkey
  exact hkey.1

/-- In a catalog of plain names the used keys and their leaves are left, and what is left is read
again from its text. -/
theorem remainder_plain (h : analyze tree settings root = .ok analysis)
    (hplain : Catalog.PlainNames analysis.catalog.toJson)
    (hunmarked : Catalog.Unmarked analysis.catalog.toJson) :
    ∃ text catalog, analysis.remainder = text.toUTF8 ∧ Catalog.parse text = .ok catalog ∧
      catalog.keys = analysis.usedKeys ∧
      catalog.leaves = analysis.catalog.leaves.filter fun leaf =>
        Catalog.keyAt leaf.1 ∉ analysis.unusedKeys := by
  obtain ⟨_, _, hload, -, -⟩ := analyze_eq_ok h
  obtain ⟨text, -, -, -, hparse, -⟩ := Catalog.file_of_load hload
  have hread := Catalog.readable_of_parse hparse
  have hsubset := unusedKeys_subset h
  have htag := Catalog.untagged_eraseAll analysis.unusedKeys hread.unique hunmarked hread.untagged
  refine ⟨_, (analysis.catalog.eraseAll analysis.unusedKeys).2, rfl,
    Catalog.parse_toText (Catalog.readable_eraseAll analysis.unusedKeys hread htag), ?_, ?_⟩
  · rw [Catalog.keys_eraseAll_plain hread.unique hplain hsubset, usedKeys_eq h]
  · exact Catalog.leaves_eraseAll_plain hread.unique hplain hsubset

/-! ### The tree that is left -/

variable {σ : Type} {options : CleanOptions} {confirm : Confirm σ} {state state' : σ}
  {deleted : List String} {backup : Option Path}

/-- What a clean-up has done to a tree with the catalog file at `place`, where it held `bytes`, and
with its temporary file at `site`. -/
structure CleanedAt (settings : Settings) (root : Path) (options : CleanOptions)
    (analysis : Analysis) (tree left : FileTree) (backup : Option Path) (place site : Location)
    (bytes : ByteArray) (mode : Nat) : Prop where
  /-- The catalog file was there. -/
  found : tree.find (settings.messagesPath root) = .ok (place, .file bytes mode)
  targets : tree.Targets (Catalog.temporaryFor (settings.messagesPath root)) site
  /-- Nothing else is changed but the backup, if one is made. -/
  elsewhere : ∀ spot, spot ≠ place → spot ≠ site →
    (options.noBackup = false → ¬ tree.Targets (settings.backupPath root) spot) →
    left.get? spot = tree.get? spot
  current : left.current = tree.current
  /-- The catalog file keeps its rights and has the used keys, with the values that they had. -/
  catalog : ∃ text catalog,
    left.find (settings.messagesPath root) = .ok (place, .file text.toUTF8 mode) ∧
    Catalog.parse text = .ok catalog ∧ catalog.keys = analysis.usedKeys ∧
    catalog.leaves = analysis.catalog.leaves.filter fun leaf =>
      Catalog.keyAt leaf.1 ∉ analysis.unusedKeys
  /-- A backup that is apart has what the catalog file held. -/
  kept : options.noBackup = false → backup = some (settings.backupPath root) ∧
    (settings.BackupApart root tree → left.readBytes (settings.backupPath root) = .ok bytes)
  /-- If no backup is wanted, its path leads to what it led to. -/
  untouched : options.noBackup = true → backup = none ∧
    (settings.BackupApart root tree → ∀ spot entry,
      left.find (settings.backupPath root) = .ok (spot, entry) ↔
        tree.find (settings.backupPath root) = .ok (spot, entry))
  /-- The temporary file is gone. -/
  gone : left.get? site = none ∧
    left.isThere (Catalog.temporaryFor (settings.messagesPath root)) = false

/-- What a clean-up leaves of a catalog of plain names, if the paths of the catalog file and of its
temporary file are not those of links. -/
theorem cleanedAt_of_clean (ht : tree.WellFormed)
    (hanalysis : analyze tree settings root = .ok analysis)
    (hclean : analysis.clean settings root options confirm tree state =
      ⟨.ok (.applied deleted backup), left, state'⟩)
    (hlink : ¬ tree.IsLink (settings.messagesPath root))
    (htemporary : ¬ tree.IsLink (Catalog.temporaryFor (settings.messagesPath root)))
    (hplain : Catalog.PlainNames analysis.catalog.toJson)
    (hunmarked : Catalog.Unmarked analysis.catalog.toJson) :
    ∃ place site bytes mode,
      CleanedAt settings root options analysis tree left backup place site bytes mode := by
  obtain ⟨_, _, hload, hpath, -⟩ := analyze_eq_ok hanalysis
  obtain ⟨_, place, bytes, mode, -, hfind, hread⟩ := Catalog.file_of_load hload
  obtain ⟨written, hbackup, hsave⟩ := clean_eq_applied hclean
  rw [hpath] at hsave
  obtain ⟨text, catalog, hremainder, hcatalog⟩ := remainder_plain hanalysis hplain hunmarked
  rw [remainder] at hremainder
  rcases backUp_cases ht (hpath ▸ hfind) hbackup with
    ⟨hnone, hnamed, rfl⟩ | ⟨hwanted, hnamed, kept, hkept, hwritten, hcopy, hmode⟩
  · obtain ⟨site, htargets, -, hleft, hfound, hsite, hgone, hother⟩ :=
      Catalog.save_in_place (.start ht) ht htemporary hlink hfind ⟨bytes, get?_of_find hfind⟩ hsave
    have hfile := targets_of_find ht.toRooted (isDirectory_start ht.toRooted ht.current _) hfind
    refine ⟨place, site, bytes, mode, hfind, htargets,
      fun spot hspot hne _ => hother spot hspot hne, hleft.agree.current,
      ⟨text, catalog, hremainder ▸ hfound, hcatalog⟩, by simp [hnone], ?_, hsite, hgone⟩
    intro _
    refine ⟨hnamed, fun hapart spot entry => hleft.find_iff ht ?_⟩
    simp only [List.forall_mem_cons, List.not_mem_nil, false_implies, implies_true, and_true]
    exact ⟨fun h => hapart.file _ h hfile, fun h => hapart.temporary _ h htargets⟩
  · obtain ⟨site, htargets, -, hleft, hfound, hsite, hgone, hother⟩ :=
      Catalog.save_in_place hwritten ht htemporary hlink hfind hmode hsave
    refine ⟨place, site, bytes, mode, hfind, htargets, ?_, hleft.agree.current,
      ⟨text, catalog, hremainder ▸ hfound, hcatalog⟩, ?_, by simp [hwanted], hsite, hgone⟩
    · intro spot hspot hne hout
      have hfree : spot ≠ kept := by
        rintro rfl
        exact hout hwanted hkept
      rw [hother spot hspot hne, hwritten.agree.get? (by simpa using hfree)]
    · intro _
      exact ⟨hnamed, readBytes_backup ht hfind hread hkept hwritten hcopy hmode hsave⟩

theorem plainNames_mixed : Catalog.PlainNames mixed.toJson := by
  simp [mixed, Catalog.toJson, Catalog.PlainNames, Catalog.PlainMembers, Catalog.IsPlain]

theorem unmarked_mixed : Catalog.Unmarked mixed.toJson := by
  simp [mixed, Catalog.toJson, Catalog.Unmarked, Catalog.UnmarkedMembers, Json.numberTag]

/-- What the clean-up of the small project leaves. -/
theorem cleanedAt_small :
    ∃ analysis place site bytes mode,
      analyze (small "'home'" mixed) smallSettings ⟨""⟩ = .ok analysis ∧
      CleanedAt smallSettings ⟨""⟩ ⟨true, false, false⟩ analysis (small "'home'" mixed)
        (smallClean "'home'" mixed analysis).tree (some (smallSettings.backupPath ⟨""⟩))
        place site bytes mode := by
  obtain ⟨analysis, deleted, hanalysis, hmixed, -, hclean, -⟩ := small_applied
  obtain ⟨place, site, bytes, mode, hcleaned⟩ := cleanedAt_of_clean (wellFormed_small _ _) hanalysis
    hclean (not_isLink_small _ _ _) (not_isLink_small _ _ _) (hmixed ▸ plainNames_mixed)
    (hmixed ▸ unmarked_mixed)
  exact ⟨analysis, place, site, bytes, mode, hanalysis, hcleaned⟩

/-! ### Two paths of one file -/

/-- The backup is not kept although its path is another one than that of the temporary file and no
link is there: it leads to the place of that file through a directory and up again. -/
theorem backup_not_kept_through_directory :
    ¬ ∀ (tree left : FileTree) (settings : Settings) (root : Path) (analysis : Analysis)
        (options : CleanOptions) (confirm : Confirm Unit) (deleted : List String)
        (backup : Option Path),
      tree.WellFormed → (∃ checked, settings.check = .ok checked) →
      analyze tree settings root = .ok analysis →
      analysis.clean settings root options confirm tree () =
        ⟨.ok (.applied deleted backup), left, ()⟩ →
      (settings.backupPath root).components ≠
        (Catalog.temporaryFor (settings.messagesPath root)).components →
      (∀ path ∈ settings.changedPaths root, ¬ tree.IsLink path) →
      Catalog.PlainNames analysis.catalog.toJson → Catalog.Unmarked analysis.catalog.toJson →
      options.noBackup = false →
      left.readBytes (settings.backupPath root) = tree.readBytes (settings.messagesPath root) := by
  intro hall
  have hrun : (smallBeside ["zh.json.d"]).WellFormed ∧
      (smallBeside ["zh.json.d"]).place? ((suffixed ".d/../zh.json.tmp").messagesPath ⟨""⟩) =
        some ["locales", "zh.json"] ∧
      ((suffixed ".d/../zh.json.tmp").backupPath ⟨""⟩).components ≠
        (Catalog.temporaryFor ((suffixed ".d/../zh.json.tmp").messagesPath ⟨""⟩)).components ∧
      (analyze (smallBeside ["zh.json.d"]) (suffixed ".d/../zh.json.tmp") ⟨""⟩).toOption.isSome ∧
      ∀ analysis ∈ (analyze (smallBeside ["zh.json.d"]) (suffixed ".d/../zh.json.tmp")
          ⟨""⟩).toOption,
        isApplied (cleanAtOnce (suffixed ".d/../zh.json.tmp") (smallBeside ["zh.json.d"])
          analysis) = true ∧
        ((cleanAtOnce (suffixed ".d/../zh.json.tmp") (smallBeside ["zh.json.d"])
          analysis).tree.readBytes ((suffixed ".d/../zh.json.tmp").backupPath ⟨""⟩)).toOption =
            none ∧
        ((smallBeside ["zh.json.d"]).readBytes
          ((suffixed ".d/../zh.json.tmp").messagesPath ⟨""⟩)).toOption ≠ none := by
    decide +kernel
  obtain ⟨hwell, hplace, hdiffer, hsome, hcleaned⟩ := hrun
  obtain ⟨analysis, hmem⟩ := Option.isSome_iff_exists.mp hsome
  have hanalysis := eq_ok_of_mem_toOption hmem
  obtain ⟨happlied, hgone, hthere⟩ := hcleaned analysis hmem
  obtain ⟨deleted, backup, hclean⟩ := eq_applied happlied
  have hmixed := catalog_eq_mixed (find_of_place? hplace rfl) hanalysis
  have hsame := hall _ _ (suffixed ".d/../zh.json.tmp") ⟨""⟩ analysis _ _ deleted backup hwell
    ⟨(), rfl⟩ hanalysis hclean hdiffer
    (fun _ _ => not_isLink (by simp [smallBeside, small, FileTree.set, setIn]))
    (hmixed ▸ plainNames_mixed) (hmixed ▸ unmarked_mixed) rfl
  rw [← hsame] at hthere
  exact hthere hgone

end Analysis

end LocaleTidy
