import LocaleTidy.Proofs.Clean.Convergence
import LocaleTidy.Proofs.Clean.Steps
import LocaleTidy.Proofs.Corpus.Unchanged

/-!
# An analysis after a clean-up

A clean-up that is applied changes files that the scan does not load, and so the next analysis
finds the same source files and, in the same place, the catalog that the clean-up left.
-/

namespace LocaleTidy

open FileTree

variable {tree left : FileTree} {settings : Settings} {root : Path} {filter : SourceFilter}
  {analysis : Analysis}

/-! ### Files that are not scanned -/

/-- The scan loads no file that a path leads to before or after a change, neither before it nor
after it. -/
def Corpus.Unscanned (roots : List Path) (filter : SourceFilter) (tree other : FileTree)
    (path : Path) : Prop :=
  ∀ place entry, tree.find path = .ok (place, entry) ∨ other.find path = .ok (place, entry) →
    ¬ Scans tree roots filter place ∧ ¬ Scans other roots filter place

namespace Corpus

variable {other : FileTree} {places : List Location} {roots : List Path} {path : Path}
  {place : Location}

theorem file_of_scans (hdistinct : (tree.entries.map (·.1)).Nodup)
    (h : Scans tree roots filter place) :
    ∃ bytes mode, tree.get? place = some (.file bytes mode) := by
  rcases h with ⟨_, _, _, ⟨_, _, _, bytes, mode, _, _, _, hmem, _⟩, _⟩
  exact ⟨bytes, mode, get?_of_mem hdistinct hmem⟩

/-- A file that is written where a path leads to is not scanned if no file is that the path leads
to. -/
theorem Unscanned.of_targets (hu : Unscanned roots filter tree other path)
    (hc : ChangedAt places tree other) (htargets : tree.Targets path place)
    (hplain : FileTree.IsPlain (tree.get? place)) :
    ¬ Scans tree roots filter place ∧ ¬ Scans other roots filter place := by
  cases hentry : tree.get? place with
  | some entry =>
      cases entry with
      | file bytes mode => exact hu place _ (.inl (htargets.find hentry))
      | directory mode =>
          rw [hentry] at hplain
          exact hplain.elim
      | link target =>
          rw [hentry] at hplain
          exact hplain.elim
  | none =>
      constructor
      · intro hscans
        obtain ⟨bytes, mode, hfile⟩ := file_of_scans hc.distinct hscans
        rw [hentry] at hfile
        cases hfile
      · intro hscans
        obtain ⟨bytes, mode, hfile⟩ := file_of_scans hc.distinctAfter hscans
        exact (hu place _ (.inr (htargets.find_new hc hentry hfile))).2 hscans

theorem passes_of_not_scans (h : ∀ place ∈ places, ¬ Scans tree roots filter place) {root : Path}
    (hroot : root ∈ roots) : Passes tree filter places root := by
  intro place hmem path hcomes
  apply Classical.byContradiction
  intro hjudge
  exact h place hmem ⟨root, hroot, path, hcomes, Option.isSome_iff_ne_none.mpr hjudge⟩

/-- No path leads below a root, in none of some trees. -/
def Apart (trees : List FileTree) (roots paths : List Path) : Prop :=
  ∀ first ∈ trees, ∀ second ∈ trees, ∀ root ∈ roots, ∀ path ∈ paths,
    ∀ start ∈ first.place? root, ∀ place ∈ second.place? path, ¬ start <+: place

instance (trees : List FileTree) (roots paths : List Path) :
    Decidable (Apart trees roots paths) :=
  inferInstanceAs (Decidable (∀ first ∈ trees, ∀ second ∈ trees, ∀ root ∈ roots, ∀ path ∈ paths,
    ∀ start ∈ first.place? root, ∀ place ∈ second.place? path, ¬ start <+: place))

theorem Apart.unscanned {paths : List Path} (h : Apart [tree, other] roots paths)
    (hpath : path ∈ paths) : Unscanned roots filter tree other path := by
  have hscans : ∀ first ∈ [tree, other], ∀ second ∈ [tree, other], ∀ place entry,
      second.find path = .ok (place, entry) → ¬ Scans first roots filter place := by
    rintro first hfirst second hsecond place entry hfind
      ⟨root, hroot, _, ⟨start, _, names, _, _, hstart, rfl, -⟩, -⟩
    exact h first hfirst second hsecond root hroot path hpath start (mem_place? hstart) _
      (mem_place? hfind) (List.prefix_append _ _)
  intro place entry hfind
  rcases hfind with hfind | hfind
  · exact ⟨hscans _ (by simp) _ (by simp) _ _ hfind, hscans _ (by simp) _ (by simp) _ _ hfind⟩
  · exact ⟨hscans _ (by simp) _ (by simp) _ _ hfind, hscans _ (by simp) _ (by simp) _ _ hfind⟩

end Corpus

/-! ### What a clean-up leaves -/

def Settings.changedPaths (settings : Settings) (root : Path) : List Path :=
  [settings.messagesPath root, settings.backupPath root,
    Catalog.temporaryFor (settings.messagesPath root)]

namespace Analysis

variable {σ : Type} {options : CleanOptions} {confirm : Confirm σ} {state state' : σ}
  {deleted : List String} {backup : Option Path}

/-- A clean-up has come to its end: no key is unused any more, the keys that were are gone, and
another clean-up does nothing. -/
structure Settled (settings : Settings) (root : Path) (left : FileTree)
    (before again : Analysis) : Prop where
  noneUnused : again.unusedKeys = []
  gone : ∀ key ∈ before.unusedKeys, key ∉ again.catalog.keys
  nothingToClean : ∀ {σ : Type} (options : CleanOptions) (confirm : Confirm σ) (state : σ),
    again.clean settings root options confirm left state = ⟨.ok .nothingToClean, left, state⟩

theorem settled_of_unusedKeys {again : Analysis} {corpus : Corpus} {options : UsageOptions}
    (hbefore : analysis.unusedKeys = corpus.unusedKeys options analysis.catalog.keys)
    (hagain : again.unusedKeys = corpus.unusedKeys options again.catalog.keys)
    (h : again.unusedKeys = []) : Settled settings root left analysis again where
  noneUnused := h
  gone := by
    intro key hkey hleft
    rw [hbefore, corpus.mem_unusedKeys] at hkey
    have hmem := (corpus.mem_unusedKeys options again.catalog.keys).mpr ⟨hleft, hkey.2⟩
    rw [← hagain, h] at hmem
    cases hmem
  nothingToClean := by
    intro σ options confirm state
    rw [clean, h]
    rfl

/-- A clean-up changes the tree at places that the scan passes over, and the catalog that it has
left is loaded again. -/
theorem changedAt_of_clean (ht : tree.WellFormed)
    (hload : Catalog.load tree (settings.messagesPath root) = .ok analysis.catalog)
    (hpath : analysis.messagesPath = settings.messagesPath root)
    (hclean : analysis.clean settings root options confirm tree state =
      ⟨.ok (.applied deleted backup), left, state'⟩)
    (hunscanned : ∀ path ∈ settings.changedPaths root,
      Corpus.Unscanned (settings.sourcePaths root) filter tree left path)
    (hl : ¬ tree.IsLink (Catalog.temporaryFor (settings.messagesPath root)))
    (htag : (analysis.catalog.eraseAll analysis.unusedKeys).2.toJson.Untagged) :
    (∃ places, ChangedAt places tree left ∧ ∀ place ∈ places,
      ¬ Corpus.Scans tree (settings.sourcePaths root) filter place ∧
        ¬ Corpus.Scans left (settings.sourcePaths root) filter place) ∧
    Catalog.load left (settings.messagesPath root) =
      .ok (analysis.catalog.eraseAll analysis.unusedKeys).2 := by
  obtain ⟨text, place, bytes, mode, hparse, hfind, hmode⟩ := Catalog.file_of_load hload
  obtain ⟨written, hbackup, hsave⟩ := clean_eq_applied hclean
  obtain ⟨places, hwritten, hkept, hbackups⟩ := writtenAt_of_backUp ht (hpath ▸ hfind) hbackup
  rw [hpath] at hsave
  obtain ⟨goal, site, htemporary, hplain, hchanged, hfound⟩ :=
    Catalog.save_eq_ok hwritten ht hl hfind hkept hsave
  have hread :=
    Catalog.readable_eraseAll analysis.unusedKeys (Catalog.readable_of_parse hparse) htag
  refine ⟨⟨_, hchanged, ?_⟩, Catalog.load_eq_ok hread hfound hmode⟩
  intro place hmem
  rcases List.mem_cons.mp hmem with rfl | hmem
  · exact hunscanned _ (by simp [Settings.changedPaths]) place _ (.inr hfound)
  rcases List.mem_cons.mp hmem with rfl | hmem
  · exact (hunscanned _ (by simp [Settings.changedPaths])).of_targets hchanged htemporary hplain
  · exact (hunscanned _ (by simp [Settings.changedPaths])).of_targets hchanged
      (hbackups place hmem) (hwritten.plain place hmem)

/-- After a clean-up that is applied, another analysis finds the same source files. The clean-up
has come to its end if and only if every leaf with an unused key was on the path of one; in a
catalog of plain names it always has. -/
theorem settled_iff_addressed (ht : tree.WellFormed)
    (hanalysis : analyze tree settings root = .ok analysis)
    (hclean : analysis.clean settings root options confirm tree state =
      ⟨.ok (.applied deleted backup), left, state'⟩)
    (hunscanned : ∀ filter, SourceFilter.ofSettings settings root = .ok filter →
      ∀ path ∈ settings.changedPaths root,
        Corpus.Unscanned (settings.sourcePaths root) filter tree left path)
    (hl : ¬ tree.IsLink (Catalog.temporaryFor (settings.messagesPath root)))
    (htag : (analysis.catalog.eraseAll analysis.unusedKeys).2.toJson.Untagged) :
    ∃ again, analyze left settings root = .ok again ∧
      (Settled settings root left analysis again ↔
        analysis.catalog.Addressed analysis.unusedKeys) ∧
      (Catalog.PlainNames analysis.catalog.toJson →
        Settled settings root left analysis again) := by
  obtain ⟨filter, hfilter, hload, hpath, hunused⟩ := analyze_eq_ok hanalysis
  obtain ⟨⟨places, hchanged, hscans⟩, hloadLeft⟩ :=
    changedAt_of_clean ht hload hpath hclean (hunscanned filter hfilter) hl htag
  obtain ⟨again, hagain, hcatalog⟩ := exists_analyze hfilter hloadLeft
  obtain ⟨filter', hfilter', -, -, hunusedAgain⟩ := analyze_eq_ok hagain
  rw [hfilter] at hfilter'
  cases hfilter'
  have hfiles := Corpus.files_load_eq hchanged ht
    (fun _ => Corpus.passes_of_not_scans fun place hmem => (hscans place hmem).1)
    (fun _ => Corpus.passes_of_not_scans fun place hmem => (hscans place hmem).2)
  rw [Corpus.unusedKeys_congr _ _ hfiles] at hunusedAgain
  obtain ⟨text, _, _, _, hparse, -⟩ := Catalog.file_of_load hload
  have hiff := Catalog.unusedKeys_eraseAll_eq_nil_iff
    (Corpus.load tree (settings.sourcePaths root) filter) (.ofSettings settings)
    (Catalog.readable_of_parse hparse).unique
  rw [← hunused, ← hcatalog, ← hunusedAgain] at hiff
  have hsettled : again.unusedKeys = [] → Settled settings root left analysis again :=
    settled_of_unusedKeys hunused hunusedAgain
  refine ⟨again, hagain, ⟨fun h => hiff.mp h.noneUnused, fun h => hsettled (hiff.mpr h)⟩, ?_⟩
  intro hplain
  exact hsettled (hiff.mpr (Catalog.addressed_of_plainNames hplain _))

/-! ### A small project -/

/-- A project of one source file and a catalog. -/
def small (source : String) (catalog : Catalog) : FileTree where
  entries :=
    [(["src"], .directory Entry.newDirectoryMode),
      (["src", "app.ts"], .file source.toUTF8 Entry.newFileMode),
      (["locales"], .directory Entry.newDirectoryMode),
      (["locales", "zh.json"], .file catalog.toText.toUTF8 Entry.newFileMode)]
  current := []

def smallSettings : Settings :=
  { Settings.default with
    messagesFile := "locales/zh.json"
    extensions := ["ts"]
    namespaceFunctions := []
    errorNamespaces := []
    bareLeafFallback := false }

def smallClean (source : String) (catalog : Catalog) (analysis : Analysis) : Cleaned Unit :=
  analysis.clean smallSettings ⟨""⟩ ⟨true, false, false⟩ (fun _ state => (.ok true, state))
    (small source catalog) ()

def isApplied (cleaned : Cleaned Unit) : Bool :=
  match cleaned.outcome with
  | .ok (.applied _ _) => true
  | _ => false

theorem eq_applied {cleaned : Cleaned Unit} (h : isApplied cleaned = true) :
    ∃ deleted backup, cleaned = ⟨.ok (.applied deleted backup), cleaned.tree, ()⟩ := by
  rcases cleaned with ⟨outcome, tree, state⟩
  rcases outcome with _ | _ | _ | _ | _ | ⟨deleted, backup⟩
  · cases h
  · cases h
  · cases h
  · cases h
  · cases h
  · exact ⟨deleted, backup, rfl⟩

theorem wellFormed_small (source : String) (catalog : Catalog) :
    (small source catalog).WellFormed := by
  have hroot : (small source catalog).IsDirectory [] := ⟨_, rfl⟩
  refine ⟨⟨hroot, parents_of_entries hroot ?_⟩, by simp [small], ?_, hroot⟩
  · intro item hitem
    simp only [small, List.mem_cons, List.not_mem_nil, or_false] at hitem
    rcases hitem with rfl | rfl | rfl | rfl
    · exact hroot
    · exact ⟨_, rfl⟩
    · exact hroot
    · exact ⟨_, rfl⟩
  · intro item hitem name hname
    have hsub : item.1 ⊆ ["src", "app.ts", "locales", "zh.json"] := by
      simp only [small, List.mem_cons, List.not_mem_nil, or_false] at hitem
      rcases hitem with rfl | rfl | rfl | rfl <;> simp
    have hmem := hsub hname
    simp only [List.mem_cons, List.not_mem_nil, or_false] at hmem
    rcases hmem with rfl | rfl | rfl | rfl <;> constructor <;> decide

theorem not_isLink_small (source : String) (catalog : Catalog) (path : Path) :
    ¬ (small source catalog).IsLink path :=
  not_isLink (by simp [small])

def mixed : Catalog := ⟨[("home", .string "x"), ("old", .string "y")]⟩

theorem readable_mixed : Json.Readable Json.maxDepth mixed.toJson := by
  constructor <;> simp [mixed, Catalog.toJson, Json.maxDepth, Json.UniqueNames,
    Json.UniqueInMembers, Json.Writable, Json.WritableMembers, Json.Untagged,
    Json.UntaggedMembers, Json.numberTag]

theorem find_small :
    (small "'home'" mixed).find (smallSettings.messagesPath ⟨""⟩) =
      .ok (["locales", "zh.json"], .file mixed.toText.toUTF8 Entry.newFileMode) :=
  find_of_place? (by decide +kernel) rfl

theorem catalog_eq_mixed {tree : FileTree} {settings : Settings} {root : Path} {place : Location}
    (hfind : tree.find (settings.messagesPath root) =
      .ok (place, .file mixed.toText.toUTF8 Entry.newFileMode))
    (h : analyze tree settings root = .ok analysis) : analysis.catalog = mixed := by
  obtain ⟨_, -, hload, -⟩ := analyze_eq_ok h
  have hmixed := (Catalog.load_eq_ok readable_mixed hfind rfl).symm.trans hload
  exact (Except.ok.inj hmixed).symm

theorem small_applied :
    ∃ analysis deleted, analyze (small "'home'" mixed) smallSettings ⟨""⟩ = .ok analysis ∧
      analysis.catalog = mixed ∧ analysis.unusedKeys = ["old"] ∧
      smallClean "'home'" mixed analysis =
        ⟨.ok (.applied deleted (some (smallSettings.backupPath ⟨""⟩))),
          (smallClean "'home'" mixed analysis).tree, ()⟩ ∧
      Corpus.Apart [small "'home'" mixed, (smallClean "'home'" mixed analysis).tree]
        (smallSettings.sourcePaths ⟨""⟩) (smallSettings.changedPaths ⟨""⟩) := by
  have hrun : (analyze (small "'home'" mixed) smallSettings ⟨""⟩).toOption.isSome ∧
      ∀ analysis ∈ (analyze (small "'home'" mixed) smallSettings ⟨""⟩).toOption,
        analysis.unusedKeys = ["old"] ∧ isApplied (smallClean "'home'" mixed analysis) = true ∧
        Corpus.Apart [small "'home'" mixed, (smallClean "'home'" mixed analysis).tree]
          (smallSettings.sourcePaths ⟨""⟩) (smallSettings.changedPaths ⟨""⟩) := by
    decide +kernel
  obtain ⟨analysis, hmem⟩ := Option.isSome_iff_exists.mp hrun.1
  have hanalysis := eq_ok_of_mem_toOption hmem
  obtain ⟨hunused, happlied, hapart⟩ := hrun.2 analysis hmem
  obtain ⟨deleted, backup, hclean⟩ := eq_applied happlied
  obtain rfl := backup_of_clean hclean
  exact ⟨analysis, deleted, hanalysis, catalog_eq_mixed find_small hanalysis, hunused, hclean,
    hapart⟩

/-- The unused key of the small project goes, and the used one stays. -/
theorem settled_small :
    ∃ analysis again, analyze (small "'home'" mixed) smallSettings ⟨""⟩ = .ok analysis ∧
      analysis.unusedKeys = ["old"] ∧
      analyze (smallClean "'home'" mixed analysis).tree smallSettings ⟨""⟩ = .ok again ∧
      Settled smallSettings ⟨""⟩ (smallClean "'home'" mixed analysis).tree analysis again := by
  obtain ⟨analysis, deleted, hanalysis, hmixed, hunused, hclean, hapart⟩ := small_applied
  have hleft : (mixed.eraseAll ["old"]).2 = ⟨[("home", .string "x")]⟩ := rfl
  obtain ⟨again, hagain, -, hplain⟩ :=
    settled_iff_addressed (wellFormed_small _ _) hanalysis hclean
      (fun _ _ _ => hapart.unscanned) (not_isLink_small _ _ _) (by
        rw [hmixed, hunused, hleft]
        simp [Catalog.toJson, Json.Untagged, Json.UntaggedMembers, Json.numberTag])
  refine ⟨analysis, again, hanalysis, hunused, hagain, hplain ?_⟩
  rw [hmixed]
  simp [mixed, Catalog.toJson, Catalog.PlainNames, Catalog.PlainMembers, Catalog.IsPlain]

/-- The unused key of a leaf that its segments do not lead to is there again after a clean-up. -/
theorem unused_key_stays :
    ¬ ∀ (tree left : FileTree) (settings : Settings) (root : Path) (analysis : Analysis)
        (options : CleanOptions) (confirm : Confirm Unit) (deleted : List String)
        (backup : Option Path), tree.WellFormed → (∃ checked, settings.check = .ok checked) →
      analyze tree settings root = .ok analysis →
      analysis.clean settings root options confirm tree () =
        ⟨.ok (.applied deleted backup), left, ()⟩ →
      (∀ filter, SourceFilter.ofSettings settings root = .ok filter →
        ∀ path ∈ settings.changedPaths root,
          Corpus.Unscanned (settings.sourcePaths root) filter tree left path) →
      ¬ tree.IsLink (Catalog.temporaryFor (settings.messagesPath root)) →
      ∃ again, analyze left settings root = .ok again ∧ again.unusedKeys = [] := by
  intro hall
  have hrun : (analyze (small "" ⟨[("a.b", .string "x")]⟩) smallSettings ⟨""⟩).toOption.isSome ∧
      ∀ analysis ∈ (analyze (small "" ⟨[("a.b", .string "x")]⟩) smallSettings ⟨""⟩).toOption,
      isApplied (smallClean "" ⟨[("a.b", .string "x")]⟩ analysis) = true ∧
      Corpus.Apart [small "" ⟨[("a.b", .string "x")]⟩,
          (smallClean "" ⟨[("a.b", .string "x")]⟩ analysis).tree]
        (smallSettings.sourcePaths ⟨""⟩) (smallSettings.changedPaths ⟨""⟩) ∧
      ∀ again ∈ (analyze (smallClean "" ⟨[("a.b", .string "x")]⟩ analysis).tree smallSettings
        ⟨""⟩).toOption, again.unusedKeys ≠ [] := by
    decide +kernel
  obtain ⟨analysis, hmem⟩ := Option.isSome_iff_exists.mp hrun.1
  obtain ⟨happlied, hapart, hagain⟩ := hrun.2 analysis hmem
  obtain ⟨deleted, backup, hclean⟩ := eq_applied happlied
  obtain ⟨again, hok, hnone⟩ := hall _ _ smallSettings ⟨""⟩ analysis _ _ deleted backup
    (wellFormed_small _ _) ⟨(), rfl⟩ (eq_ok_of_mem_toOption hmem) hclean
    (fun _ _ _ => hapart.unscanned) (not_isLink_small _ _ _)
  exact hagain again (by simp [hok, Except.toOption]) hnone

end Analysis

end LocaleTidy
