import LocaleTidy.Proofs.Analysis.WrittenOut
import LocaleTidy.Proofs.Corpus.Overlap
import LocaleTidy.Proofs.FileTree.Descent
import LocaleTidy.Proofs.Usage.Exclusion

/-!
# The directory of the catalog file

If no excluded directory is set, directories are excluded that have the name of the one which holds
the catalog file. So a source file in that one is excluded by the steps of its path, unless a link
leads there under another name.
-/

namespace LocaleTidy

open FileTree
open LocaleTidy.Path (Component IsInner components_of_relative fileName?_parent? stepNames)

variable {tree : FileTree} {settings : Settings} {root : Path} {filter : SourceFilter}
  {analysis : Analysis} {front more names : List String} {name last : String} {file : SourceFile}

/-! ## The name of the directory -/

theorem exists_append_pair (h : 1 < names.length) :
    ∃ front name last, names = front ++ [name, last] := by
  obtain ⟨before, last, rfl⟩ := (List.eq_nil_or_concat names).resolve_left
    (by rintro rfl; simp at h)
  obtain ⟨front, name, rfl⟩ := (List.eq_nil_or_concat before).resolve_left
    (by rintro rfl; simp at h)
  exact ⟨front, name, last, by simp⟩

theorem Settings.excludedName_of_steps (hname : settings.excludeDir = none)
    (hinner : Path.IsInner settings.messagesFile)
    (hsteps : stepNames settings.messagesFile = front ++ [name, last]) :
    settings.excludedName = some name := by
  have hparent : settings.excludedName =
      (Path.mk settings.messagesFile).parent?.bind (·.fileName?) := by
    rw [excludedName, hname]
    rfl
  have hlast : ∀ before : List Component,
      (before ++ (front ++ [name, last]).map Component.name).dropLast.getLast? =
        some (.name name) := by
    intro before
    rw [List.map_append, ← List.append_assoc, List.map_cons, List.map_singleton,
      List.append_cons, List.dropLast_concat, List.getLast?_concat]
  rw [hparent, fileName?_parent?]
  rcases components_of_relative hinner.relative with hcomponents | hcomponents <;>
    rw [hcomponents, hinner.filterMap_stepOf?, hsteps]
  · rw [← List.nil_append (List.map _ _), hlast]
  · rw [← List.singleton_append, hlast]

theorem SourceFilter.ofSettings_eq_ok (h : ofSettings settings root = .ok filter) :
    filter.base = some root ∧ filter.excludedName = settings.excludedName := by
  rw [ofSettings, make, bind_eq_ok] at h
  obtain ⟨lists, -, h⟩ := h
  obtain rfl := pure_eq_ok.mp h
  exact ⟨rfl, rfl⟩

/-! ## Source files in it -/

/-- The place of the directory that holds the catalog file, also where this is a link. -/
def Settings.storage? (settings : Settings) (tree : FileTree) (root : Path) : Option Location :=
  (tree.resolve .handle (settings.messagesPath root)).toOption.map (·.location.dropLast)

namespace Corpus

/-- A file is excluded if its path leads from the project through the directory of the catalog. -/
theorem excluded_of_steps (ht : tree.WellFormed) (hname : settings.excludeDir = none)
    (hinner : IsInner settings.messagesFile)
    (hsteps : stepNames settings.messagesFile = front ++ [name, last])
    (hfilter : SourceFilter.ofSettings settings root = .ok filter)
    (hfile : file ∈ (load tree (settings.sourcePaths root) filter).files) (hmore : more ≠ [])
    (hpath : file.path.components =
      root.components ++ (front ++ [name] ++ more).map Component.name) :
    file.excluded = true := by
  obtain ⟨hbase, hexcluded⟩ := SourceFilter.ofSettings_eq_ok hfilter
  obtain ⟨_, source, _, _, hcandidate, -⟩ := (mem_paths_iff ht).mp (mem_files_load.mp hfile).1
  refine (excluded_of_base hcandidate hbase (hpath ▸ List.prefix_append _ _)).mpr
    ⟨name, hexcluded.trans (Settings.excludedName_of_steps hname hinner hsteps), ?_⟩
  rw [hpath, List.drop_left, List.map_append, List.dropLast_append_of_ne_nil (by simpa using hmore)]
  simp

/-- A source file lies in the directory that holds the catalog file, or below it, and the walk from
a source root comes upon it whose text leads downwards. -/
structure TakenFromStorage (tree : FileTree) (settings : Settings) (root : Path) (text : String)
    (file : SourceFile) : Prop where
  source : text ∈ settings.sourceRoots
  inner : IsInner text
  listed : file.path ∈ (tree.listing (root.join text)).files
  stored : ∃ home ∈ settings.storage? tree root, ∃ place ∈ tree.place? file.path, home <+: place

/-- The path of such a file leads through the directory, unless a link takes its place. -/
theorem TakenFromStorage.exists_components {here : Location} {text : String} {mode : Nat}
    (h : TakenFromStorage tree settings root text file) (ht : tree.WellFormed)
    (hinner : IsInner settings.messagesFile) (hsome : stepNames settings.messagesFile ≠ [])
    (hroot : tree.find root = .ok (here, .directory mode)) {goal : Location} {bytes : ByteArray}
    {bits : Nat} (hcatalog : tree.find (settings.messagesPath root) = .ok (goal, .file bytes bits))
    (hmessages : tree.FreeOfLinks here (stepNames settings.messagesFile).dropLast)
    (hfree : tree.FreeOfLinks here (stepNames text))
    (hread : tree.readText file.path = .ok file.content) :
    ∃ more ≠ [], file.path.components = root.components ++
      ((stepNames settings.messagesFile).dropLast ++ more).map Component.name := by
  obtain ⟨held, rights, hreaches⟩ := reaches_of_mem_listing ht h.listed
  obtain ⟨home, hhome, place, hplace, hbelow⟩ := h.stored
  obtain ⟨spot, hspot, rfl⟩ := Option.map_eq_some_iff.mp hhome
  obtain ⟨site, content, free, hfind, -⟩ := readText_eq_ok.mp hread
  obtain rfl : site = place := Option.some.inj ((mem_place? hfind).symm.trans hplace)
  have hresolve := eq_ok_of_mem_toOption hspot
  obtain ⟨rights, hdirectory⟩ := isDirectory_of_walkWithin ht.toRooted
    (isDirectory_start ht.toRooted ht.current _) (resolve_eq_ok.mp hresolve).2
  obtain ⟨names, hnames, rfl⟩ := hreaches.exists_place ht h.inner hroot hfree hfind
  rw [location_of_resolve_handle ht hinner hroot hmessages hcatalog hresolve,
    List.dropLast_append_of_ne_nil hsome] at hbelow hdirectory
  obtain ⟨more, rfl⟩ := (List.prefix_append_right_inj here).mp hbelow
  refine ⟨more, ?_, hnames⟩
  -- the file does not stand where the directory does
  rintro rfl
  rw [List.append_nil] at hfind
  cases hdirectory.symm.trans (get?_of_find hfind)

end Corpus

/-! ## Verdicts -/

/-- No verdict names an excluded file but for a namespace. -/
theorem Analysis.inNamespace_of_excluded (h : analyze tree settings root = .ok analysis)
    (hfilter : SourceFilter.ofSettings settings root = .ok filter)
    (hfile : file ∈ (Corpus.load tree (settings.sourcePaths root) filter).files)
    (hexcluded : file.excluded = true) :
    ∀ verdict ∈ analysis.verdicts, ∀ evidence ∈ verdict.evidence, evidence.file = file.path →
      ∃ space, evidence.strategy = .inNamespace space := by
  obtain ⟨catalog, again, -, hagain, rfl⟩ := analyze_eq_ok_iff.mp h
  obtain rfl := Except.ok.inj (hfilter.symm.trans hagain)
  intro verdict hverdict evidence hevidence hpath
  rw [verdicts_ofParts] at hverdict
  obtain ⟨key, -, rfl⟩ := List.mem_map.mp hverdict
  by_contra hspace
  obtain ⟨other, hother, hcounts, hsame⟩ := Corpus.exists_file_of_evidence hevidence
    fun space hstrategy => hspace ⟨space, hstrategy⟩
  have hitem : (file.path, file.excluded) = (other.path, other.excluded) :=
    Corpus.inOrder_unique (Corpus.mem_files_load.mp hother).1 (Corpus.mem_files_load.mp hfile).1
      (by rw [hsame, hpath])
  rw [(Prod.mk.inj hitem).2, hcounts] at hexcluded
  cases hexcluded

namespace Analysis

open Corpus

/-- If no excluded directory is set and the catalog file is named downwards, in some directory, then
each source file that is loaded from this directory or from below it is excluded, and no verdict
names it but for a namespace. This needs that no link is on the way from the project to the
directory and to the source root. -/
theorem excluded_of_takenFromStorage (ht : tree.WellFormed) (hroot : root.isAbsolute = true)
    (hname : settings.excludeDir = none) (hinner : IsInner settings.messagesFile)
    (hdeep : 1 < (stepNames settings.messagesFile).length)
    (h : analyze tree settings root = .ok analysis) :
    ∃ here filter, tree.place? root = some here ∧
      SourceFilter.ofSettings settings root = .ok filter ∧
      (tree.FreeOfLinks here (stepNames settings.messagesFile).dropLast →
        ∀ file ∈ (load tree (settings.sourcePaths root) filter).files, ∀ text,
          tree.FreeOfLinks here (stepNames text) →
          TakenFromStorage tree settings root text file →
            file.excluded = true ∧ ∀ verdict ∈ analysis.verdicts,
              ∀ evidence ∈ verdict.evidence, evidence.file = file.path →
                ∃ space, evidence.strategy = .inNamespace space) := by
  obtain ⟨filter, hfilter, hload, -⟩ := analyze_eq_ok h
  rw [Catalog.load, bind_eq_ok] at hload
  obtain ⟨content, hcontent, -⟩ := hload
  obtain ⟨goal, bytes, bits, hcatalog, -⟩ := readText_eq_ok.mp (mapError_eq_ok.mp hcontent)
  obtain ⟨here, mode, hhere⟩ :=
    exists_find_of_join ht (Path.ne_of_isAbsolute hroot) hinner.relative hcatalog
  refine ⟨here, filter, mem_place? hhere, hfilter, fun hmessages file hfile text hfree htaken => ?_⟩
  obtain ⟨front, name, last, hsteps⟩ := exists_append_pair hdeep
  obtain ⟨more, hmore, hpath⟩ := htaken.exists_components ht hinner (by simp [hsteps]) hhere
    hcatalog hmessages hfree (mem_files_load.mp hfile).2
  have hstorage : (stepNames settings.messagesFile).dropLast = front ++ [name] := by
    rw [hsteps, List.append_cons, List.dropLast_concat]
  rw [hstorage] at hpath
  have hexcluded := excluded_of_steps ht hname hinner hsteps hfilter hfile hmore hpath
  exact ⟨hexcluded, inNamespace_of_excluded h hfilter hfile hexcluded⟩

/-! ### A directory with a second name -/

/-- A project whose catalog lies beside a source file, in a directory that a link leads to as
well. -/
def aliased : FileTree where
  entries := [
    (["p"], .directory Entry.newDirectoryMode),
    (["p", "src"], .directory Entry.newDirectoryMode),
    (["p", "src", "locales"], .directory Entry.newDirectoryMode),
    (["p", "src", "locales", "zh.json"],
      .file (Catalog.mk [("title", .string "x")]).toText.toUTF8 Entry.newFileMode),
    (["p", "src", "locales", "keys.ts"], .file "'title'".toUTF8 Entry.newFileMode),
    (["p", "i18n"], .link "src/locales")]
  current := []

theorem wellFormed_aliased : aliased.WellFormed := by decide +kernel

def aliasedSettings (sources : List String) : Settings :=
  { Settings.default with
    messagesFile := "src/locales/zh.json"
    sourceRoots := sources
    ignores := []
    extensions := ["ts"]
    namespaceFunctions := []
    errorNamespaces := []
    bareLeafFallback := false
    excludeDir := none }

def aliasedFilter : SourceFilter := ⟨["ts"], [], [], some "locales", some ⟨"/p"⟩⟩

theorem ofSettings_aliased (sources : List String) :
    SourceFilter.ofSettings (aliasedSettings sources) ⟨"/p"⟩ = .ok aliasedFilter := by
  have hname : (aliasedSettings sources).excludedName = some "locales" :=
    Settings.excludedName_of_steps rfl (show IsInner "src/locales/zh.json" by decide +kernel)
      (show stepNames "src/locales/zh.json" = ["src"] ++ ["locales", "zh.json"] by decide +kernel)
  rw [SourceFilter.ofSettings_eq_map, hname]
  rfl

def aliasedFile (path : String) (excluded : Bool) : SourceFile := ⟨⟨path⟩, "'title'", excluded⟩

theorem mem_files_aliased :
    aliasedFile "/p/src/locales/keys.ts" true ∈
      (load aliased ((aliasedSettings ["src"]).sourcePaths ⟨"/p"⟩) aliasedFilter).files ∧
    aliasedFile "/p/i18n/keys.ts" false ∈
      (load aliased ((aliasedSettings ["i18n"]).sourcePaths ⟨"/p"⟩) aliasedFilter).files := by
  decide +kernel

theorem exists_analyze_aliased (sources : List String) :
    ∃ analysis, analyze aliased (aliasedSettings sources) ⟨"/p"⟩ = .ok analysis := by
  have hload : (Catalog.load aliased ((Path.mk "/p").join "src/locales/zh.json")).toOption.isSome =
      true := by
    decide +kernel
  obtain ⟨catalog, hcatalog⟩ := Option.isSome_iff_exists.mp hload
  obtain ⟨analysis, hanalysis, -⟩ :=
    exists_analyze (ofSettings_aliased sources) (eq_ok_of_mem_toOption hcatalog)
  exact ⟨analysis, hanalysis⟩

theorem stored_aliased {path : String}
    (h : aliased.place? ⟨path⟩ = some ["p", "src", "locales", "keys.ts"]) (sources : List String) :
    ∃ home ∈ (aliasedSettings sources).storage? aliased ⟨"/p"⟩, ∃ place ∈ aliased.place? ⟨path⟩,
      home <+: place := by
  have hhome : ((aliased.resolve .handle ((Path.mk "/p").join "src/locales/zh.json")).toOption.map
      (·.location.dropLast)) = some ["p", "src", "locales"] := by
    decide +kernel
  exact ⟨_, hhome, _, h, List.prefix_append _ ["keys.ts"]⟩

/-- The directory is excluded under its own name. -/
theorem storage_excluded_by_name :
    ∃ analysis, analyze aliased (aliasedSettings ["src"]) ⟨"/p"⟩ = .ok analysis ∧
      ∃ file ∈ (load aliased ((aliasedSettings ["src"]).sourcePaths ⟨"/p"⟩) aliasedFilter).files,
        TakenFromStorage aliased (aliasedSettings ["src"]) ⟨"/p"⟩ "src" file ∧
          file.excluded = true := by
  obtain ⟨analysis, hanalysis⟩ := exists_analyze_aliased ["src"]
  obtain ⟨here, filter, hhere, hfilter, hexcluded⟩ := excluded_of_takenFromStorage
    wellFormed_aliased (by decide +kernel) rfl (by decide +kernel) (by decide +kernel) hanalysis
  obtain rfl := Except.ok.inj (hfilter.symm.trans (ofSettings_aliased _))
  have hplace : aliased.place? ⟨"/p"⟩ = some ["p"] := by decide +kernel
  obtain rfl := Option.some.inj (hhere.symm.trans hplace)
  have htaken : TakenFromStorage aliased (aliasedSettings ["src"]) ⟨"/p"⟩ "src"
      (aliasedFile "/p/src/locales/keys.ts" true) :=
    ⟨List.mem_singleton_self _, by decide +kernel, by decide +kernel,
      stored_aliased (by decide +kernel) _⟩
  have hkeys : aliased.get? (["p"] ++ ["src", "locales", "keys.ts"]) =
      some (.file "'title'".toUTF8 Entry.newFileMode) := rfl
  have hfree := freeOfLinks_of_file wellFormed_aliased.toRooted hkeys
  have hmessages : aliased.FreeOfLinks ["p"] (stepNames "src/locales/zh.json").dropLast :=
    hfree.of_prefix (by decide +kernel)
  have hsource : aliased.FreeOfLinks ["p"] (stepNames "src") := hfree.of_prefix (by decide +kernel)
  exact ⟨analysis, hanalysis, _, mem_files_aliased.1, htaken,
    (hexcluded hmessages _ mem_files_aliased.1 "src" hsource htaken).1⟩

/-- A source file in the directory of the catalog counts if its root is a link to that directory. -/
theorem storage_counts_by_alias :
    ¬ ∀ (tree : FileTree) (settings : Settings) (root : Path) (analysis : Analysis)
        (filter : SourceFilter),
      tree.WellFormed → root.isAbsolute = true → settings.excludeDir = none →
      IsInner settings.messagesFile → 1 < (stepNames settings.messagesFile).length →
      analyze tree settings root = .ok analysis →
      SourceFilter.ofSettings settings root = .ok filter →
      ∀ file ∈ (load tree (settings.sourcePaths root) filter).files, ∀ text,
        TakenFromStorage tree settings root text file → file.excluded = true := by
  intro hall
  obtain ⟨analysis, hanalysis⟩ := exists_analyze_aliased ["i18n"]
  have htaken : TakenFromStorage aliased (aliasedSettings ["i18n"]) ⟨"/p"⟩ "i18n"
      (aliasedFile "/p/i18n/keys.ts" false) :=
    ⟨List.mem_singleton_self _, by decide +kernel, by decide +kernel,
      stored_aliased (by decide +kernel) _⟩
  have hexcluded := hall aliased (aliasedSettings ["i18n"]) ⟨"/p"⟩ analysis aliasedFilter
    wellFormed_aliased (by decide +kernel) rfl (by decide +kernel) (by decide +kernel) hanalysis
    (ofSettings_aliased _) _ mem_files_aliased.2 "i18n" htaken
  cases hexcluded

end Analysis

end LocaleTidy
