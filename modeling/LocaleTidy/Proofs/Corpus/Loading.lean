import LocaleTidy.Proofs.Corpus.Reached
import LocaleTidy.Proofs.Corpus.Relocation

/-!
# What is loaded from roots below a base

Where all roots lie below the base of the filter, each file that is reached from some root is
loaded once, unless it has another extension, an ignored entry covers it or it cannot be read. Its
steps below the base alone say whether a use in it is excluded.
-/

namespace LocaleTidy

open FileTree
open LocaleTidy.Path (Component OnlyNames)

variable {tree : FileTree} {base root path : Path} {bytes held : ByteArray} {mode rights : Nat}
  {filter : SourceFilter} {roots : List Path} {texts : List String}

namespace SourceFilter

/-- No ignored entry covers a file: neither a path that its relative path begins with, nor a
pattern that matches the relative path or the path as it is. -/
def Uncovered (filter : SourceFilter) (base path : Path) : Prop :=
  ∀ relative ∈ path.relativeTo? base,
    (∀ ignored ∈ filter.ignored, relative.startsWith ignored = false) ∧
      ∀ glob ∈ filter.globs, glob.matchesPath relative = false ∧ glob.matchesPath path = false

/-- Below the base, a directory on the way to a file has the excluded name. -/
def LiesInExcluded (filter : SourceFilter) (base path : Path) : Prop :=
  ∃ name, filter.excludedName = some name ∧
    Component.name name ∈ (path.components.drop base.components.length).dropLast

/-- A path is judged by its extension, its relative path and the steps of that one. -/
theorem judge_eq_some_iff {start shown : Path} {excluded : Bool}
    (hrelative : path.relativeTo? shown = some (filter.relative start path))
    (hbelow : shown.components <+: path.components) :
    filter.judge start path = some excluded ↔ filter.hasExtension path = true ∧
      filter.Uncovered shown path ∧ (excluded = true ↔ filter.LiesInExcluded shown path) := by
  have hsteps : (filter.relative start path).components =
      path.components.drop shown.components.length := by
    obtain ⟨relative, hrest, hsteps⟩ := Path.exists_relativeTo? hbelow
    rwa [Option.some.inj (hrelative.symm.trans hrest)]
  have huncovered : filter.Uncovered shown path ↔
      filter.isIgnored path (filter.relative start path) = false := by
    simp [Uncovered, hrelative, isIgnored]
  have hexcluded : filter.LiesInExcluded shown path ↔
      filter.isExcluded (filter.relative start path) = true := by
    simp [LiesInExcluded, isExcluded_eq, hsteps, Option.any_eq_true]
  rw [judge, huncovered, hexcluded, ← Bool.eq_iff_iff, @eq_comm _ excluded]
  cases filter.hasExtension path <;>
    cases filter.isIgnored path (filter.relative start path) <;> simp

theorem relativeTo?_base (start : Path) (hbase : filter.base = some base)
    (hbelow : base.components <+: path.components) :
    path.relativeTo? base = some (filter.relative start path) := by
  obtain ⟨relative, hrelative, -⟩ := Path.exists_relativeTo? hbelow
  simp [SourceFilter.relative, hbase, hrelative]

theorem relativeTo?_start {start : Path} (hstart : start.components <+: path.components)
    (houtside : ∀ base, filter.base = some base → ¬ base.components <+: path.components) :
    path.relativeTo? start = some (filter.relative start path) := by
  obtain ⟨relative, hrelative, -⟩ := Path.exists_relativeTo? hstart
  have hnone : filter.base.bind path.relativeTo? = none := by
    rw [Option.bind_eq_none_iff]
    intro base hbase
    rw [Path.relativeTo?, if_neg]
    rw [Path.startsWith, List.isPrefixOf_iff_prefix]
    exact houtside base hbase
  simp [SourceFilter.relative, hnone, hrelative]

end SourceFilter

namespace Corpus

/-- A root brings a file under a path: the file is reached from it, it has one of the extensions,
and no ignored entry covers it. -/
structure Brings (tree : FileTree) (filter : SourceFilter) (base root path : Path)
    (bytes : ByteArray) (mode : Nat) : Prop where
  reaches : tree.Reaches root path bytes mode
  extension : ∃ extension ∈ filter.extensions, path.extension? = some extension
  uncovered : filter.Uncovered base path

/-- The first of some roots that brings a file with certain steps brings it under a path. -/
def FirstBrings (tree : FileTree) (filter : SourceFilter) (base : Path) (roots : List Path)
    (path : Path) (bytes : ByteArray) (mode : Nat) : Prop :=
  ∃ before root after, roots = before ++ root :: after ∧
    Brings tree filter base root path bytes mode ∧
    ∀ other ∈ before, ∀ twin held rights, Brings tree filter base other twin held rights →
      twin.components ≠ path.components

/-- The roots lie below the base, and all directories can be listed. -/
structure RootsBelow (tree : FileTree) (filter : SourceFilter) (base : Path) (roots : List Path) :
    Prop where
  wellFormed : tree.WellFormed
  namesFit : tree.NamesFit
  base_eq : filter.base = some base
  below : ∀ root ∈ roots, base.components <+: root.components
  isOpen : ∀ root ∈ roots, tree.IsOpen root

/-! ## Warnings -/

def readProblem? (tree : FileTree) (path : Path) : Option SearchProblem :=
  match tree.readText path with
  | .ok _ => none
  | .error error => some (.unreadable path error)

theorem warnings_load (tree : FileTree) (roots : List Path) (filter : SourceFilter) :
    (load tree roots filter).warnings = roots.flatMap (walkProblems tree) ++
      (paths tree roots filter).filterMap fun item => readProblem? tree item.1 := by
  simp only [load, List.filterMap_map]
  congr 1
  apply List.filterMap_congr
  intro item _
  simp only [Function.comp, readFile, readProblem?]
  cases tree.readText item.1 <;> rfl

theorem mem_walkProblems {problem : SearchProblem} (hproblem : problem ∈ walkProblems tree root) :
    (tree.isThere root = false ∧ problem = .missingRoot root) ∨
      ∃ directory error, problem = .unlistable directory error := by
  unfold walkProblems at hproblem
  split at hproblem
  · obtain ⟨⟨directory, error⟩, -, rfl⟩ := List.mem_map.mp hproblem
    exact .inr ⟨directory, error, rfl⟩
  · rename_i hthere
    exact .inl ⟨by simpa using hthere, List.mem_singleton.mp hproblem⟩

theorem count_missingRoot (hmissing : tree.isThere root = false) :
    (load tree roots filter).warnings.count (.missingRoot root) = roots.count root := by
  have hread : ((paths tree roots filter).filterMap fun item => readProblem? tree item.1).count
      (.missingRoot root) = 0 := by
    rw [List.count_eq_zero, List.mem_filterMap]
    rintro ⟨item, -, hitem⟩
    unfold readProblem? at hitem
    split at hitem <;> cases hitem
  rw [warnings_load, List.count_append, hread, Nat.add_zero]
  clear hread
  induction roots with
  | nil => rfl
  | cons other roots ih =>
      have hother : (walkProblems tree other).count (.missingRoot root) =
          if other == root then 1 else 0 := by
        unfold walkProblems
        split
        · rename_i hthere
          have hne : other ≠ root := by
            rintro rfl
            rw [hmissing] at hthere
            cases hthere
          simp [List.count_eq_zero, hne]
        · simp [List.count_singleton]
      rw [List.flatMap_cons, List.count_append, ih, hother, List.count_cons, Nat.add_comm]

/-- Whether a problem is that the file with the steps of a path could not be read. -/
def isUnreadAt (path : Path) : SearchProblem → Bool
  | .unreadable other _ => other.components == path.components
  | _ => false

theorem filter_unread {item : Path × Bool} (hitem : item ∈ paths tree roots filter) :
    (load tree roots filter).warnings.filter (isUnreadAt item.1) =
      (readProblem? tree item.1).toList := by
  have hwalk : (roots.flatMap (walkProblems tree)).filter (isUnreadAt item.1) = [] := by
    rw [List.filter_eq_nil_iff]
    intro problem hproblem
    obtain ⟨root, -, hroot⟩ := List.mem_flatMap.mp hproblem
    rcases mem_walkProblems hroot with ⟨-, rfl⟩ | ⟨directory, error, rfl⟩ <;> simp [isUnreadAt]
  have hone : (paths tree roots filter).filter (sameSteps item) = [item] :=
    filter_sameSteps (pairwise_inOrder _) hitem
  have hread : ∀ other : Path × Bool, (readProblem? tree other.1).filter (isUnreadAt item.1) =
      if sameSteps item other then readProblem? tree other.1 else none := by
    intro other
    unfold readProblem? sameSteps
    cases tree.readText other.1 <;> simp [Option.filter, isUnreadAt]
  rw [warnings_load, List.filter_append, hwalk, List.nil_append, List.filter_filterMap]
  simp only [hread]
  rw [← List.filterMap_filter, hone]
  cases hproblem : readProblem? tree item.1 <;> simp [hproblem]

theorem rootsBelow_of_onlyNames (ht : tree.WellFormed) (hfit : tree.NamesFit)
    (hbase : filter.base = some base) (htexts : ∀ text ∈ texts, (Path.mk text).OnlyNames)
    (hopen : ∀ text ∈ texts, tree.IsOpen (base.join text)) :
    RootsBelow tree filter base (texts.map base.join) := by
  refine ⟨ht, hfit, hbase, fun root hroot => ?_, fun root hroot => ?_⟩
  · obtain ⟨text, htext, rfl⟩ := List.mem_map.mp hroot
    rw [(htexts text htext).components_join]
    exact List.prefix_append _ _
  · obtain ⟨text, htext, rfl⟩ := List.mem_map.mp hroot
    exact hopen text htext

section RootsBelow

variable (h : RootsBelow tree filter base roots)

include h

theorem RootsBelow.components_of_reaches (hroot : root ∈ roots)
    (hreach : tree.Reaches root path bytes mode) : base.components <+: path.components := by
  obtain ⟨names, -, -, hnames⟩ := hreach.exists_components h.wellFormed
  rw [hnames]
  exact (h.below root hroot).trans (List.prefix_append _ _)

theorem RootsBelow.mem_candidates_iff (hroot : root ∈ roots) {item : Path × Bool} :
    item ∈ candidates tree filter root ↔
      (∃ bytes mode, Brings tree filter base root item.1 bytes mode) ∧
        (item.2 = true ↔ filter.LiesInExcluded base item.1) := by
  have hextension : filter.hasExtension item.1 = true ↔
      ∃ extension ∈ filter.extensions, item.1.extension? = some extension := by
    unfold SourceFilter.hasExtension
    cases item.1.extension? <;> simp
  rw [mem_candidates, mem_listing_iff h.wellFormed (h.isOpen root hroot)]
  constructor
  · rintro ⟨⟨bytes, mode, hreach⟩, hjudge⟩
    have hbelow := h.components_of_reaches hroot hreach
    rw [SourceFilter.judge_eq_some_iff (SourceFilter.relativeTo?_base root h.base_eq hbelow) hbelow,
      hextension] at hjudge
    exact ⟨⟨bytes, mode, hreach, hjudge.1, hjudge.2.1⟩, hjudge.2.2⟩
  · rintro ⟨⟨bytes, mode, hbrings⟩, hexcluded⟩
    have hbelow := h.components_of_reaches hroot hbrings.reaches
    rw [SourceFilter.judge_eq_some_iff (SourceFilter.relativeTo?_base root h.base_eq hbelow) hbelow,
      hextension]
    exact ⟨⟨bytes, mode, hbrings.reaches⟩, hbrings.extension, hbrings.uncovered, hexcluded⟩

theorem RootsBelow.exists_candidate (hroot : root ∈ roots)
    (hbrings : Brings tree filter base root path bytes mode) :
    ∃ excluded, (path, excluded) ∈ candidates tree filter root := by
  by_cases hexcluded : filter.LiesInExcluded base path
  · exact ⟨true, (h.mem_candidates_iff hroot).mpr ⟨⟨bytes, mode, hbrings⟩, by simp [hexcluded]⟩⟩
  · exact ⟨false, (h.mem_candidates_iff hroot).mpr ⟨⟨bytes, mode, hbrings⟩, by simp [hexcluded]⟩⟩

theorem RootsBelow.mem_paths_iff {item : Path × Bool} :
    item ∈ paths tree roots filter ↔
      (∃ bytes mode, FirstBrings tree filter base roots item.1 bytes mode) ∧
        (item.2 = true ↔ filter.LiesInExcluded base item.1) := by
  rw [Corpus.mem_paths_iff h.wellFormed]
  constructor
  · rintro ⟨before, root, after, hroots, hitem, hfirst⟩
    have hbefore : ∀ other ∈ before, other ∈ roots := fun other hother => by simp [hroots, hother]
    obtain ⟨⟨bytes, mode, hbrings⟩, hexcluded⟩ :=
      (h.mem_candidates_iff (by simp [hroots])).mp hitem
    refine ⟨⟨bytes, mode, before, root, after, hroots, hbrings, ?_⟩, hexcluded⟩
    intro other hother twin held rights htwin
    obtain ⟨excluded, hcandidate⟩ := h.exists_candidate (hbefore other hother) htwin
    exact hfirst other hother (twin, excluded) hcandidate
  · rintro ⟨⟨bytes, mode, before, root, after, hroots, hbrings, hfirst⟩, hexcluded⟩
    refine ⟨before, root, after, hroots,
      (h.mem_candidates_iff (by simp [hroots])).mpr ⟨⟨bytes, mode, hbrings⟩, hexcluded⟩, ?_⟩
    intro other hother twin htwin
    obtain ⟨⟨held, rights, hbrings⟩, -⟩ :=
      (h.mem_candidates_iff (by simp [hroots, hother])).mp htwin
    exact hfirst other hother twin.1 held rights hbrings

theorem RootsBelow.exists_firstBrings (hroot : root ∈ roots)
    (hbrings : Brings tree filter base root path bytes mode) :
    ∃ spelling, FirstBrings tree filter base roots spelling bytes mode ∧
      spelling.components = path.components := by
  obtain ⟨excluded, hcandidate⟩ := h.exists_candidate hroot hbrings
  obtain ⟨first, hfirst, hsame⟩ := exists_mem_inOrder
    (List.mem_flatMap.mpr ⟨root, hroot, hcandidate⟩)
  rw [← paths_eq, h.mem_paths_iff] at hfirst
  obtain ⟨⟨held, rights, hspelled⟩, -⟩ := hfirst
  obtain ⟨before, source, after, hroots, hsource, -⟩ := id hspelled
  obtain ⟨rfl, rfl⟩ := hsource.reaches.same hbrings.reaches h.wellFormed h.namesFit
    (h.isOpen source (by simp [hroots])) (h.isOpen root hroot) hsame
  exact ⟨first.1, hspelled, hsame⟩

theorem FirstBrings.readText_iff (hfirst : FirstBrings tree filter base roots path bytes mode)
    {content : String} :
    tree.readText path = .ok content ↔ path.text.utf8ByteSize < maxPathBytes ∧
      mode.testBit Right.read.bit = true ∧ String.fromUTF8? bytes = some content := by
  obtain ⟨before, root, after, hroots, hbrings, -⟩ := hfirst
  exact hbrings.reaches.readText_iff h.wellFormed h.namesFit (h.isOpen root (by simp [hroots]))

theorem RootsBelow.mem_files_iff {file : SourceFile} :
    file ∈ (load tree roots filter).files ↔ ∃ bytes mode,
      FirstBrings tree filter base roots file.path bytes mode ∧
        mode.testBit Right.read.bit = true ∧
        file.path.text.utf8ByteSize < maxPathBytes ∧
        String.fromUTF8? bytes = some file.content ∧
        (file.excluded = true ↔ filter.LiesInExcluded base file.path) := by
  rw [mem_files_load, h.mem_paths_iff]
  constructor
  · rintro ⟨⟨⟨bytes, mode, hfirst⟩, hexcluded⟩, hread⟩
    obtain ⟨hshort, hmode, htext⟩ := (hfirst.readText_iff h).mp hread
    exact ⟨bytes, mode, hfirst, hmode, hshort, htext, hexcluded⟩
  · rintro ⟨bytes, mode, hfirst, hmode, hshort, htext, hexcluded⟩
    exact ⟨⟨⟨bytes, mode, hfirst⟩, hexcluded⟩, (hfirst.readText_iff h).mpr ⟨hshort, hmode, htext⟩⟩

/-- A file that cannot be read is not loaded, and there is one warning for it. -/
theorem RootsBelow.unread (hfirst : FirstBrings tree filter base roots path bytes mode)
    (hunread : mode.testBit Right.read.bit = false ∨
      maxPathBytes ≤ path.text.utf8ByteSize ∨ String.fromUTF8? bytes = none) :
    (∀ file ∈ (load tree roots filter).files, file.path.components ≠ path.components) ∧
      ∃ error, (load tree roots filter).warnings.filter (isUnreadAt path) =
        [.unreadable path error] := by
  have hnot : ∀ content, tree.readText path ≠ .ok content := by
    intro content hread
    obtain ⟨hshort, hmode, htext⟩ := (hfirst.readText_iff h).mp hread
    rcases hunread with hmodeless | hlong | hbytes
    · cases hmodeless.symm.trans hmode
    · exact Nat.not_le.mpr hshort hlong
    · cases hbytes.symm.trans htext
  obtain ⟨error, herror⟩ : ∃ error, tree.readText path = .error error := by
    cases hread : tree.readText path with
    | ok content => exact (hnot content hread).elim
    | error error => exact ⟨error, rfl⟩
  obtain ⟨excluded, hitem⟩ : ∃ excluded, (path, excluded) ∈ paths tree roots filter := by
    by_cases hexcluded : filter.LiesInExcluded base path
    · exact ⟨true, h.mem_paths_iff.mpr ⟨⟨bytes, mode, hfirst⟩, by simp [hexcluded]⟩⟩
    · exact ⟨false, h.mem_paths_iff.mpr ⟨⟨bytes, mode, hfirst⟩, by simp [hexcluded]⟩⟩
  constructor
  · intro file hfile hsame
    rw [mem_files_load] at hfile
    obtain ⟨rfl, -⟩ := Prod.mk.inj (inOrder_unique hitem hfile.1 hsame)
    exact hnot _ hfile.2
  · exact ⟨error, by rw [filter_unread hitem, readProblem?, herror]; rfl⟩

end RootsBelow

/-- Source files from roots below a base, all of whose directories can be listed: they are in
strict order, and there is one for each file that a root brings, unless its owner may not read it,
its path is too long or its bytes are no text, for which there is one warning each. Where several
roots bring one file, the path is that from the first of them. Each time a root that is not there
is given, there is a warning. -/
theorem loads_each_once (ht : tree.WellFormed) (hfit : tree.NamesFit)
    (hbase : filter.base = some base) (htexts : ∀ text ∈ texts, (Path.mk text).OnlyNames)
    (hopen : ∀ text ∈ texts, tree.IsOpen (base.join text)) :
    let roots := texts.map base.join
    let corpus := load tree roots filter
    corpus.files.Pairwise (fun left right => left.path.before right.path = true) ∧
      (∀ file, file ∈ corpus.files ↔ ∃ bytes mode,
        FirstBrings tree filter base roots file.path bytes mode ∧
          mode.testBit Right.read.bit = true ∧
          file.path.text.utf8ByteSize < maxPathBytes ∧
          String.fromUTF8? bytes = some file.content ∧
          (file.excluded = true ↔ filter.LiesInExcluded base file.path)) ∧
      (∀ root ∈ roots, ∀ path bytes mode, Brings tree filter base root path bytes mode →
        ∃ spelling, FirstBrings tree filter base roots spelling bytes mode ∧
          spelling.components = path.components) ∧
      (∀ path bytes mode, FirstBrings tree filter base roots path bytes mode →
        mode.testBit Right.read.bit = false ∨ maxPathBytes ≤ path.text.utf8ByteSize ∨
          String.fromUTF8? bytes = none →
        (∀ file ∈ corpus.files, file.path.components ≠ path.components) ∧
          ∃ error, corpus.warnings.filter (isUnreadAt path) = [.unreadable path error]) ∧
      ∀ root, tree.isThere root = false →
        corpus.warnings.count (.missingRoot root) = roots.count root := by
  have h := rootsBelow_of_onlyNames ht hfit hbase htexts hopen
  exact ⟨pairwise_files_load _ _ _, fun _ => h.mem_files_iff,
    fun root hroot path bytes mode => h.exists_firstBrings hroot,
    fun path bytes mode => h.unread, fun root => count_missingRoot⟩

/-- A project with a text in a directory of its own, a text that its owner may not read, and a file
that is no text. -/
def mixedSources : FileTree where
  entries := [
    (["app"], .directory 0o755),
    (["app", "src"], .directory 0o755),
    (["app", "src", "locales"], .directory 0o755),
    (["app", "src", "locales", "en.ts"], .file "t('x')".toUTF8 0o644),
    (["app", "src", "bytes.ts"], .file ⟨#[0xff]⟩ 0o644),
    (["app", "src", "shut.ts"], .file "t('y')".toUTF8 0o200)]
  current := []

def mixedFilter : SourceFilter := ⟨["ts"], [], [], some "locales", some ⟨"app"⟩⟩

def mixedRoots : List String := ["src//locales", "src", "old", "old"]

theorem isOpen_mixed : ∀ text ∈ mixedRoots, mixedSources.IsOpen ((Path.mk "app").join text) := by
  have hopens : ∀ text ∈ mixedRoots, ∀ start ∈ mixedSources.place? ((Path.mk "app").join text),
      ∀ item ∈ mixedSources.entriesBelow start,
        opensFor ((Path.mk "app").join text) item = true := by
    decide +kernel
  exact fun text htext => isOpen_of_entries (hopens text htext)

theorem brings_mixed (start : Location) (name : String)
    (hroot : mixedSources.place? root = some start)
    (hdirectory : mixedSources.get? start = some (.directory 0o755))
    (hfile : mixedSources.get? (start ++ [name]) = some (.file bytes mode))
    (hpath : root.join name = path) (hextension : path.extension? = some "ts") :
    Brings mixedSources mixedFilter ⟨"app"⟩ root path bytes mode where
  reaches := hpath ▸ .below (find_of_place? hroot hdirectory) hfile
  extension := ⟨"ts", List.mem_singleton_self _, hextension⟩
  uncovered := by simp [SourceFilter.Uncovered, mixedFilter]

/-- A file that is reached from two roots, one that is no text, and a root that is given twice but
is not there. -/
theorem loads_mixed :
    let roots := mixedRoots.map (Path.mk "app").join
    let corpus := load mixedSources roots mixedFilter
    ⟨⟨"app/src//locales/en.ts"⟩, "t('x')", true⟩ ∈ corpus.files ∧
      (∃ spelling error, spelling.components = (Path.mk "app/src/bytes.ts").components ∧
        corpus.warnings.filter (isUnreadAt spelling) = [.unreadable spelling error]) ∧
      corpus.warnings.count (.missingRoot ⟨"app/old"⟩) = 2 := by
  intro roots corpus
  have hbase : mixedFilter.base = some ⟨"app"⟩ := rfl
  obtain ⟨-, hfiles, hfirst, hunread, hmissing⟩ := loads_each_once (by decide +kernel)
    (by decide +kernel) hbase (by decide +kernel) isOpen_mixed
  refine ⟨?_, ?_, (hmissing ⟨"app/old"⟩ (by decide +kernel)).trans (by decide +kernel)⟩
  · have hbrings : Brings mixedSources mixedFilter ⟨"app"⟩ ⟨"app/src//locales"⟩
        ⟨"app/src//locales/en.ts"⟩ "t('x')".toUTF8 0o644 :=
      brings_mixed ["app", "src", "locales"] "en.ts" (by decide +kernel) rfl rfl
        (by decide +kernel) (by decide +kernel)
    have hroots : roots = [] ++ ⟨"app/src//locales"⟩ :: roots.tail := by decide +kernel
    exact (hfiles _).mpr ⟨_, _, ⟨[], _, _, hroots, hbrings, by simp⟩, rfl, by decide +kernel,
      by decide +kernel, iff_of_true rfl ⟨"locales", rfl, by decide +kernel⟩⟩
  · have hbytes : Brings mixedSources mixedFilter ⟨"app"⟩ ⟨"app/src"⟩ ⟨"app/src/bytes.ts"⟩
        ⟨#[0xff]⟩ 0o644 :=
      brings_mixed ["app", "src"] "bytes.ts" (by decide +kernel) rfl rfl (by decide +kernel)
        (by decide +kernel)
    obtain ⟨spelling, hspelled, hsame⟩ := hfirst _ (by decide +kernel) _ _ _ hbytes
    obtain ⟨-, error, hwarning⟩ := hunread _ _ _ hspelled (.inr (.inr (by decide +kernel)))
    exact ⟨spelling, error, hsame, hwarning⟩

/-- A file that a root brings is not loaded if its owner may not read it, though its bytes are a
text. -/
theorem shut_text_left_out :
    ¬ ∀ (tree : FileTree) (filter : SourceFilter) (base : Path) (texts : List String),
      tree.WellFormed → tree.NamesFit → filter.base = some base →
      (∀ text ∈ texts, (Path.mk text).OnlyNames) →
      (∀ text ∈ texts, tree.IsOpen (base.join text)) →
      ∀ root ∈ texts.map base.join, ∀ path bytes mode,
        Brings tree filter base root path bytes mode → (String.fromUTF8? bytes).isSome →
        ∃ file ∈ (load tree (texts.map base.join) filter).files,
          file.path.components = path.components := by
  intro hall
  have hbase : mixedFilter.base = some ⟨"app"⟩ := rfl
  have hnames : ∀ text ∈ mixedRoots, (Path.mk text).OnlyNames := by decide +kernel
  have hbelow := rootsBelow_of_onlyNames (by decide +kernel) (by decide +kernel) hbase hnames
    isOpen_mixed
  have hroot : (⟨"app/src"⟩ : Path) ∈ mixedRoots.map (Path.mk "app").join := by decide +kernel
  have hshut : Brings mixedSources mixedFilter ⟨"app"⟩ ⟨"app/src"⟩ ⟨"app/src/shut.ts"⟩
      "t('y')".toUTF8 0o200 :=
    brings_mixed ["app", "src"] "shut.ts" (by decide +kernel) rfl rfl (by decide +kernel)
      (by decide +kernel)
  obtain ⟨file, hfile, hsame⟩ := hall _ _ _ _ hbelow.wellFormed hbelow.namesFit hbase hnames
    isOpen_mixed _ hroot _ _ _ hshut (by decide +kernel)
  obtain ⟨spelling, hfirst, hspelled⟩ := hbelow.exists_firstBrings hroot hshut
  exact (hbelow.unread hfirst (.inl rfl)).1 file hfile (hsame.trans hspelled.symm)

end Corpus

end LocaleTidy
