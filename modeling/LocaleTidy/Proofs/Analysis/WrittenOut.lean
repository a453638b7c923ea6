import LocaleTidy.Proofs.Clean.Steps
import LocaleTidy.Proofs.Corpus.Unchanged
import LocaleTidy.Proofs.FileTree.Outline
import LocaleTidy.Proofs.FileTree.Relocation

/-!
# Settings with paths that are written out

The catalog file and the source directories may be named from the project on, or from the root
directory on. Both lead to the same files. But the directories in which a use of a key does not
count have the name of the one that holds the catalog file, and where that is the project itself,
only the paths that are written out show its name.
-/

namespace LocaleTidy

open FileTree
open LocaleTidy.Path (stepNames stepOf? isVoid)

variable {tree other : FileTree} {settings : Settings} {root : Path} {place : Location}
  {filter : SourceFilter} {file : String} {roots : List String}

/-! ## A file that is not read -/

theorem Corpus.load_sameBut (h : SameBut place tree other) {sources : List Path}
    (hread : ∀ item ∈ paths tree sources filter, tree.place? item.1 ≠ some place) :
    load other sources filter = load tree sources filter := by
  have hthere : other.isThere = tree.isThere := funext h.isThere_eq
  have hcandidates : candidates other = candidates tree := by
    funext filter root
    rw [candidates, candidates, h.listing_eq]
  have hpaths : paths other sources filter = paths tree sources filter := by
    rw [paths, paths, hthere, hcandidates]
  have hresults : (paths tree sources filter).map (fun item => readFile other item.1 item.2) =
      (paths tree sources filter).map fun item => readFile tree item.1 item.2 := by
    refine List.map_congr_left fun item hitem => ?_
    rw [readFile, readFile, h.readText_eq (hread item hitem)]
  have hproblems : walkProblems other = walkProblems tree := by
    funext root
    rw [walkProblems, walkProblems, h.isThere_eq, h.listing_eq]
  simp only [load, hpaths, hresults, hproblems]

/-- The file at a place is neither the catalog of a project nor one of its source files. -/
structure Settings.Unread (settings : Settings) (tree : FileTree) (root : Path)
    (place : Location) : Prop where
  catalog : tree.place? (settings.messagesPath root) ≠ some place
  sources : ∀ filter, SourceFilter.ofSettings settings root = .ok filter →
    ∀ item ∈ Corpus.paths tree (settings.sourcePaths root) filter, tree.place? item.1 ≠ some place

/-- The analysis does not see what is in a file that it does not read. -/
theorem analyze_sameBut (h : SameBut place tree other) (hu : settings.Unread tree root place) :
    analyze other settings root = analyze tree settings root := by
  have hcatalog : Catalog.load other (settings.messagesPath root) =
      Catalog.load tree (settings.messagesPath root) := by
    rw [Catalog.load, Catalog.load, h.readText_eq hu.catalog]
  rw [analyze_eq, analyze_eq, hcatalog]
  refine bind_congr fun catalog => ?_
  cases hfilter : SourceFilter.ofSettings settings root with
  | error error =>
      show Except.error (ProjectError.badIgnores error) = .error (.badIgnores error)
      rfl
  | ok filter =>
      show Except.ok (Analysis.ofParts other settings root catalog filter) =
        .ok (.ofParts tree settings root catalog filter)
      rw [Analysis.ofParts, Analysis.ofParts, Corpus.load_sameBut h (hu.sources filter hfilter)]

/-! ## Names of directories -/

namespace Path

variable {path directory : Path} {text : String}

/-- The name of the directory that a path is in depends on its steps alone. -/
theorem fileName?_parent? (path : Path) :
    path.parent?.bind fileName? =
      match path.components.dropLast.getLast? with
      | some (.name name) => some name
      | _ => none := by
  cases hparent : path.parent? with
  | none => rw [dropLast_components_of_parent? hparent]; rfl
  | some parent => rw [← components_of_parent? hparent]; rfl

theorem length_filterMap_stepOf? (pieces : List String) :
    (pieces.filterMap stepOf?).length = (pieces.filter fun piece => !isVoid piece).length := by
  induction pieces with
  | nil => rfl
  | cons piece rest ih =>
      cases hvoid : isVoid piece with
      | true => simp [List.filterMap_cons_none (stepOf?_eq_none.mpr hvoid), hvoid, ih]
      | false =>
          obtain ⟨step, hstep⟩ := exists_stepOf? hvoid
          simp [List.filterMap_cons_some hstep, hvoid, ih]

/-- A text with two steps or more lies in a directory of the same name, however it is written. -/
theorem fileName?_parent?_join (hd : directory.text ≠ "") (h : text.startsWith "/" = false)
    (hsteps : 1 < (stepNames text).length) :
    (directory.join text).parent?.bind fileName? = (Path.mk text).parent?.bind fileName? := by
  have hlast : ∀ front : List Component,
      (front ++ (Text.split '/' text).filterMap stepOf?).dropLast.getLast? =
        ((Text.split '/' text).filterMap stepOf?).dropLast.getLast? := by
    intro front
    have hne : ((Text.split '/' text).filterMap stepOf?).dropLast ≠ [] := by
      rw [← List.length_pos_iff, List.length_dropLast, length_filterMap_stepOf?, ← stepNames]
      omega
    rw [List.dropLast_append_of_ne_nil (fun hnil => hne (by rw [hnil]; rfl)),
      List.getLast?_append, List.getLast?_eq_some_getLast hne, Option.some_or]
  rw [fileName?_parent?, fileName?_parent?, components_join hd h, hlast]
  rcases components_of_relative h with hsame | hdot
  · rw [hsame]
  · rw [hdot, ← List.singleton_append, hlast]

theorem fileName?_parent?_single (h : text.startsWith "/" = false)
    (hstep : (stepNames text).length = 1) : (Path.mk text).parent?.bind fileName? = none := by
  rw [stepNames, ← length_filterMap_stepOf?, List.length_eq_one_iff] at hstep
  obtain ⟨step, hstep⟩ := hstep
  rw [fileName?_parent?]
  rcases components_of_relative h with hsame | hdot
  · rw [hsame, hstep]
    rfl
  · rw [hdot, hstep]
    rfl

/-! ### Absolute directories -/

theorem join_join_of_isAbsolute (h : directory.isAbsolute = true) (text : String) :
    directory.join (directory.join text).text = directory.join text := by
  have habsolute : (directory.join text).text.startsWith "/" = true := isAbsolute_join h text
  rw [join, if_pos habsolute]

end Path

/-! ## Settings -/

namespace Settings

def withSources (settings : Settings) (file : String) (roots : List String) : Settings :=
  { settings with messagesFile := file, sourceRoots := roots }

def writtenOut (settings : Settings) (root : Path) (file : String) (roots : List String) :
    Settings :=
  settings.withSources (root.join file).text (roots.map fun text => (root.join text).text)

theorem messagesPath_writtenOut (hroot : root.isAbsolute = true) :
    (settings.writtenOut root file roots).messagesPath root =
      (settings.withSources file roots).messagesPath root :=
  Path.join_join_of_isAbsolute hroot file

theorem backupPath_writtenOut (hroot : root.isAbsolute = true) :
    (settings.writtenOut root file roots).backupPath root =
      (settings.withSources file roots).backupPath root := by
  rw [backupPath, messagesPath_writtenOut hroot]
  rfl

theorem sourcePaths_writtenOut (hroot : root.isAbsolute = true) :
    (settings.writtenOut root file roots).sourcePaths root =
      (settings.withSources file roots).sourcePaths root := by
  have hjoined : ∀ texts : List String,
      (texts.map fun text => (root.join text).text).map root.join = texts.map root.join := by
    intro texts
    rw [List.map_map]
    exact List.map_congr_left fun text _ => Path.join_join_of_isAbsolute hroot text
  exact hjoined roots

/-- The directories in which a use does not count are the same, but for a catalog file right in the
project. -/
theorem excludedName_writtenOut (hroot : root.isAbsolute = true)
    (hfile : file.startsWith "/" = false) (hsteps : stepNames file ≠ []) :
    (settings.writtenOut root file roots).excludedName =
        (settings.withSources file roots).excludedName ∨
      settings.excludeDir = none ∧ (stepNames file).length = 1 ∧
        (settings.withSources file roots).excludedName = none := by
  cases hdir : settings.excludeDir with
  | some name => exact .inl (by simp [excludedName, writtenOut, withSources, hdir])
  | none =>
      have hname : ∀ text roots, (settings.withSources text roots).excludedName =
          (Path.mk text).parent?.bind Path.fileName? := by
        intro text roots
        simp [excludedName, withSources, hdir]
      rw [writtenOut, hname, hname]
      have hpos : 0 < (stepNames file).length := List.length_pos_iff.mpr hsteps
      by_cases hone : (stepNames file).length = 1
      · exact .inr ⟨rfl, hone, Path.fileName?_parent?_single hfile hone⟩
      · exact .inl (Path.fileName?_parent?_join (Path.ne_of_isAbsolute hroot) hfile (by omega))

end Settings

/-! ## Filters that exclude nothing -/

def SourceFilter.excluding (filter : SourceFilter) (name : Option String) : SourceFilter :=
  { filter with excludedName := name }

theorem SourceFilter.ofSettings_eq_map (settings : Settings) (root : Path) :
    ofSettings settings root =
      (make settings.extensions settings.ignores none (some root)).map
        (·.excluding settings.excludedName) := by
  rw [ofSettings, make, make]
  cases splitIgnores settings.ignores <;> rfl

namespace Corpus

/-- A filter that excludes no candidate might as well name no directory. -/
theorem candidates_of_count {source : Path}
    (h : ∀ item ∈ candidates tree filter source, item.2 = false) :
    candidates tree (filter.excluding none) source = candidates tree filter source := by
  refine List.filterMap_congr fun path hpath => ?_
  have hcount : ∀ excluded ∈ filter.judge source path, excluded = false := fun excluded hjudge =>
    h (path, excluded) (List.mem_filterMap.mpr ⟨path, hpath, by rw [hjudge]; rfl⟩)
  suffices hjudge : (filter.excluding none).judge source path = filter.judge source path by
    rw [hjudge]
  unfold SourceFilter.judge at hcount ⊢
  by_cases hkept : (filter.hasExtension path &&
      !filter.isIgnored path (filter.relative source path)) = true
  · have hexcluded := hcount _ (by rw [if_pos hkept]; rfl)
    rw [if_pos hkept, hexcluded]
    exact if_pos hkept
  · rw [if_neg hkept]
    exact if_neg hkept

theorem load_congr {filter' : SourceFilter} {sources : List Path}
    (h : ∀ source ∈ sources, candidates tree filter' source = candidates tree filter source) :
    load tree sources filter' = load tree sources filter := by
  have hpaths : paths tree sources filter' = paths tree sources filter := by
    rw [paths_eq, paths_eq, List.flatMap_congr h]
  rw [load, load, hpaths]

end Corpus

theorem stepNames_ne_nil_of_load (ht : tree.WellFormed) (hroot : root.text ≠ "")
    (hfile : file.startsWith "/" = false) {catalog : Catalog}
    (h : Catalog.load tree (root.join file) = .ok catalog) : stepNames file ≠ [] := by
  simp only [Catalog.load, readText, bind_eq_ok, mapError_eq_ok, readBytes_eq_ok] at h
  obtain ⟨_, ⟨_, ⟨place, mode, hfind, -⟩, -⟩, -⟩ := h
  obtain ⟨before, -, hjoined, -, -⟩ := Path.split_join hroot hfile
  obtain ⟨first, rest, hsplit⟩ := Path.exists_split file
  have hwalk := (resolve_eq_ok.mp (find_eq_ok.mp hfind)).2
  rw [hjoined] at hwalk
  obtain ⟨last, hlast, hname⟩ := getLast?_of_file ht.toRooted
    (isDirectory_start ht.toRooted ht.current _) (by simp [hsplit]) hwalk
  rw [List.getLast?_append, List.getLast?_eq_some_getLast (by simp [hsplit]), Option.some_or]
    at hlast
  exact List.ne_nil_of_mem (List.mem_filter.mpr
    ⟨List.mem_of_getLast? (hlast ▸ List.getLast?_eq_some_getLast _), by simp [hname]⟩)

/-- What is asked of the paths of settings, for the same uses to count once they are written out:
the directories in which a use does not count have a name of their own, or the catalog file does not
lie right in the project, or none of the scanned files lies in a directory with the name of the
project. -/
def Settings.KeepsCounts (settings : Settings) (tree : FileTree) (root : Path) (file : String)
    (roots : List String) : Prop :=
  settings.excludeDir.isSome ∨ (stepNames file).length ≠ 1 ∨
    ∀ filter, SourceFilter.ofSettings (settings.writtenOut root file roots) root = .ok filter →
      ∀ source ∈ (settings.withSources file roots).sourcePaths root,
        ∀ item ∈ Corpus.candidates tree filter source, item.2 = false

/-- With paths that are written out the same source files are loaded, and the same of them count. -/
theorem load_writtenOut (hroot : root.isAbsolute = true) (hfile : file.startsWith "/" = false)
    (hsteps : stepNames file ≠ []) (hkeep : settings.KeepsCounts tree root file roots)
    (hbase : SourceFilter.make settings.extensions settings.ignores none (some root) =
      .ok filter) :
    Corpus.load tree ((settings.withSources file roots).sourcePaths root)
        (filter.excluding (settings.writtenOut root file roots).excludedName) =
      Corpus.load tree ((settings.withSources file roots).sourcePaths root)
        (filter.excluding (settings.withSources file roots).excludedName) := by
  rcases Settings.excludedName_writtenOut hroot hfile hsteps with hsame | ⟨hdir, hone, hnone⟩
  · rw [hsame]
  rcases hkeep with hsome | hsteps | hcount
  · simp [hdir] at hsome
  · exact (hsteps hone).elim
  rw [hnone]
  refine (Corpus.load_congr fun source hsource => ?_).symm
  have hfilter : SourceFilter.ofSettings (settings.writtenOut root file roots) root =
      .ok (filter.excluding (settings.writtenOut root file roots).excludedName) := by
    rw [SourceFilter.ofSettings_eq_map]
    exact congrArg (Except.map _) hbase
  exact Corpus.candidates_of_count (hcount _ hfilter source hsource)

theorem analyze_writtenOut (ht : tree.WellFormed) (hroot : root.isAbsolute = true)
    (hfile : file.startsWith "/" = false) (hkeep : settings.KeepsCounts tree root file roots) :
    analyze tree (settings.writtenOut root file roots) root =
      analyze tree (settings.withSources file roots) root := by
  rw [analyze_eq, analyze_eq, Settings.messagesPath_writtenOut hroot,
    SourceFilter.ofSettings_eq_map,
    SourceFilter.ofSettings_eq_map (settings.withSources file roots)]
  cases hload : Catalog.load tree ((settings.withSources file roots).messagesPath root) with
  | error error => rfl
  | ok catalog =>
      have hsteps := stepNames_ne_nil_of_load ht (Path.ne_of_isAbsolute hroot) hfile hload
      have hmake : ∀ file roots, SourceFilter.make (settings.withSources file roots).extensions
          (settings.withSources file roots).ignores none (some root) =
          SourceFilter.make settings.extensions settings.ignores none (some root) :=
        fun _ _ => rfl
      rw [Settings.writtenOut, hmake, hmake]
      cases hbase : SourceFilter.make settings.extensions settings.ignores none (some root) with
      | error error =>
          show Except.error (ProjectError.badIgnores error) = .error (.badIgnores error)
          rfl
      | ok filter =>
          show Except.ok (Analysis.ofParts tree (settings.writtenOut root file roots) root catalog
              (filter.excluding (settings.writtenOut root file roots).excludedName)) =
            .ok (.ofParts tree (settings.withSources file roots) root catalog
              (filter.excluding (settings.withSources file roots).excludedName))
          rw [Analysis.ofParts, Analysis.ofParts, Settings.sourcePaths_writtenOut hroot,
            Settings.messagesPath_writtenOut hroot, load_writtenOut hroot hfile hsteps hkeep hbase]
          rfl

end LocaleTidy
