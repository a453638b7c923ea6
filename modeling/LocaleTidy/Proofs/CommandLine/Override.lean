import LocaleTidy.CommandLine.Run
import LocaleTidy.Proofs.Analysis.WrittenOut
import LocaleTidy.Proofs.Clean.Outline
import LocaleTidy.Proofs.Settings.Search

/-!
# The command line in place of the settings

The catalog file and the source directories may be named on the command line or in the settings
file of the current directory. A command does the same either way, as long as the same uses count
and the settings file is not itself read as a source file or as the catalog.
-/

namespace LocaleTidy

open FileTree
open LocaleTidy.Path (stepNames)

variable {tree other : FileTree} {settings : Settings} {place : Location} {file : String}
  {roots : List String}

/-! ## The settings of the current directory -/

namespace Settings

theorem find?_of_isThere {start : Path} (h : tree.isThere (start.join fileName) = true) :
    find? tree start = some (start.join fileName) := by
  rw [find?_eq, if_pos h]

theorem load_of_isThere (hc : ∀ step ∈ tree.current, IsName step)
    (hthere : tree.isThere (tree.currentPath.join fileName) = true)
    (hload : (load tree tree.currentPath).map (·.settings) = .ok settings) :
    load tree tree.currentPath = .ok ⟨settings, tree.currentPath, true⟩ := by
  have hn : IsName fileName := by decide
  cases hloaded : load tree tree.currentPath with
  | error error =>
      rw [hloaded] at hload
      cases hload
  | ok loaded =>
      rw [hloaded] at hload
      obtain rfl : loaded.settings = settings := Except.ok.inj hload
      rw [load, find?_of_isThere hthere] at hloaded
      simp only [bind_eq_ok, pure_eq_ok] at hloaded
      obtain ⟨_, -, _, -, _, -, rfl⟩ := hloaded
      simp [parent?_join_currentPath hc hn]

end Settings

namespace CommandLine

/-- Two projects that differ in the settings file of the current directory, which names a catalog
file and source directories in the second one. -/
structure Respelling (tree other : FileTree) (place : Location) (settings : Settings)
    (file : String) (roots : List String) : Prop where
  wellFormed : tree.WellFormed
  found : ∃ bytes text mode,
    tree.find (tree.currentPath.join Settings.fileName) = .ok (place, .file bytes mode) ∧
      other = tree.set place (.file text mode)
  loads : (Settings.load tree tree.currentPath).map (·.settings) = .ok settings
  loadsOther : (Settings.load other other.currentPath).map (·.settings) =
    .ok (settings.withSources file roots)
  relative : file.startsWith "/" = false
  nonempty : roots ≠ []

namespace Respelling

variable (h : Respelling tree other place settings file roots)

include h

theorem sameBut : SameBut place tree other := by
  obtain ⟨bytes, text, mode, hfind, rfl⟩ := h.found
  exact sameBut_set (get?_of_find hfind) text

theorem current_eq : other.current = tree.current := by
  obtain ⟨bytes, text, mode, -, rfl⟩ := h.found
  rfl

theorem currentPath_eq : other.currentPath = tree.currentPath := by
  rw [currentPath, currentPath, h.current_eq]

theorem isThere : tree.isThere (tree.currentPath.join Settings.fileName) = true := by
  obtain ⟨bytes, text, mode, hfind, -⟩ := h.found
  rw [FileTree.isThere, hfind]
  rfl

theorem load_eq : Settings.load tree tree.currentPath = .ok ⟨settings, tree.currentPath, true⟩ :=
  Settings.load_of_isThere h.wellFormed.isName_current h.isThere h.loads

theorem load_other_eq :
    Settings.load other other.currentPath =
      .ok ⟨settings.withSources file roots, tree.currentPath, true⟩ := by
  rw [← h.currentPath_eq]
  refine Settings.load_of_isThere ?_ ?_ h.loadsOther
  · rw [h.current_eq]
    exact h.wellFormed.isName_current
  · rw [h.sameBut.isThere_eq, h.currentPath_eq, h.isThere]

/-- The settings from the command line are those of the other settings file, written out. -/
theorem override_eq (verbose : Bool) :
    (CommonArguments.mk (some file) roots verbose).override tree.currentPath settings =
      settings.writtenOut tree.currentPath file roots := by
  simp [CommonArguments.override, h.nonempty, Settings.writtenOut, Settings.withSources]

theorem analyze_eq
    (hu : (settings.withSources file roots).Unread tree tree.currentPath place)
    (hkeep : settings.KeepsCounts tree tree.currentPath file roots) :
    analyze tree (settings.writtenOut tree.currentPath file roots) tree.currentPath =
      analyze other (settings.withSources file roots) tree.currentPath := by
  rw [analyze_sameBut h.sameBut hu]
  exact analyze_writtenOut h.wellFormed tree.isAbsolute_currentPath h.relative hkeep

/-- Both projects are analysed alike, or the preparation fails alike. -/
theorem prepare_cases
    (hu : (settings.withSources file roots).Unread tree tree.currentPath place)
    (hkeep : settings.KeepsCounts tree tree.currentPath file roots) (verbose : Bool) :
    (∃ failure, prepare ⟨some file, roots, verbose⟩ tree = .error failure ∧
        prepare ⟨none, [], verbose⟩ other = .error failure) ∨
      ∃ analysis printed,
        prepare ⟨some file, roots, verbose⟩ tree =
            .ok ⟨settings.writtenOut tree.currentPath file roots, tree.currentPath, analysis,
              printed⟩ ∧
          prepare ⟨none, [], verbose⟩ other =
            .ok ⟨settings.withSources file roots, tree.currentPath, analysis, printed⟩ := by
  have hbare : ∀ settings current, (CommonArguments.mk none [] verbose).override current settings =
      settings := fun _ _ => rfl
  rw [prepare, prepare, h.load_eq, h.load_other_eq]
  dsimp only
  rw [h.override_eq verbose, hbare, ← h.analyze_eq hu hkeep]
  cases analyze tree (settings.writtenOut tree.currentPath file roots) tree.currentPath with
  | error error => exact .inl ⟨_, rfl, rfl⟩
  | ok analysis => exact .inr ⟨_, _, rfl, rfl⟩

end Respelling

/-! ## Runs -/

/-- What a run shows, and what it leaves of the input. -/
def Finished.shown (finished : Finished) : Printed × Nat × List Char :=
  (finished.printed, finished.exitCode, finished.input)

/-- With a catalog file and source directories on the command line, the first project is analysed
like the second one without them, and `check` and `clean` print the same, end with the same exit
code and leave the same of the input. -/
def SameRuns (tree other : FileTree) (file : String) (roots : List String) (verbose : Bool) :
    Prop :=
  (prepare ⟨some file, roots, verbose⟩ tree).map (·.analysis) =
      (prepare ⟨none, [], verbose⟩ other).map (·.analysis) ∧
    ∀ input coloured,
      (runCheck ⟨some file, roots, verbose⟩ ⟨tree, input, coloured⟩).shown =
          (runCheck ⟨none, [], verbose⟩ ⟨other, input, coloured⟩).shown ∧
        ∀ options, (runClean ⟨some file, roots, verbose⟩ options ⟨tree, input, coloured⟩).shown =
          (runClean ⟨none, [], verbose⟩ options ⟨other, input, coloured⟩).shown

/-- The command line means the same as the settings file. -/
theorem sameRuns_of_respelling (h : Respelling tree other place settings file roots)
    (hu : (settings.withSources file roots).Unread tree tree.currentPath place)
    (hkeep : settings.KeepsCounts tree tree.currentPath file roots) (verbose : Bool) :
    SameRuns tree other file roots verbose := by
  have hbackup : (settings.withSources file roots).backupPath tree.currentPath =
      (settings.writtenOut tree.currentPath file roots).backupPath tree.currentPath :=
    (Settings.backupPath_writtenOut tree.isAbsolute_currentPath).symm
  rcases h.prepare_cases hu hkeep verbose with
    ⟨⟨error, printed⟩, hfirst, hsecond⟩ | ⟨analysis, printed, hfirst, hsecond⟩
  · refine ⟨by rw [hfirst, hsecond], fun input coloured => ⟨?_, fun options => ?_⟩⟩
    · rw [runCheck, runCheck, hfirst, hsecond]
      rfl
    · rw [runClean, runClean, hfirst, hsecond]
      rfl
  · refine ⟨by rw [hfirst, hsecond]; rfl, fun input coloured => ⟨?_, fun options => ?_⟩⟩
    · rw [runCheck, runCheck, hfirst, hsecond]
      rfl
    · obtain ⟨houtcome, hstate⟩ := analysis.clean_congr options Dialogue.confirm ⟨"", input⟩
        h.sameBut.outline hbackup
      rw [runClean, runClean, hfirst, hsecond]
      dsimp only
      rw [houtcome, hstate]
      split <;> rfl

/-! ### A project that bears the name of its source directory -/

/-- A project in a directory `app` with a source directory of that name, two catalogs, and a
settings file with a text. -/
def namesake (text : String) : FileTree where
  entries :=
    [(["app"], .directory Entry.newDirectoryMode),
      (["app", ".i18nsweeprc.json"], .file text.toUTF8 Entry.newFileMode),
      (["app", "zh.json"],
        .file (Catalog.mk [("home", .string "x")]).toText.toUTF8 Entry.newFileMode),
      (["app", "locales"], .directory Entry.newDirectoryMode),
      (["app", "locales", "zh.json"],
        .file (Catalog.mk [("home", .string "x"), ("old", .string "y")]).toText.toUTF8
          Entry.newFileMode),
      (["app", "app"], .directory Entry.newDirectoryMode),
      (["app", "app", "page.ts"], .file "'home'".toUTF8 Entry.newFileMode)]
  current := ["app"]

def silentText : String := "\x7b\x7d"

def sourcesText (file : String) : String :=
  "\x7b\"messagesFile\":\"" ++ file ++ "\",\"sourceRoots\":[\"app\"]\x7d"

theorem respelling_namesake {file : String} (hfile : file ∈ ["zh.json", "locales/zh.json"]) :
    Respelling (namesake silentText) (namesake (sourcesText file)) ["app", ".i18nsweeprc.json"]
      .default file ["app"] := by
  have hloads : Settings.default ∈ ((Settings.load (namesake silentText)
      (namesake silentText).currentPath).map (·.settings)).toOption := by
    decide +kernel
  have hother : ∀ file ∈ ["zh.json", "locales/zh.json"], file.startsWith "/" = false ∧
      Settings.default.withSources file ["app"] ∈ ((Settings.load (namesake (sourcesText file))
        (namesake (sourcesText file)).currentPath).map (·.settings)).toOption := by
    decide +kernel
  obtain ⟨hrelative, hagain⟩ := hother file hfile
  exact ⟨by decide +kernel, ⟨_, _, _, find_of_place? (by decide +kernel) rfl, rfl⟩,
    eq_ok_of_mem_toOption hloads, eq_ok_of_mem_toOption hagain, hrelative, List.cons_ne_nil _ _⟩

theorem unread_namesake {file : String} (hfile : file ∈ ["zh.json", "locales/zh.json"]) :
    (Settings.default.withSources file ["app"]).Unread (namesake silentText)
      (namesake silentText).currentPath ["app", ".i18nsweeprc.json"] := by
  have hread : ∀ file ∈ ["zh.json", "locales/zh.json"],
      (namesake silentText).place? ((Settings.default.withSources file ["app"]).messagesPath
        (namesake silentText).currentPath) ≠ some ["app", ".i18nsweeprc.json"] ∧
      ∀ filter ∈ (SourceFilter.ofSettings (Settings.default.withSources file ["app"])
        (namesake silentText).currentPath).toOption,
        ∀ item ∈ Corpus.paths (namesake silentText)
          ((Settings.default.withSources file ["app"]).sourcePaths
            (namesake silentText).currentPath) filter,
          (namesake silentText).place? item.1 ≠ some ["app", ".i18nsweeprc.json"] := by
    decide +kernel
  obtain ⟨hcatalog, hsources⟩ := hread file hfile
  exact ⟨hcatalog, fun filter hfilter => hsources filter (by rw [hfilter]; rfl)⟩

/-- A catalog file in a directory of its own means the same on the command line. -/
theorem sameRuns_namesake :
    (runCheck ⟨some "locales/zh.json", ["app"], false⟩
        ⟨namesake silentText, [], false⟩).exitCode = 1 ∧
      SameRuns (namesake silentText) (namesake (sourcesText "locales/zh.json")) "locales/zh.json"
        ["app"] false :=
  ⟨by decide +kernel, sameRuns_of_respelling (respelling_namesake (.tail _ (.head _)))
    (unread_namesake (.tail _ (.head _))) (.inr (.inl (by decide +kernel))) false⟩

/-- A catalog file right in the project hides the uses below a directory with the name of the
project if it is named on the command line. -/
theorem use_hidden_by_override :
    ¬ ∀ (tree other : FileTree) (place : Location) (settings : Settings) (file : String)
        (roots : List String), Respelling tree other place settings file roots →
      (settings.withSources file roots).Unread tree tree.currentPath place →
      SameRuns tree other file roots false := by
  intro hall
  obtain ⟨-, hruns⟩ := hall _ _ _ _ "zh.json" _ (respelling_namesake (.head _))
    (unread_namesake (.head _))
  have hcodes : (runCheck ⟨some "zh.json", ["app"], false⟩
        ⟨namesake silentText, [], false⟩).exitCode = 1 ∧
      (runCheck ⟨none, [], false⟩ ⟨namesake (sourcesText "zh.json"), [], false⟩).exitCode = 0 := by
    decide +kernel
  have hshown := congrArg (·.2.1) (hruns [] false).1
  exact absurd (hcodes.1.symm.trans (hshown.trans hcodes.2)) (by decide)

end CommandLine

end LocaleTidy
