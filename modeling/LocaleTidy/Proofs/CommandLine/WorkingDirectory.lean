import LocaleTidy.Proofs.Clean.Viewpoint
import LocaleTidy.Proofs.CommandLine.Override

/-!
# Running a command below a project

The settings of a project hold in the directories below it, up to the next settings file or
repository. From such a directory `check` and `clean` do what they do from the project itself.
-/

namespace LocaleTidy

open FileTree

variable {tree : FileTree} {root place : Location} {names : List String} {name : String}

/-! ## Paths of directories -/

namespace FileTree

theorem isAbsolute_pathOf (place : Location) : (pathOf place).isAbsolute = true :=
  isAbsolute_currentPath ⟨[], place⟩

theorem pathOf_concat (hp : ∀ step ∈ place, IsName step) (hn : IsName name) :
    pathOf (place ++ [name]) = (pathOf place).join name := by
  have hrelative : ¬ name.startsWith "/" = true := by simp [Path.startsWith_slash_name hn]
  induction place using List.reverseRecOn generalizing name with
  | nil =>
      have hslash : (pathOf []).text.endsWith "/" = true := by
        simp [Path.endsWith_slash_iff, pathOf]
      rw [Path.join, if_neg hrelative, if_pos (by simp [hslash])]
      simp [pathOf]
  | append_singleton above last ih =>
      have hlast : IsName last := hp last (by simp)
      have habove := ih (fun step hstep => hp step (by simp [hstep])) hlast
        (by simp [Path.startsWith_slash_name hlast])
      have hnonempty : (pathOf (above ++ [last])).text ≠ "" :=
        Path.ne_of_isAbsolute (isAbsolute_pathOf _)
      have hslash : (pathOf (above ++ [last])).text.endsWith "/" = false := by
        obtain ⟨_, _, _, _, _, hend⟩ :=
          Path.join_name (Path.ne_of_isAbsolute (isAbsolute_pathOf above)) hlast
        rw [habove, hend]
      rw [Path.join, if_neg hrelative, if_neg (by simp [hslash, hnonempty]), pathOf,
        String.intercalate_append_of_ne_nil (by simp) (by simp), String.intercalate_singleton]
      simp only [pathOf, String.append_assoc]

theorem parent?_pathOf_concat (hp : ∀ step ∈ place, IsName step) (hn : IsName name) :
    (pathOf (place ++ [name])).parent? = some (pathOf place) := by
  rw [pathOf_concat hp hn]
  exact @parent?_join_currentPath ⟨[], place⟩ hp name hn

end FileTree

namespace Settings

/-- Settings that hold for a place hold below it, as long as there are neither other settings nor a
repository on the way. -/
theorem find?_of_clear (hn : ∀ step ∈ root ++ names, IsName step)
    (hthere : tree.isThere ((pathOf root).join fileName) = true)
    (hclear : ∀ above, above <+: names → above ≠ [] → ∀ name ∈ [fileName, repositoryMark],
      tree.isThere ((pathOf (root ++ above)).join name) = false) :
    find? tree (pathOf (root ++ names)) = some ((pathOf root).join fileName) := by
  induction names using List.reverseRecOn with
  | nil =>
      rw [List.append_nil]
      exact find?_of_isThere hthere
  | append_singleton names name ih =>
      rw [← List.append_assoc] at hn ⊢
      have hplace : ∀ step ∈ root ++ names, IsName step := fun step hstep =>
        hn step (List.mem_append_left _ hstep)
      have hfound := ih hplace fun above habove =>
        hclear above (habove.trans (List.prefix_append _ _))
      have hhere : ∀ file ∈ [fileName, repositoryMark],
          tree.isThere ((pathOf (root ++ names ++ [name])).join file) = false := by
        rw [List.append_assoc]
        exact hclear _ (List.prefix_refl _) (by simp)
      rw [find?_eq, hhere fileName (by simp), hhere repositoryMark (by simp),
        parent?_pathOf_concat hplace (hn name (by simp))]
      exact hfound

/-- A directory below a project with a settings file, with neither other settings nor a repository
on the way. -/
structure Below (tree : FileTree) (root : Location) (names : List String) : Prop where
  wellFormed : tree.WellFormed
  directory : tree.IsDirectory (root ++ names)
  there : tree.isThere ((pathOf root).join fileName) = true
  clear : ∀ above, above <+: names → above ≠ [] → ∀ name ∈ [fileName, repositoryMark],
    tree.isThere ((pathOf (root ++ above)).join name) = false

namespace Below

variable (h : Below tree root names)

include h

theorem isName : ∀ step ∈ root ++ names, IsName step :=
  (h.wellFormed.inDirectory h.directory).isName_current

theorem find?_eq (place : Location) :
    find? (tree.inDirectory place) (pathOf (root ++ names)) =
      some ((pathOf root).join fileName) := by
  refine find?_of_clear h.isName ?_ fun above habove hne name hname => ?_
  · rw [isThere_inDirectory place (Path.isAbsolute_join (isAbsolute_pathOf root) _), h.there]
  · rw [isThere_inDirectory place (Path.isAbsolute_join (isAbsolute_pathOf _) _),
      h.clear above habove hne name hname]

/-- The settings that hold below a project are those of the project, and the project is their
root. -/
theorem load_eq (place : Location) :
    load (tree.inDirectory place) (pathOf (root ++ names)) = do
      let path := (pathOf root).join fileName
      let text ← (tree.readText path).mapError (.unreadableSettings path)
      let settings ← (parse text).mapError (.malformedSettings path)
      settings.check.mapError .invalidSettings
      return ⟨settings, pathOf root, true⟩ := by
  have hroot : ∀ step ∈ root, IsName step := fun step hstep =>
    h.isName step (List.mem_append_left _ hstep)
  have hparent : ((pathOf root).join fileName).parent? = some (pathOf root) :=
    @parent?_join_currentPath ⟨[], root⟩ hroot fileName (by decide)
  rw [load, h.find?_eq place]
  simp only [readText_inDirectory place (Path.isAbsolute_join (isAbsolute_pathOf root) _),
    hparent, Option.getD_some]

theorem above : Below tree root [] where
  wellFormed := h.wellFormed
  directory := by
    rw [List.append_nil]
    by_cases hnames : names = []
    · simpa [hnames] using h.directory
    · obtain ⟨mode, hmode⟩ := h.directory
      exact h.wellFormed.toRooted.isDirectory_above (by simp [hmode]) hnames
  there := h.there
  clear above habove hne := (hne (List.prefix_nil.mp habove)).elim

theorem load_eq_load (place other : Location) :
    load (tree.inDirectory place) (pathOf (root ++ names)) =
      load (tree.inDirectory other) (pathOf root) := by
  have hroot := h.above.load_eq other
  rw [List.append_nil] at hroot
  rw [h.load_eq place, hroot]

theorem root_of_load {loaded : Loaded} {place : Location}
    (hload : load (tree.inDirectory place) (pathOf root) = .ok loaded) :
    loaded.root = pathOf root := by
  have hroot := h.above.load_eq place
  rw [List.append_nil, hload] at hroot
  obtain ⟨_, -, hrest⟩ := bind_eq_ok.mp hroot.symm
  obtain ⟨_, -, hrest⟩ := bind_eq_ok.mp hrest
  obtain ⟨_, -, hrest⟩ := bind_eq_ok.mp hrest
  rw [← pure_eq_ok.mp hrest]

end Below

end Settings

namespace CommandLine

variable {common : CommonArguments} {arguments : List String}

structure CommonArguments.IsAbsolute (common : CommonArguments) : Prop where
  messagesFile : ∀ file ∈ common.messagesFile, file.startsWith "/" = true
  sourceRoots : ∀ root ∈ common.sourceRoots, root.startsWith "/" = true

def Command.common? : Command → Option CommonArguments
  | .check common => some common
  | .clean common _ => some common
  | .init => none

def Finished.inDirectory (finished : Finished) (place : Location) : Finished :=
  { finished with tree := finished.tree.inDirectory place }

theorem override_of_isAbsolute (hc : common.IsAbsolute) (current other : Path)
    (settings : Settings) : common.override current settings = common.override other settings := by
  have hjoin : ∀ text : String, text.startsWith "/" = true →
      (current.join text).text = (other.join text).text := by
    intro text htext
    rw [Path.join, Path.join, if_pos htext, if_pos htext]
  obtain ⟨file, roots, verbose⟩ := common
  have hroots : roots.map (fun root => (current.join root).text) =
      roots.map fun root => (other.join root).text :=
    List.map_congr_left fun root hroot => hjoin root (hc.sourceRoots root hroot)
  cases file with
  | none => simp only [CommonArguments.override, hroots]
  | some file => simp only [CommonArguments.override, hroots, hjoin file (hc.messagesFile file rfl)]

section Runs

variable (h : Settings.Below tree root names)

include h

theorem isAbsolute_of_prepare {prepared : Prepared}
    (hprepare : prepare common (tree.inDirectory root) = .ok prepared) :
    prepared.root.isAbsolute = true ∧ prepared.analysis.messagesPath.isAbsolute = true := by
  rw [prepare, currentPath_inDirectory] at hprepare
  cases hload : Settings.load (tree.inDirectory root) (pathOf root) with
  | error error =>
      rw [hload] at hprepare
      cases hprepare
  | ok loaded =>
      have hroot : loaded.root.isAbsolute = true := h.root_of_load hload ▸ isAbsolute_pathOf root
      rw [hload] at hprepare
      dsimp only at hprepare
      split at hprepare
      · cases hprepare
      · rename_i analysis hanalysis
        obtain ⟨_, _, _, hpath, -⟩ := analyze_eq_ok hanalysis
        cases hprepare
        exact ⟨hroot, hpath ▸ Path.isAbsolute_join hroot _⟩

variable (hc : common.IsAbsolute)

include hc

theorem prepare_below :
    prepare common (tree.inDirectory (root ++ names)) =
      prepare common (tree.inDirectory root) := by
  rw [prepare, prepare, currentPath_inDirectory, currentPath_inDirectory,
    h.load_eq_load _ root]
  cases hload : Settings.load (tree.inDirectory root) (pathOf root) with
  | error error => rfl
  | ok loaded =>
      have hroot := h.root_of_load hload
      have habsolute : loaded.root.isAbsolute = true := hroot ▸ isAbsolute_pathOf root
      simp only [override_of_isAbsolute hc (pathOf (root ++ names)) (pathOf root),
        analyze_inDirectory _ habsolute]

theorem runCheck_below (input : List Char) (coloured : Bool) :
    runCheck common ⟨tree.inDirectory (root ++ names), input, coloured⟩ =
      (runCheck common ⟨tree.inDirectory root, input, coloured⟩).inDirectory (root ++ names) := by
  rw [runCheck, runCheck, prepare_below h hc]
  cases prepare common (tree.inDirectory root) <;> rfl

theorem runClean_below (options : CleanOptions) (input : List Char) (coloured : Bool) :
    runClean common options ⟨tree.inDirectory (root ++ names), input, coloured⟩ =
      (runClean common options ⟨tree.inDirectory root, input, coloured⟩).inDirectory
        (root ++ names) := by
  rw [runClean, runClean, prepare_below h hc]
  cases hprepare : prepare common (tree.inDirectory root) with
  | error failure => rfl
  | ok prepared =>
      obtain ⟨hroot, hpath⟩ := isAbsolute_of_prepare h hprepare
      dsimp only
      rw [Analysis.clean_inDirectory _ _ (root ++ names) hroot hpath,
        Analysis.clean_inDirectory _ _ root hroot hpath]
      generalize prepared.analysis.clean prepared.settings prepared.root options Dialogue.confirm
        tree ⟨"", input⟩ = cleaned
      rcases cleaned with ⟨error | outcome, left, state⟩ <;> rfl

end Runs

/-- From a directory below a project, with overrides that are written from the root directory, a
command other than `init` does what it does from the project: it prints the same, ends with the
same exit code, and leaves the same of the tree and of the input. -/
theorem run_below (h : Settings.Below tree root names)
    (hcommand : ∀ command, readCommand arguments = .ok (some command) →
      ∃ common, command.common? = some common ∧ common.IsAbsolute)
    (input : List Char) (coloured : Bool) :
    run arguments ⟨tree.inDirectory (root ++ names), input, coloured⟩ =
      (run arguments ⟨tree.inDirectory root, input, coloured⟩).map
        (·.inDirectory (root ++ names)) := by
  rw [run, run]
  cases hread : readCommand arguments with
  | error refusal => rfl
  | ok named =>
      rcases named with _ | command
      · rfl
      · obtain ⟨common, hcommon, hc⟩ := hcommand command hread
        cases command with
        | check _ =>
            cases hcommon
            exact congrArg Except.ok (runCheck_below h hc input coloured)
        | clean _ options =>
            cases hcommon
            exact congrArg Except.ok (runClean_below h hc options input coloured)
        | init => cases hcommon

theorem below_namesake : Settings.Below (namesake silentText) ["app"] ["locales"] where
  wellFormed := by decide +kernel
  directory := by decide +kernel
  there := by decide +kernel
  clear := by
    intro above habove hne
    obtain rfl : above = ["locales"] := by
      obtain ⟨name, rest, rfl⟩ := List.exists_cons_of_ne_nil hne
      obtain ⟨rfl, hrest⟩ := List.cons_prefix_cons.mp habove
      rw [List.prefix_nil.mp hrest]
    decide +kernel

/-- A clean-up that makes a backup, from the project and from the directory of its catalog. -/
theorem run_below_namesake :
    let arguments :=
      ["clean", "--yes", "--messages-file=/app/locales/zh.json", "--source-root", "/app/app"]
    (run arguments ⟨(namesake silentText).inDirectory ["app"], [], false⟩).toOption.any
        (fun finished => finished.tree.isThere ⟨"/app/locales/zh.json.bak"⟩) = true ∧
      run arguments ⟨(namesake silentText).inDirectory ["app", "locales"], [], false⟩ =
        (run arguments ⟨(namesake silentText).inDirectory ["app"], [], false⟩).map
          (·.inDirectory ["app", "locales"]) := by
  refine ⟨by decide +kernel, run_below below_namesake ?_ [] false⟩
  intro command hcommand
  cases (hcommand : Except.ok (some (Command.clean
    ⟨some "/app/locales/zh.json", ["/app/app"], false⟩ ⟨true, false, false⟩)) = _)
  exact ⟨_, rfl, by simp; decide +kernel, by simp; decide +kernel⟩

end CommandLine

end LocaleTidy
