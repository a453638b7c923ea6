import LocaleTidy.Proofs.Clean.Steps
import LocaleTidy.Proofs.Corpus.Relocation

/-!
# A project elsewhere

The analysis of a project is the same in whatever directory it is, up to the directory in front of
the paths, as long as no ignored pattern sees that directory. A pattern is matched against the path
as it is as well, and so it may ignore a file because of where the project is.
-/

namespace LocaleTidy

open FileTree
open LocaleTidy.Path (IsInner)

variable {tree other : FileTree} {settings : Settings} {root copy : Path} {here there : Location}
  {filter : SourceFilter}

/-- The filter of a project elsewhere is the same but for its base. -/
theorem SourceFilter.ofSettings_basedAt (h : ofSettings settings root = .ok filter) :
    filter.basedAt root = filter ∧
      ∀ copy, ofSettings settings copy = .ok (filter.basedAt copy) := by
  unfold ofSettings make at h ⊢
  cases hsplit : splitIgnores settings.ignores with
  | error fault => simp [hsplit, bind, Except.bind] at h
  | ok lists =>
      simp only [hsplit, bind, Except.bind, pure, Except.pure, Except.ok.injEq] at h ⊢
      subst h
      exact ⟨rfl, fun _ => rfl⟩

namespace Settings

/-- The catalog file and the source directories are named from the project on, downwards. -/
def IsInner (settings : Settings) : Prop :=
  ∀ text ∈ settings.messagesFile :: settings.sourceRoots, Path.IsInner text

/-- What is asked of a place, for the project at it to be analysed as elsewhere: all paths are
short enough to be followed, and no pattern that matches the path of a source file as it is matches
it only because of the directory of the project. -/
structure Movable (settings : Settings) (tree : FileTree) (root : Path) (here : Location) :
    Prop where
  fits : ∀ text ∈ settings.messagesFile :: settings.sourceRoots, tree.Fits root here text
  sees : ∀ filter, SourceFilter.ofSettings settings root = .ok filter →
    ∀ source ∈ settings.sourcePaths root, ∀ path ∈ (tree.listing source).files,
      filter.SeesRelative root path

end Settings

namespace Analysis

/-- Two analyses that tell the same of files at the same steps below two directories. -/
structure Alike (root copy : Path) (analysis twin : Analysis) : Prop where
  catalog : twin.catalog = analysis.catalog
  verdicts : List.Forall₂ (Verdict.Alike (Path.SameRelative root copy)) analysis.verdicts
    twin.verdicts
  sourceFiles : twin.sourceFiles = analysis.sourceFiles
  unusedKeys : twin.unusedKeys = analysis.unusedKeys

theorem unusedKeys_of_alike {R : Path → Path → Prop} {verdicts twins : List Verdict}
    (h : List.Forall₂ (Verdict.Alike R) verdicts twins) :
    ((twins.filter fun verdict => !verdict.isUsed).map (·.key)) =
      (verdicts.filter fun verdict => !verdict.isUsed).map (·.key) := by
  induction h with
  | nil => rfl
  | cons hverdict _ ih =>
      simp only [List.filter_cons, hverdict.isUsed_eq]
      split
      · rw [List.map_cons, List.map_cons, hverdict.key, ih]
      · exact ih

theorem settled_of_movable (hm : settings.Movable tree root here)
    (hfilter : SourceFilter.ofSettings settings root = .ok (filter.basedAt root)) :
    Corpus.Settled tree root here filter settings.sourceRoots where
  fits text htext := hm.fits text (List.mem_cons_of_mem _ htext)
  sees _ htext path hpath := hm.sees _ hfilter _ (List.mem_map_of_mem htext) path hpath

theorem load_relocated (h : Relocation tree other root copy here there) (hi : settings.IsInner)
    (hmc : settings.Movable other copy there) {catalog : Catalog}
    (hload : Catalog.load tree (settings.messagesPath root) = .ok catalog) :
    Catalog.load other (settings.messagesPath copy) = .ok catalog := by
  rw [Catalog.load, bind_eq_ok] at hload ⊢
  obtain ⟨text, htext, hparse⟩ := hload
  rw [mapError_eq_ok] at htext hparse
  refine ⟨text, mapError_eq_ok.mpr (Corpus.readText_of_find (fun hfind => ?_) htext),
    mapError_eq_ok.mpr hparse⟩
  exact ⟨_, (h.find_join_of_fits (hi _ List.mem_cons_self) (hmc.fits _ List.mem_cons_self)
    hfind).2⟩

/-- The analysis of a project succeeds elsewhere as well, with the same findings. -/
theorem exists_alike (h : Relocation tree other root copy here there) (hi : settings.IsInner)
    (hm : settings.Movable tree root here) (hmc : settings.Movable other copy there)
    {analysis : Analysis} (ha : analyze tree settings root = .ok analysis) :
    ∃ twin, analyze other settings copy = .ok twin ∧ Alike root copy analysis twin := by
  obtain ⟨catalog, filter, hload, hfilter, rfl⟩ := analyze_eq_ok_iff.mp ha
  obtain ⟨hbased, hcopied⟩ := SourceFilter.ofSettings_basedAt hfilter
  have hfiles := Corpus.forall₂_files h (fun text htext => hi text (List.mem_cons_of_mem _ htext))
    (settled_of_movable hm (hbased.symm ▸ hfilter)) (settled_of_movable hmc (hcopied copy))
  rw [hbased] at hfiles
  have hverdicts : List.Forall₂ (Verdict.Alike (Path.SameRelative root copy))
      (ofParts tree settings root catalog filter).verdicts
      (ofParts other settings copy catalog (filter.basedAt copy)).verdicts := by
    rw [verdicts_ofParts, verdicts_ofParts, List.forall₂_map_left_iff,
      List.forall₂_map_right_iff, List.forall₂_same]
    exact fun key _ => Corpus.decide_alike hfiles _ key
  exact ⟨_, analyze_eq_ok_iff.mpr
    ⟨catalog, _, load_relocated h hi hmc hload, hcopied copy, rfl⟩,
    ⟨rfl, hverdicts, hfiles.length_eq.symm, unusedKeys_of_alike hverdicts⟩⟩

/-- A project all of whose patterns begin with a character can be moved to any absolute directory
below which the paths are short enough. -/
theorem movable_of_isAnchored (h : Relocation tree other root copy here there)
    (hi : settings.IsInner) (hroot : root.isAbsolute = true)
    (hanchored : ∀ entry ∈ settings.ignores, Glob.isPattern entry = true →
      Glob.isAnchored entry = true)
    (hfits : ∀ text ∈ settings.messagesFile :: settings.sourceRoots, tree.Fits root here text) :
    settings.Movable tree root here where
  fits := hfits
  sees filter hfilter source hsource path hpath := by
    obtain ⟨text, htext, rfl⟩ := List.mem_map.mp hsource
    have htext := List.mem_cons_of_mem settings.messagesFile htext
    obtain ⟨rest, hrest⟩ := Corpus.exists_comesUponAlike h.refl_of (hi text htext)
      (hfits text htext) (hfits text htext) hpath
    obtain ⟨before, -, -, habsolute, -⟩ := Path.split_join h.root_ne hrest.inner.relative
    refine SourceFilter.seesRelative_of_isAnchored hfilter hanchored ?_
    rw [hrest.path_eq, habsolute, hroot]

/-- A project is analysed alike in two directories: the analysis fails in both or in none, and
finds the same. -/
theorem analyze_relocated (h : Relocation tree other root copy here there)
    (hi : settings.IsInner) (hm : settings.Movable tree root here)
    (hmc : settings.Movable other copy there) :
    Option.Rel (Alike root copy) (analyze tree settings root).toOption
      (analyze other settings copy).toOption := by
  cases ha : analyze tree settings root with
  | ok analysis =>
      obtain ⟨twin, htwin, halike⟩ := exists_alike h hi hm hmc ha
      rw [htwin]
      exact .some halike
  | error error =>
      cases hc : analyze other settings copy with
      | ok twin =>
          obtain ⟨analysis, hanalysis, -⟩ := exists_alike h.symm hi hmc hm hc
          cases hanalysis.symm.trans ha
      | error fault => exact .none

/-! ### A project in two directories -/

/-- A project of one source file and a catalog, in the directories `build` and `work`. -/
def doubled : FileTree where
  entries := ["build", "work"].flatMap fun place =>
    [([place], .directory Entry.newDirectoryMode),
      ([place, "src"], .directory Entry.newDirectoryMode),
      ([place, "src", "app.ts"], .file "'home'".toUTF8 Entry.newFileMode),
      ([place, "locales"], .directory Entry.newDirectoryMode),
      ([place, "locales", "zh.json"],
        .file (Catalog.mk [("home", .string "x"), ("old", .string "y")]).toText.toUTF8
          Entry.newFileMode)]
  current := []

def doubledSettings (ignores : List String) : Settings :=
  { Settings.default with
    messagesFile := "locales/zh.json"
    sourceRoots := ["src"]
    ignores := ignores
    extensions := ["ts"]
    namespaceFunctions := []
    errorNamespaces := []
    bareLeafFallback := false }

theorem get?_doubled (names : List String) :
    doubled.get? (["work"] ++ names) = doubled.get? (["build"] ++ names) := by
  simp [doubled, FileTree.get?, List.lookup_cons]

theorem wellFormed_doubled : doubled.WellFormed := by decide +kernel

theorem relocation_doubled :
    Relocation doubled doubled ⟨"/build"⟩ ⟨"/work"⟩ ["build"] ["work"] where
  same := get?_doubled
  noLink names target h := by
    have hmem := mem_entriesBelow_of_get? h
    simp [doubled, entriesBelow, namesBelow?] at hmem
  wellFormed := wellFormed_doubled
  wellFormedCopy := wellFormed_doubled
  findRoot := ⟨Entry.newDirectoryMode, find_of_place? (by decide +kernel) rfl⟩
  findCopy := ⟨Entry.newDirectoryMode, find_of_place? (by decide +kernel) rfl⟩

theorem isInner_doubledSettings (ignores : List String) : (doubledSettings ignores).IsInner := by
  unfold Settings.IsInner
  simp only [doubledSettings]
  decide +kernel

theorem fits_doubled (place : String) (hplace : place = "build" ∨ place = "work")
    (ignores : List String) :
    ∀ text ∈ (doubledSettings ignores).messagesFile :: (doubledSettings ignores).sourceRoots,
      doubled.Fits ⟨"/" ++ place⟩ [place] text := by
  have hshort : ∀ place ∈ ["build", "work"], ∀ text ∈ ["locales/zh.json", "src"],
      ((Path.mk ("/" ++ place)).join text).text.utf8ByteSize < maxPathBytes ∧
        ∀ item ∈ doubled.entriesBelow ([place] ++ Path.stepNames text),
          (item.1.foldl Path.join ((Path.mk ("/" ++ place)).join text)).text.utf8ByteSize <
            maxPathBytes := by
    decide +kernel
  intro text htext
  obtain ⟨hself, hbelow⟩ := hshort place (by simpa using hplace) text htext
  exact fits_of_entries hself hbelow

/-- With a pattern that begins with a character, the project is the same in both directories. -/
theorem analyze_doubled :
    ∃ analysis twin, analyze doubled (doubledSettings ["src/old/*"]) ⟨"/build"⟩ = .ok analysis ∧
      analyze doubled (doubledSettings ["src/old/*"]) ⟨"/work"⟩ = .ok twin ∧
      analysis.unusedKeys = ["old"] ∧ Alike ⟨"/build"⟩ ⟨"/work"⟩ analysis twin := by
  have hmovable : ∀ place, place = "build" ∨ place = "work" →
      Relocation doubled doubled ⟨"/" ++ place⟩ ⟨"/" ++ place⟩ [place] [place] →
      (doubledSettings ["src/old/*"]).Movable doubled ⟨"/" ++ place⟩ [place] := by
    intro place hplace h
    refine movable_of_isAnchored h (isInner_doubledSettings _) ?_ ?_ (fits_doubled place hplace _)
    · rcases hplace with rfl | rfl <;> decide +kernel
    · intro entry hentry _
      rw [List.mem_singleton.mp hentry]
      decide +kernel
  have hrun : (analyze doubled (doubledSettings ["src/old/*"]) ⟨"/build"⟩).toOption.map
      (·.unusedKeys) = some ["old"] := by
    decide +kernel
  obtain ⟨analysis, hmem, hunused⟩ := Option.map_eq_some_iff.mp hrun
  have hanalysis := eq_ok_of_mem_toOption hmem
  have hrel := analyze_relocated relocation_doubled (isInner_doubledSettings ["src/old/*"])
    (hmovable "build" (.inl rfl) relocation_doubled.refl_of)
    (hmovable "work" (.inr rfl) relocation_doubled.symm.refl_of)
  rw [hanalysis] at hrel
  cases htwin : analyze doubled (doubledSettings ["src/old/*"]) ⟨"/work"⟩ with
  | error error =>
      rw [htwin] at hrel
      cases hrel
  | ok twin =>
      rw [htwin] at hrel
      cases hrel with
      | some halike => exact ⟨analysis, twin, hanalysis, rfl, hunused, halike⟩

/-- A pattern that names a directory above the project takes all its source files away. -/
theorem source_lost_below_build :
    ¬ ∀ (tree other : FileTree) (settings : Settings) (root copy : Path) (here there : Location),
        settings.check = .ok () → settings.IsInner →
      Relocation tree other root copy here there →
      (∀ text ∈ settings.messagesFile :: settings.sourceRoots,
        tree.Fits root here text ∧ other.Fits copy there text) →
      Option.Rel (Alike root copy) (analyze tree settings root).toOption
        (analyze other settings copy).toOption := by
  intro hall
  have hrel := hall doubled doubled (doubledSettings ["**/build/**"]) ⟨"/build"⟩ ⟨"/work"⟩ ["build"]
    ["work"] (eq_ok_of_mem_toOption (by decide +kernel)) (isInner_doubledSettings _)
    relocation_doubled fun text htext => ⟨fits_doubled "build" (.inl rfl) _ text htext,
      fits_doubled "work" (.inr rfl) _ text htext⟩
  have hbuild : (analyze doubled (doubledSettings ["**/build/**"]) ⟨"/build"⟩).toOption.map
      (·.unusedKeys) = some ["home", "old"] := by
    decide +kernel
  have hwork : (analyze doubled (doubledSettings ["**/build/**"]) ⟨"/work"⟩).toOption.map
      (·.unusedKeys) = some ["old"] := by
    decide +kernel
  obtain ⟨analysis, hanalysis, hunused⟩ := Option.map_eq_some_iff.mp hbuild
  obtain ⟨twin, htwin, hagain⟩ := Option.map_eq_some_iff.mp hwork
  rw [hanalysis, htwin] at hrel
  cases hrel with
  | some halike =>
      rw [halike.unusedKeys, hunused] at hagain
      exact absurd hagain (by decide)

end Analysis

end LocaleTidy
