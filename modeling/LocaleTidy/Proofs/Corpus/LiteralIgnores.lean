import LocaleTidy.Proofs.Corpus.Loading

/-!
# Ignored paths

An ignored entry without a wildcard names a file or a directory below the root of a project. What
it begins is left out if its first piece is a step below the root; an entry that begins at the root
directory or with a dot begins no relative path, and nothing is left out.
-/

namespace LocaleTidy

open FileTree
open LocaleTidy.Path (Component stepOf? firstStep?)
open Text (split)

variable {tree : FileTree} {settings : Settings} {root source path : Path} {entry : String}

namespace Path

/-- A text whose first piece is neither the root directory nor the current one. -/
structure IsBare (text : String) : Prop where
  relative : text.startsWith "/" = false
  ne_here : (split '/' text).head? ≠ some "."

instance (text : String) : Decidable (IsBare text) :=
  decidable_of_iff (text.startsWith "/" = false ∧ (split '/' text).head? ≠ some ".")
    ⟨fun h => ⟨h.1, h.2⟩, fun h => ⟨h.relative, h.ne_here⟩⟩

theorem eq_of_firstStep? {piece : String} {more : Bool} (h : firstStep? piece more = some .here) :
    piece = "." := by
  unfold firstStep? stepOf? at h
  split at h
  · split at h <;> cases h
  · split at h
    · assumption
    · split at h
      · cases h
      · split at h <;> cases h

theorem IsBare.components_eq (h : IsBare entry) :
    (Path.mk entry).components = (split '/' entry).filterMap stepOf? := by
  rcases components_of_relative h.relative with hsteps | hsteps
  · exact hsteps
  · exfalso
    obtain ⟨first, rest, hsplit⟩ := exists_split entry
    have hhead : (Path.mk entry).components.head? = some .here := by rw [hsteps]; rfl
    rw [components_of_split hsplit] at hhead
    cases hstep : firstStep? first !rest.isEmpty with
    | none =>
        rw [hstep] at hhead
        exact (ne_of_mem_filterMap_stepOf? (List.mem_of_head? hhead)).2 rfl
    | some step =>
        rw [hstep] at hhead
        obtain rfl : step = .here := Option.some.inj hhead
        apply h.ne_here
        rw [hsplit, List.head?_cons, eq_of_firstStep? hstep]

theorem IsBare.components_join (h : IsBare entry) (hroot : root.text ≠ "") :
    (root.join entry).components = root.components ++ (Path.mk entry).components := by
  rw [Path.components_join hroot h.relative, h.components_eq]

theorem head?_components_of_not_isBare (h : ¬ IsBare entry) :
    (Path.mk entry).components.head? = some .root ∨
      (Path.mk entry).components.head? = some .here := by
  by_cases habsolute : entry.startsWith "/" = true
  · exact .inl (isAbsolute_iff.mp habsolute)
  · right
    have hdot : (split '/' entry).head? = some "." := by
      by_contra hne
      exact h ⟨by simpa using habsolute, hne⟩
    obtain ⟨rest, hsplit⟩ := List.head?_eq_some_iff.mp hdot
    rw [components_of_split hsplit]
    rfl

/-- Past the steps of a path that is not empty, there are no others than names and steps upwards. -/
theorem ne_of_mem_drop (hroot : root.text ≠ "") {step : Component}
    (h : step ∈ path.components.drop root.components.length) : step ≠ .root ∧ step ≠ .here := by
  obtain ⟨first, rest, hsplit⟩ := exists_split root.text
  obtain ⟨other, more, hpath⟩ := exists_split path.text
  have hmore : step ∈ more.filterMap stepOf? := by
    rw [length_components_of_ne hroot hsplit, Nat.add_comm, ← List.drop_drop,
      components_of_split hpath] at h
    have hmem := List.mem_of_mem_drop h
    cases hstep : firstStep? other !more.isEmpty with
    | none =>
        rw [hstep] at hmem
        exact List.mem_of_mem_drop hmem
    | some step =>
        rw [hstep] at hmem
        exact hmem
  exact ne_of_mem_filterMap_stepOf? hmore

end Path

namespace Corpus

/-- No file with the steps of a path is loaded from the sources of a project. -/
def Drops (tree : FileTree) (settings : Settings) (root : Path) (filter : SourceFilter)
    (path : Path) : Prop :=
  ∀ item ∈ paths tree (settings.sourcePaths root) filter, item.1.components ≠ path.components

variable {filter : SourceFilter}

structure IgnoresOnly (filter : SourceFilter) (root : Path) (entry : String) : Prop where
  base : filter.base = some root
  globs : filter.globs = []
  ignored : filter.ignored = [⟨entry⟩]

theorem exists_ignoresOnly (root : Path) (hignores : settings.ignores = [entry])
    (hliteral : Glob.isPattern entry = false) :
    ∃ filter, SourceFilter.ofSettings settings root = .ok filter ∧
      IgnoresOnly filter root entry ∧ filter.extensions = settings.extensions := by
  refine ⟨⟨settings.extensions, [], [⟨entry⟩], settings.excludedName, some root⟩, ?_,
    ⟨rfl, rfl, rfl⟩, rfl⟩
  rw [SourceFilter.ofSettings, SourceFilter.make, hignores]
  simp only [SourceFilter.splitIgnores, hliteral]
  rfl

/-- A file below the root is passed over if the steps of the root and of the entry begin it. -/
theorem judge_eq_none_iff (h : IgnoresOnly filter root entry)
    (hextension : filter.hasExtension path = true) (hbelow : root.components <+: path.components)
    (start : Path) :
    filter.judge start path = none ↔
      root.components ++ (Path.mk entry).components <+: path.components := by
  obtain ⟨relative, hrest, hsteps⟩ := Path.exists_relativeTo? hbelow
  obtain rfl : relative = filter.relative start path :=
    Option.some.inj (hrest.symm.trans (SourceFilter.relativeTo?_base start h.base hbelow))
  have hignored : filter.isIgnored path (filter.relative start path) =
      (filter.relative start path).startsWith ⟨entry⟩ := by
    simp [SourceFilter.isIgnored, h.globs, h.ignored]
  have hjudge : filter.judge start path = none ↔
      (Path.mk entry).components <+: path.components.drop root.components.length := by
    rw [← hsteps, ← List.isPrefixOf_iff_prefix, ← Path.startsWith, ← hignored]
    simp [SourceFilter.judge, hextension]
  obtain ⟨below, hpath⟩ := hbelow
  rw [hjudge, ← hpath, List.drop_left, List.prefix_append_right_inj]

/-- A walked file is dropped if the filter passes it over, from whichever source it is walked. -/
theorem drops_iff (h : IgnoresOnly filter root entry) (hsource : source ∈ settings.sourcePaths root)
    (hwalked : path ∈ (tree.listing source).files) (hextension : filter.hasExtension path = true)
    (hbelow : root.components <+: path.components) :
    Drops tree settings root filter path ↔
      root.components ++ (Path.mk entry).components <+: path.components := by
  rw [← judge_eq_none_iff h hextension hbelow source]
  constructor
  · intro hdrops
    by_contra hjudge
    obtain ⟨excluded, hexcluded⟩ := Option.ne_none_iff_exists'.mp hjudge
    have hmem : (path, excluded) ∈ candidates tree filter source :=
      List.mem_filterMap.mpr ⟨path, hwalked, by rw [hexcluded]; rfl⟩
    obtain ⟨first, hfirst, hsame⟩ :=
      exists_mem_inOrder (List.mem_flatMap.mpr ⟨source, hsource, hmem⟩)
    rw [← paths_eq] at hfirst
    exact hdrops first hfirst hsame
  · intro hjudge item hitem hsame
    rw [paths_eq] at hitem
    obtain ⟨other, -, hmem⟩ := List.mem_flatMap.mp (mem_of_mem_inOrder hitem)
    obtain ⟨twin, -, hjudged⟩ := List.mem_filterMap.mp hmem
    obtain ⟨excluded, hexcluded, rfl⟩ := Option.map_eq_some_iff.mp hjudged
    have htwin : filter.hasExtension twin = true := by
      rw [SourceFilter.hasExtension, SourceFilter.extension?_congr (congrArg _ hsame)]
      exact hextension
    have hnone : filter.judge other twin = none := by
      rw [judge_eq_none_iff h htwin (hsame ▸ hbelow)]
      rw [judge_eq_none_iff h hextension hbelow] at hjudge
      exact hsame ▸ hjudge
    rw [hnone] at hexcluded
    cases hexcluded

/-- Which walked files below the root an ignored entry without a wildcard drops. If the entry is
bare, or the root is the empty path, they are those below what it names. Else there are none. -/
theorem literal_ignore_drops (hsource : source ∈ settings.sourcePaths root)
    (hwalked : path ∈ (tree.listing source).files) (hbelow : path.startsWith root = true)
    (hextension : ∃ extension ∈ settings.extensions, path.extension? = some extension)
    (hignores : settings.ignores = [entry]) (hliteral : Glob.isPattern entry = false) :
    ∃ filter, SourceFilter.ofSettings settings root = .ok filter ∧
      (root.text = "" ∨ Path.IsBare entry → (Drops tree settings root filter path ↔
        path.startsWith (root.join entry) = true)) ∧
      (root.text ≠ "" → ¬ Path.IsBare entry → ¬ Drops tree settings root filter path) := by
  obtain ⟨filter, hfilter, honly, hextensions⟩ := exists_ignoresOnly root hignores hliteral
  rw [Path.startsWith, List.isPrefixOf_iff_prefix] at hbelow
  have hlisted : filter.hasExtension path = true := by
    obtain ⟨extension, hmem, hpath⟩ := hextension
    simp [SourceFilter.hasExtension, hpath, hextensions, hmem]
  have hdrops := drops_iff honly hsource hwalked hlisted hbelow
  refine ⟨filter, hfilter, fun hnamed => ?_, fun hroot hbare => ?_⟩
  · have hjoin : (root.join entry).components =
        root.components ++ (Path.mk entry).components := by
      by_cases hroot : root.text = ""
      · obtain rfl : root = ⟨""⟩ := by cases root; simp_all
        have hjoined : Path.join ⟨""⟩ entry = ⟨entry⟩ := by simp [Path.join]
        rw [hjoined]
        rfl
      · exact (hnamed.resolve_left hroot).components_join hroot
    rw [hdrops, Path.startsWith, List.isPrefixOf_iff_prefix, hjoin]
  · rw [hdrops]
    intro hprefix
    obtain ⟨rest, hrest⟩ := hprefix
    have hdropped : path.components.drop root.components.length =
        (Path.mk entry).components ++ rest := by
      rw [← hrest, List.append_assoc, List.drop_left]
    have hmem : ∀ step, (Path.mk entry).components.head? = some step →
        step ∈ path.components.drop root.components.length := by
      intro step hhead
      rw [hdropped]
      exact List.mem_append_left _ (List.mem_of_head? hhead)
    rcases Path.head?_components_of_not_isBare hbare with hhead | hhead
    · exact (Path.ne_of_mem_drop hroot (hmem _ hhead)).1 rfl
    · exact (Path.ne_of_mem_drop hroot (hmem _ hhead)).2 rfl

/-! ### A project with generated files -/

/-- A project in a directory `app` with a page, and one that is generated. -/
def generated : FileTree where
  entries :=
    [(["app"], .directory Entry.newDirectoryMode),
      (["app", "src"], .directory Entry.newDirectoryMode),
      (["app", "src", "page.ts"], .file "t('title')".toUTF8 Entry.newFileMode),
      (["app", "src", "generated"], .directory Entry.newDirectoryMode),
      (["app", "src", "generated", "page.ts"], .file "t('title')".toUTF8 Entry.newFileMode)]
  current := []

def ignoring (entry : String) : Settings := { Settings.default with ignores := [entry] }

theorem walked_generated (entry : String) :
    Path.mk "/app/src" ∈ (ignoring entry).sourcePaths ⟨"/app"⟩ ∧
      Path.mk "/app/src/generated/page.ts" ∈ (generated.listing ⟨"/app/src"⟩).files ∧
      ∃ extension ∈ (ignoring entry).extensions,
        (Path.mk "/app/src/generated/page.ts").extension? = some extension := by
  change Path.mk "/app/src" ∈ Settings.default.sourcePaths ⟨"/app"⟩ ∧ _ ∧
    ∃ extension ∈ Settings.default.extensions, _
  decide +kernel

/-- A bare entry with void pieces drops the generated page. -/
theorem literal_ignore_drops_generated :
    ∃ filter, SourceFilter.ofSettings (ignoring "src//generated/.") ⟨"/app"⟩ = .ok filter ∧
      Drops generated (ignoring "src//generated/.") ⟨"/app"⟩ filter
        ⟨"/app/src/generated/page.ts"⟩ := by
  obtain ⟨hsource, hwalked, hextension⟩ := walked_generated "src//generated/."
  obtain ⟨filter, hfilter, hdrops, -⟩ :=
    literal_ignore_drops hsource hwalked (by decide +kernel) hextension rfl (by decide +kernel)
  exact ⟨filter, hfilter, (hdrops (.inr (by decide +kernel))).mpr (by decide +kernel)⟩

/-- With a dot before it, an entry does not drop what it names. -/
theorem kept_behind_dot :
    ¬ ∀ (tree : FileTree) (settings : Settings) (root source path : Path) (entry : String),
      source ∈ settings.sourcePaths root → path ∈ (tree.listing source).files →
      path.startsWith root = true →
      (∃ extension ∈ settings.extensions, path.extension? = some extension) →
      settings.ignores = [entry] → Glob.isPattern entry = false →
      ∃ filter, SourceFilter.ofSettings settings root = .ok filter ∧
        (Drops tree settings root filter path ↔ path.startsWith (root.join entry) = true) := by
  intro hall
  obtain ⟨hsource, hwalked, hextension⟩ := walked_generated "./src/generated"
  have hliteral : Glob.isPattern "./src/generated" = false := by decide +kernel
  obtain ⟨filter, hfilter, hnamed⟩ := hall _ _ _ _ _ _ hsource hwalked (by decide +kernel)
    hextension rfl hliteral
  obtain ⟨again, hagain, honly, hextensions⟩ :=
    exists_ignoresOnly ⟨"/app"⟩ (rfl : (ignoring "./src/generated").ignores = _) hliteral
  obtain rfl : again = filter := Except.ok.inj (hagain.symm.trans hfilter)
  have hlisted : again.hasExtension ⟨"/app/src/generated/page.ts"⟩ = true := by
    rw [SourceFilter.hasExtension, hextensions]
    decide +kernel
  have hdrops := (drops_iff honly hsource hwalked hlisted (by decide +kernel)).mp
    (hnamed.mpr (by decide +kernel))
  exact absurd hdrops (by decide +kernel)

end Corpus

end LocaleTidy
