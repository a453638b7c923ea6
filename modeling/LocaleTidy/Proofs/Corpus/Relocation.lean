import LocaleTidy.Proofs.Corpus.Order
import LocaleTidy.Proofs.FileTree.Relocation
import LocaleTidy.Proofs.FileTree.Writing
import LocaleTidy.Proofs.Glob.Anchored
import LocaleTidy.Proofs.Usage.Relabelling

/-!
# Source files of a project elsewhere

A project has the same source files in whatever directory it is, as long as no pattern sees more
of a path than what lies below that directory.
-/

namespace LocaleTidy

open FileTree
open LocaleTidy.Path (Component IsInner EndsInStep stepNames tidy below)

/-! ## Filters -/

namespace SourceFilter

variable {filter : SourceFilter} {root start path relative : Path} {text : String}

def basedAt (filter : SourceFilter) (root : Path) : SourceFilter :=
  { filter with base := some root }

@[simp] theorem hasExtension_basedAt :
    (filter.basedAt root).hasExtension path = filter.hasExtension path := rfl

@[simp] theorem isIgnored_basedAt :
    (filter.basedAt root).isIgnored path relative = filter.isIgnored path relative := rfl

@[simp] theorem isExcluded_basedAt :
    (filter.basedAt root).isExcluded relative = filter.isExcluded relative := rfl

/-- Every pattern that matches a path as it is matches it from the directory on as well. -/
def SeesRelative (filter : SourceFilter) (root path : Path) : Prop :=
  ∀ glob ∈ filter.globs, glob.matchesPath path = true →
    ∀ relative ∈ path.relativeTo? root, glob.matchesPath relative = true

/-- The patterns of a filter are those of the ignored entries that are written as patterns. -/
theorem exists_entry_of_splitIgnores {ignores : List String} {globs : List Glob}
    {paths : List Path} (h : splitIgnores ignores = .ok (globs, paths)) {glob : Glob}
    (hglob : glob ∈ globs) :
    ∃ entry ∈ ignores, Glob.isPattern entry = true ∧ Glob.parse entry = .ok glob := by
  induction ignores generalizing globs paths with
  | nil =>
      cases h
      cases hglob
  | cons entry rest ih =>
      rw [splitIgnores] at h
      split at h
      · rename_i hpattern
        simp only [bind_eq_ok, pure_eq_ok] at h
        obtain ⟨first, hfirst, ⟨others, more⟩, hothers, heq⟩ := h
        cases heq
        rcases List.mem_cons.mp hglob with rfl | hmem
        · exact ⟨entry, List.mem_cons_self, hpattern, hfirst⟩
        · obtain ⟨found, hfound, hparse⟩ := ih hothers hmem
          exact ⟨found, List.mem_cons_of_mem _ hfound, hparse⟩
      · simp only [bind_eq_ok, pure_eq_ok] at h
        obtain ⟨⟨others, more⟩, hothers, heq⟩ := h
        cases heq
        obtain ⟨found, hfound, hparse⟩ := ih hothers hglob
        exact ⟨found, List.mem_cons_of_mem _ hfound, hparse⟩

theorem seesRelative_of_isAnchored {settings : Settings}
    (hfilter : ofSettings settings root = .ok filter)
    (hanchored : ∀ entry ∈ settings.ignores, Glob.isPattern entry = true →
      Glob.isAnchored entry = true) (hpath : path.isAbsolute = true) :
    filter.SeesRelative root path := by
  intro glob hglob hmatch
  simp only [ofSettings, make, bind_eq_ok, pure_eq_ok] at hfilter
  obtain ⟨⟨globs, paths⟩, hsplit, rfl⟩ := hfilter
  obtain ⟨entry, hentry, hpattern, hparse⟩ := exists_entry_of_splitIgnores hsplit hglob
  cases (Glob.matchesPath_of_isAnchored (hanchored entry hentry hpattern) hparse hpath).symm.trans
    hmatch

def judgeRelative (filter : SourceFilter) (relative : Path) : Option Bool :=
  if filter.hasExtension relative && !filter.isIgnored relative relative then
    some (filter.isExcluded relative)
  else none

/-- A directory in which a use does not count is one of the steps before the last one. -/
theorem isExcluded_eq (filter : SourceFilter) (relative : Path) :
    filter.isExcluded relative =
      filter.excludedName.any fun name => relative.components.dropLast.contains (.name name) := by
  unfold isExcluded
  cases filter.excludedName with
  | none => rfl
  | some name =>
      cases hparent : relative.parent? with
      | none => simp [Path.dropLast_components_of_parent? hparent]
      | some parent => simp [Path.components_of_parent? hparent]

theorem extension?_congr {other : Path}
    (h : path.components.getLast? = other.components.getLast?) :
    path.extension? = other.extension? := by
  rw [Path.extension?, Path.extension?, Path.fileName?, Path.fileName?, h]

theorem judge_join (hd : root.text ≠ "") (ht : IsInner text) (hsteps : stepNames text ≠ [])
    (hsees : filter.SeesRelative root (root.join text)) :
    (filter.basedAt root).judge start (root.join text) = filter.judgeRelative (tidy text) := by
  have hrelative := Path.relativeTo?_join hd ht.relative
  have hextension : filter.hasExtension (root.join text) = filter.hasExtension (tidy text) := by
    have hlast : (root.join text).components.getLast? = (tidy text).components.getLast? := by
      rw [ht.components_join hd, ht.components_tidy, List.getLast?_append,
        List.getLast?_eq_some_getLast (by simpa using hsteps), Option.some_or]
    rw [hasExtension, extension?_congr hlast, ← hasExtension]
  have hglobs : (filter.globs.any fun glob =>
        glob.matchesPath (tidy text) || glob.matchesPath (root.join text)) =
      filter.globs.any fun glob =>
        glob.matchesPath (tidy text) || glob.matchesPath (tidy text) := by
    rw [Bool.eq_iff_iff, List.any_eq_true, List.any_eq_true]
    refine exists_congr fun glob => and_congr_right fun hglob => ?_
    have hmatch := fun h => hsees glob hglob h (tidy text) hrelative
    rw [Bool.or_self, Bool.or_eq_true, or_iff_left_of_imp hmatch]
  have hignored : filter.isIgnored (root.join text) (tidy text) =
      filter.isIgnored (tidy text) (tidy text) := by
    rw [isIgnored, isIgnored, hglobs]
  have hseen : (filter.basedAt root).relative start (root.join text) = tidy text := by
    simp [SourceFilter.relative, basedAt, hrelative]
  simp only [judge, judgeRelative, hseen, hasExtension_basedAt, isIgnored_basedAt,
    isExcluded_basedAt, hextension, hignored]

end SourceFilter

def Path.SameRelative (root copy path twin : Path) : Prop :=
  ∃ steps, (path.relativeTo? root).map components = some steps ∧
    (twin.relativeTo? copy).map components = some steps

/-! ## Candidates -/

namespace Corpus

variable {tree other : FileTree} {root copy path : Path} {here there : Location}
  {filter : SourceFilter} {text : String} {item : Path × Bool}

/-- What is known of a file that the walk from a source directory comes upon: its path below the
directory, by which the walk from the same source directory of the other project comes upon it. -/
structure ComesUponAlike (other : FileTree) (root copy : Path) (text : String) (path : Path)
    (rest : String) : Prop where
  path_eq : path = root.join rest
  inner : IsInner rest
  ends : EndsInStep rest
  short : (root.join rest).text.utf8ByteSize < maxPathBytes
  again : copy.join rest ∈ (other.listing (copy.join text)).files

/-- A walk from a directory of the source comes upon the files that lie below it. -/
theorem exists_comesUponAlike_of_directory (h : Relocation tree other root copy here there)
    (ht : IsInner text) (hfits : tree.Fits root here text) (hfew : other.Fits copy there text)
    {mode : Nat}
    (hfind : tree.find (root.join text) = .ok (here ++ stepNames text, .directory mode))
    (hother : other.find (copy.join text) = .ok (there ++ stepNames text, .directory mode))
    (hpath : path ∈ (tree.listing (root.join text)).files) :
    ∃ rest, ComesUponAlike other root copy text path rest := by
  rw [listing_of_directory hfind, mem_files_listingUnder] at hpath
  obtain ⟨names, bytes, rights, hmem, rfl, hreached⟩ := hpath
  have hn : ∀ name ∈ names, IsName name := fun name hname =>
    h.wellFormed.names _ hmem name (List.mem_append_right _ hname)
  have hentry := get?_of_mem h.wellFormed.distinct hmem
  have hne : names ≠ [] := by
    rintro rfl
    rw [List.append_nil, get?_of_find hfind] at hentry
    cases hentry
  obtain ⟨hinner, -, hends⟩ := ht.below hn
  have hjoin := Path.foldl_join_join h.root_ne ht hn
  refine ⟨below text names, hjoin, hinner, hends hne, ?_, ?_⟩
  · rw [← hjoin]
    exact hfits names (by rw [hentry]; rfl)
  · rw [listing_of_directory hother, mem_files_listingUnder]
    refine ⟨names, bytes, rights, mem_entries_of_file ?_, ?_, ?_⟩
    · rw [List.append_assoc, h.same, ← List.append_assoc, hentry]
    · exact (Path.foldl_join_join h.symm.root_ne ht hn).symm
    · rw [(h.toSameBelow.deeper _).isBelow_barredIn h.wellFormed h.wellFormedCopy hfits hfew,
        hreached]

/-- A walk below the directory comes upon the same files as one below the other directory. -/
theorem exists_comesUponAlike (h : Relocation tree other root copy here there) (ht : IsInner text)
    (hfits : tree.Fits root here text) (hfew : other.Fits copy there text)
    (hpath : path ∈ (tree.listing (root.join text)).files) :
    ∃ rest, ComesUponAlike other root copy text path rest := by
  have hfound : ∀ {place entry}, tree.find (root.join text) = .ok (place, entry) →
      place = here ++ stepNames text ∧
        other.find (copy.join text) = .ok (there ++ stepNames text, entry) :=
    fun hfind => h.find_join_of_fits ht hfew hfind
  by_cases hdirectory : ∃ place mode, tree.find (root.join text) = .ok (place, .directory mode)
  · obtain ⟨place, mode, hfind⟩ := hdirectory
    obtain ⟨rfl, hother⟩ := hfound hfind
    exact exists_comesUponAlike_of_directory h ht hfits hfew hfind hother hpath
  by_cases hfile : ∃ place bytes mode,
      tree.resolve .handle (root.join text) = .ok ⟨place, some (.file bytes mode)⟩
  · obtain ⟨place, bytes, mode, hfile⟩ := hfile
    obtain ⟨rfl, hother⟩ := hfound (find_of_resolve hfile (by simp))
    obtain ⟨hhandle, hends⟩ := h.symm.resolve_handle_join ht hother
    rw [listing_of_file hfile, List.mem_singleton] at hpath
    refine ⟨text, hpath, ht, hends, ?_, ?_⟩
    · exact (checkForm_eq_ok.mp (resolve_eq_ok.mp hfile).1).2.2
    · rw [listing_of_file hhandle]
      exact List.mem_singleton_self _
  · rw [listing_eq_nil (fun place mode hfind => hdirectory ⟨place, mode, hfind⟩)
      fun place bytes mode hhandle => hfile ⟨place, bytes, mode, hhandle⟩] at hpath
    cases hpath

/-- A source file below a directory, and whether a use in it is excluded. -/
structure LiesBelow (filter : SourceFilter) (root : Path) (item : Path × Bool)
    (rest : String) : Prop where
  path_eq : item.1 = root.join rest
  inner : IsInner rest
  ends : EndsInStep rest
  short : (root.join rest).text.utf8ByteSize < maxPathBytes
  excluded : item.2 = filter.isExcluded (tidy rest)

/-- What is asked of the source directories of a project, for its source files to be the same
elsewhere. -/
structure Settled (tree : FileTree) (root : Path) (here : Location) (filter : SourceFilter)
    (texts : List String) : Prop where
  fits : ∀ text ∈ texts, tree.Fits root here text
  sees : ∀ text ∈ texts, ∀ path ∈ (tree.listing (root.join text)).files,
    filter.SeesRelative root path

theorem stepNames_ne_nil (h : EndsInStep text) : stepNames text ≠ [] := by
  obtain ⟨last, hlast, hname⟩ := h
  exact List.ne_nil_of_mem (List.mem_filter.mpr ⟨List.mem_of_getLast? hlast, by simp [hname]⟩)

variable {texts : List String}

theorem exists_candidate (h : Relocation tree other root copy here there)
    (ht : ∀ text ∈ texts, IsInner text) (hs : Settled tree root here filter texts)
    (hsc : Settled other copy there filter texts) (hmem : text ∈ texts)
    (hitem : item ∈ candidates tree (filter.basedAt root) (root.join text)) :
    ∃ rest, LiesBelow filter root item rest ∧
      LiesBelow filter copy (copy.join rest, item.2) rest ∧
      (copy.join rest, item.2) ∈ candidates other (filter.basedAt copy) (copy.join text) := by
  obtain ⟨path, hlisted, hjudged⟩ := List.mem_filterMap.mp hitem
  obtain ⟨excluded, hjudge, rfl⟩ := Option.map_eq_some_iff.mp hjudged
  obtain ⟨rest, hrest⟩ :=
    exists_comesUponAlike h (ht text hmem) (hs.fits text hmem) (hsc.fits text hmem) hlisted
  obtain rfl := hrest.path_eq
  obtain ⟨twin, htwin⟩ := exists_comesUponAlike h.symm (ht text hmem) (hsc.fits text hmem)
    (hs.fits text hmem) hrest.again
  have hsteps := stepNames_ne_nil hrest.ends
  rw [SourceFilter.judge_join h.root_ne hrest.inner hsteps (hs.sees text hmem _ hlisted)] at hjudge
  have hexcluded : excluded = filter.isExcluded (tidy rest) := by
    rw [SourceFilter.judgeRelative] at hjudge
    split at hjudge
    · exact (Option.some.inj hjudge).symm
    · cases hjudge
  refine ⟨rest, ⟨rfl, hrest.inner, hrest.ends, hrest.short, hexcluded⟩,
    ⟨rfl, hrest.inner, hrest.ends, by rw [htwin.path_eq]; exact htwin.short, hexcluded⟩, ?_⟩
  refine List.mem_filterMap.mpr ⟨_, hrest.again, ?_⟩
  rw [SourceFilter.judge_join h.symm.root_ne hrest.inner hsteps
    (hsc.sees text hmem _ hrest.again), hjudge]
  rfl

theorem exists_liesBelow (h : Relocation tree other root copy here there)
    (ht : ∀ text ∈ texts, IsInner text) (hs : Settled tree root here filter texts)
    (hsc : Settled other copy there filter texts)
    (hitem : item ∈ (texts.map root.join).flatMap (candidates tree (filter.basedAt root))) :
    ∃ rest, LiesBelow filter root item rest ∧
      ∃ twin ∈ (texts.map copy.join).flatMap (candidates other (filter.basedAt copy)),
        LiesBelow filter copy twin rest := by
  obtain ⟨source, hsource, hcandidate⟩ := List.mem_flatMap.mp hitem
  obtain ⟨text, hmem, rfl⟩ := List.mem_map.mp hsource
  obtain ⟨rest, hrest, htwin, hagain⟩ := exists_candidate h ht hs hsc hmem hcandidate
  exact ⟨rest, hrest, _, List.mem_flatMap.mpr ⟨_, List.mem_map_of_mem hmem, hagain⟩, htwin⟩

theorem LiesBelow.components_eq {rest : String} (h : LiesBelow filter root item rest)
    (hd : root.text ≠ "") :
    item.1.components = root.components ++ (stepNames rest).map Component.name := by
  rw [h.path_eq, h.inner.components_join hd]

theorem matchedBy_candidates (h : Relocation tree other root copy here there)
    (ht : ∀ text ∈ texts, IsInner text) (hs : Settled tree root here filter texts)
    (hsc : Settled other copy there filter texts) :
    MatchedBy root.components copy.components
      ((texts.map root.join).flatMap (candidates tree (filter.basedAt root)))
      ((texts.map copy.join).flatMap (candidates other (filter.basedAt copy))) := by
  intro item hitem
  obtain ⟨rest, hrest, twin, htwin, hagain⟩ := exists_liesBelow h ht hs hsc hitem
  exact ⟨_, hrest.components_eq h.root_ne, twin, htwin, hagain.components_eq h.symm.root_ne⟩

theorem forall₂_paths (h : Relocation tree other root copy here there)
    (ht : ∀ text ∈ texts, IsInner text) (hs : Settled tree root here filter texts)
    (hsc : Settled other copy there filter texts) :
    List.Forall₂ (fun item twin => ∃ rest again, LiesBelow filter root item rest ∧
        LiesBelow filter copy twin again ∧ stepNames again = stepNames rest)
      (paths tree (texts.map root.join) (filter.basedAt root))
      (paths other (texts.map copy.join) (filter.basedAt copy)) := by
  rw [paths_eq, paths_eq]
  refine (forall₂_inOrder (matchedBy_candidates h ht hs hsc)
    (matchedBy_candidates h.symm ht hsc hs)).imp fun item twin hpair => ?_
  obtain ⟨hitem, htwin, steps, hfront, hback⟩ := hpair
  obtain ⟨rest, hrest, -⟩ := exists_liesBelow h ht hs hsc hitem
  obtain ⟨again, hagain, -⟩ := exists_liesBelow h.symm ht hsc hs htwin
  refine ⟨rest, again, hrest, hagain, ?_⟩
  have hsame := List.append_cancel_left ((hrest.components_eq h.root_ne).symm.trans hfront)
  have htwin := List.append_cancel_left ((hagain.components_eq h.symm.root_ne).symm.trans hback)
  exact List.map_injective_iff.mpr (fun _ _ => Component.name.inj) (htwin.trans hsame.symm)

/-! ## Source files -/

theorem readText_of_find {twin : Path} {content : String}
    (hsame : ∀ {place entry}, tree.find path = .ok (place, entry) →
      ∃ site, other.find twin = .ok (site, entry))
    (h : tree.readText path = .ok content) : other.readText twin = .ok content := by
  obtain ⟨place, bytes, mode, hfind, hread⟩ := readText_eq_ok.mp h
  obtain ⟨site, hsite⟩ := hsame hfind
  exact readText_eq_ok.mpr ⟨site, bytes, mode, hsite, hread⟩

theorem LiesBelow.readText {rest again content : String} {twin : Path × Bool}
    (hrest : LiesBelow filter root item rest)
    (h : Relocation tree other root copy here there) (hagain : LiesBelow filter copy twin again)
    (hsteps : stepNames again = stepNames rest) (hread : tree.readText item.1 = .ok content) :
    other.readText twin.1 = .ok content := by
  rw [hrest.path_eq] at hread
  rw [hagain.path_eq]
  exact readText_of_find (h.find_join_congr hrest.inner hagain.inner hrest.ends hagain.ends hsteps
    hagain.short) hread

theorem forall₂_files (h : Relocation tree other root copy here there)
    (ht : ∀ text ∈ texts, IsInner text) (hs : Settled tree root here filter texts)
    (hsc : Settled other copy there filter texts) :
    List.Forall₂ (SourceFile.Alike (Path.SameRelative root copy))
      (load tree (texts.map root.join) (filter.basedAt root)).files
      (load other (texts.map copy.join) (filter.basedAt copy)).files := by
  rw [files_load, files_load]
  refine List.rel_filterMap ?_ (forall₂_paths h ht hs hsc)
  intro item twin hpair
  obtain ⟨rest, again, hrest, hagain, hsteps⟩ := hpair
  have hpath : Path.SameRelative root copy item.1 twin.1 := by
    refine ⟨(stepNames rest).map Component.name, ?_, ?_⟩
    · rw [hrest.path_eq, Path.relativeTo?_join h.root_ne hrest.inner.relative, Option.map_some,
        hrest.inner.components_tidy]
    · rw [hagain.path_eq, Path.relativeTo?_join h.symm.root_ne hagain.inner.relative,
        Option.map_some, hagain.inner.components_tidy, hsteps]
  have hexcluded : twin.2 = item.2 := by
    rw [hrest.excluded, hagain.excluded, SourceFilter.isExcluded_eq, SourceFilter.isExcluded_eq,
      hrest.inner.components_tidy, hagain.inner.components_tidy, hsteps]
  beta_reduce
  cases hread : tree.readText item.1 with
  | ok content =>
      rw [hrest.readText h hagain hsteps hread]
      exact .some ⟨hpath, rfl, hexcluded⟩
  | error error =>
      cases hagainRead : other.readText twin.1 with
      | ok content => cases (hagain.readText h.symm hrest hsteps.symm hagainRead).symm.trans hread
      | error fault => exact .none

end Corpus

end LocaleTidy
