import LocaleTidy.Proofs.Corpus.Loading
import LocaleTidy.Proofs.Usage.Relabelling

/-!
# Roots that overlap

A file that several roots have as a candidate is loaded as the first of them has it. So the order of
the roots shows if and only if two of them differ about a file. They can differ about whether a use
in the file is excluded, since outside the base the steps count that follow the root.
-/

namespace LocaleTidy

open FileTree
open LocaleTidy.Path (Component)

variable {tree : FileTree} {filter : SourceFilter} {root other : Path} {roots others : List Path}
  {item twin : Path × Bool}

namespace Corpus

def SamePath (path twin : Path) : Prop :=
  path.components = twin.components

/-- Two roots tell the same of each file that both have as a candidate: if it can be read under
one path, then the other one is short enough as well, and it is excluded for both or for none. -/
def Agree (tree : FileTree) (filter : SourceFilter) (roots : List Path) : Prop :=
  ∀ root ∈ roots, ∀ other ∈ roots, ∀ item ∈ candidates tree filter root,
    ∀ twin ∈ candidates tree filter other, SamePath item.1 twin.1 →
      ∀ content, tree.readText item.1 = .ok content →
        twin.1.text.utf8ByteSize < maxPathBytes ∧ twin.2 = item.2

def ShortPaths (tree : FileTree) (filter : SourceFilter) (roots : List Path) : Prop :=
  ∀ root ∈ roots, ∀ item ∈ candidates tree filter root, item.1.text.utf8ByteSize < maxPathBytes

/-- If a root lies below another one, it lies below the base or no step from one to the other has
the excluded name. -/
def NoneBetween (filter : SourceFilter) (roots : List Path) : Prop :=
  ∀ root ∈ roots, ∀ other ∈ roots, root.components <+: other.components →
    (∃ base, filter.base = some base ∧ base.components <+: other.components) ∨
      ∀ name, filter.excludedName = some name →
        Component.name name ∉ other.components.drop root.components.length

/-! ### Reading under another path -/

theorem components_of_mem_candidates (ht : tree.WellFormed)
    (h : item ∈ candidates tree filter root) : root.components <+: item.1.components := by
  obtain ⟨bytes, mode, hreach⟩ := reaches_of_mem_candidates ht h
  obtain ⟨names, -, -, hnames⟩ := hreach.exists_components ht
  exact hnames ▸ List.prefix_append _ _

theorem readText_of_samePath (ht : tree.WellFormed) (h : item ∈ candidates tree filter root)
    (htwin : twin ∈ candidates tree filter other) (hsame : SamePath item.1 twin.1)
    (hshort : twin.1.text.utf8ByteSize < maxPathBytes) {content : String}
    (hread : tree.readText item.1 = .ok content) : tree.readText twin.1 = .ok content := by
  obtain ⟨bytes, mode, hreach⟩ := reaches_of_mem_candidates ht h
  obtain ⟨held, rights, hagain⟩ := reaches_of_mem_candidates ht htwin
  have hspelled : Respells item.1 twin.1 := ⟨hsame, hreach.ends ht, hagain.ends ht⟩
  obtain ⟨place, bytes, mode, hfind, htext⟩ := readText_eq_ok.mp hread
  exact readText_eq_ok.mpr ⟨place, bytes, mode, hspelled.find_eq_ok hshort hfind, htext⟩

/-- A file comes from some roots: it can be read, and one of them has it as a candidate. -/
structure ComesFrom (tree : FileTree) (filter : SourceFilter) (roots : List Path)
    (file : SourceFile) : Prop where
  read : tree.readText file.path = .ok file.content
  candidate : ∃ root ∈ roots, (file.path, file.excluded) ∈ candidates tree filter root

/-- Two lists of the same roots load the same paths with the same contents, if what is read under
one path is read under any other one with the same steps. -/
theorem forall₂_files_load (hroots : ∀ root, root ∈ others ↔ root ∈ roots)
    (hread : ∀ root ∈ roots, ∀ other ∈ roots, ∀ item ∈ candidates tree filter root,
      ∀ twin ∈ candidates tree filter other, SamePath item.1 twin.1 →
        ∀ content, tree.readText item.1 = .ok content → tree.readText twin.1 = .ok content) :
    List.Forall₂ (fun file twin => SamePath file.path twin.path ∧ twin.content = file.content ∧
        ComesFrom tree filter roots file ∧ ComesFrom tree filter roots twin)
      (load tree others filter).files (load tree roots filter).files := by
  have hmem : ∀ item, item ∈ others.flatMap (candidates tree filter) ↔
      item ∈ roots.flatMap (candidates tree filter) := by
    intro item
    simp only [List.mem_flatMap, hroots]
  have hmatched : ∀ {items twins : List (Path × Bool)}, (∀ item ∈ items, item ∈ twins) →
      MatchedBy [] [] items twins := fun hsubset item hitem =>
    ⟨item.1.components, rfl, item, hsubset item hitem, rfl⟩
  have hpaths := forall₂_inOrder (hmatched fun item => (hmem item).mp)
    (hmatched fun item => (hmem item).mpr)
  rw [← paths_eq, ← paths_eq] at hpaths
  rw [files_load, files_load]
  refine List.rel_filterMap ?_ hpaths
  rintro item twin ⟨hitem, htwin, steps, hsteps, hback⟩
  obtain ⟨root, hroot, hitem⟩ := List.mem_flatMap.mp ((hmem item).mp hitem)
  obtain ⟨other, hother, htwin⟩ := List.mem_flatMap.mp htwin
  have hsame : SamePath item.1 twin.1 := hsteps.trans hback.symm
  beta_reduce
  cases hcontent : tree.readText item.1 with
  | ok content =>
      have hagain := hread root hroot other hother item hitem twin htwin hsame content hcontent
      rw [hagain]
      exact .some ⟨hsame, rfl, ⟨hcontent, root, hroot, hitem⟩, hagain, other, hother, htwin⟩
  | error error =>
      cases hagain : tree.readText twin.1 with
      | ok content =>
          have hback := hread other hother root hroot twin htwin item hitem hsame.symm content
            hagain
          cases hback.symm.trans hcontent
      | error fault => exact .none

/-! ### What shows of the order of the roots -/

/-- Paths and contents do not depend on the order of the roots. -/
theorem ShortPaths.forall₂_files (h : ShortPaths tree filter roots) (ht : tree.WellFormed)
    (hroots : ∀ root, root ∈ others ↔ root ∈ roots) :
    List.Forall₂ (fun file twin => SamePath file.path twin.path ∧ twin.content = file.content)
      (load tree others filter).files (load tree roots filter).files :=
  (forall₂_files_load hroots fun _ _ other hother _ hitem twin htwin hsame _ =>
    readText_of_samePath ht hitem htwin hsame (h other hother twin htwin)).imp
      fun _ _ hpair => ⟨hpair.1, hpair.2.1⟩

theorem Agree.forall₂_files (h : Agree tree filter roots) (ht : tree.WellFormed)
    (hroots : ∀ root, root ∈ others ↔ root ∈ roots) :
    List.Forall₂ (SourceFile.Alike SamePath) (load tree others filter).files
      (load tree roots filter).files := by
  have hfiles := forall₂_files_load hroots
    fun root hroot other hother item hitem twin htwin hsame content hread =>
      readText_of_samePath ht hitem htwin hsame
        (h root hroot other hother item hitem twin htwin hsame content hread).1 hread
  refine hfiles.imp ?_
  rintro file twin ⟨hsame, hcontent, ⟨hread, root, hroot, hitem⟩, -, other, hother, htwin⟩
  exact ⟨hsame, hcontent, (h root hroot other hother _ hitem _ htwin hsame _ hread).2⟩

theorem exists_mem_of_forall₂ {R : SourceFile → SourceFile → Prop} {file : SourceFile}
    {files twins : List SourceFile} (h : List.Forall₂ R files twins) (hfile : file ∈ files) :
    ∃ twin ∈ twins, R file twin := by
  induction h with
  | nil => cases hfile
  | @cons head twin rest twins hhead _ ih =>
      rcases List.mem_cons.mp hfile with rfl | hrest
      · exact ⟨twin, List.mem_cons_self, hhead⟩
      · obtain ⟨found, hfound, hrel⟩ := ih hrest
        exact ⟨found, List.mem_cons_of_mem _ hfound, hrel⟩

theorem mem_paths_cons (ht : tree.WellFormed) (h : item ∈ candidates tree filter root) :
    item ∈ paths tree (root :: roots) filter :=
  (mem_paths_iff ht).mpr ⟨[], root, roots, rfl, h, by simp⟩

/-- If two roots tell different things of a file, then it shows which of them comes first. -/
theorem agree_of_forall₂_files (ht : tree.WellFormed)
    (h : ∀ others, (∀ root, root ∈ others ↔ root ∈ roots) →
      List.Forall₂ (SourceFile.Alike SamePath) (load tree others filter).files
        (load tree roots filter).files) : Agree tree filter roots := by
  intro root hroot other hother item hitem twin htwin hsame content hread
  have hfirst : ∀ first ∈ roots, ∀ root, root ∈ first :: roots ↔ root ∈ roots := by
    rintro first hfirst root
    rw [List.mem_cons, or_iff_right_iff_imp]
    rintro rfl
    exact hfirst
  have hfile : ⟨item.1, content, item.2⟩ ∈ (load tree (root :: roots) filter).files :=
    mem_files_load.mpr ⟨mem_paths_cons ht hitem, hread⟩
  obtain ⟨found, hfound, halike⟩ := exists_mem_of_forall₂ (h _ (hfirst root hroot)) hfile
  obtain ⟨again, hagain, hback⟩ := exists_mem_of_forall₂ (h _ (hfirst other hother)).flip hfound
  obtain ⟨hpath, hcontent⟩ := mem_files_load.mp hagain
  -- the other root comes first now, so its path is the one that is read
  have htwins : (again.path, again.excluded) = twin :=
    inOrder_unique (mem_paths_cons ht htwin) hpath
      (hback.path.trans (halike.path.symm.trans hsame))
  subst htwins
  obtain ⟨place, bytes, mode, hfind, -⟩ := readText_eq_ok.mp hcontent
  exact ⟨(checkForm_eq_ok.mp (resolve_eq_ok.mp (find_eq_ok.mp hfind)).1).2.2,
    hback.excluded.symm.trans halike.excluded⟩

/-! ### Roots below one another -/

theorem excluded_of_base (h : item ∈ candidates tree filter root) {base : Path}
    (hbase : filter.base = some base) (hbelow : base.components <+: item.1.components) :
    item.2 = true ↔ filter.LiesInExcluded base item.1 :=
  ((SourceFilter.judge_eq_some_iff (SourceFilter.relativeTo?_base root hbase hbelow) hbelow).mp
    (mem_candidates.mp h).2).2.2

theorem excluded_of_root (ht : tree.WellFormed) (h : item ∈ candidates tree filter root)
    (houtside : ∀ base, filter.base = some base → ¬ base.components <+: item.1.components) :
    item.2 = true ↔ filter.LiesInExcluded root item.1 := by
  have hbelow := components_of_mem_candidates ht h
  exact ((SourceFilter.judge_eq_some_iff (SourceFilter.relativeTo?_start hbelow houtside)
    hbelow).mp (mem_candidates.mp h).2).2.2

theorem liesInExcluded_iff {path : Path} (hroots : root.components <+: other.components)
    (hpath : other.components <+: path.components)
    (hnone : ∀ name, filter.excludedName = some name →
      Component.name name ∉ other.components.drop root.components.length) :
    filter.LiesInExcluded root path ↔ filter.LiesInExcluded other path := by
  obtain ⟨between, hother⟩ := hroots
  obtain ⟨steps, hsteps⟩ := hpath
  refine exists_congr fun name => and_congr_right fun hname => ?_
  have hnot := hnone name hname
  rw [← hother, List.drop_left] at hnot
  rw [← hsteps, List.drop_left, ← hother, List.append_assoc, List.drop_left]
  by_cases hnil : steps = []
  · subst hnil
    simpa using fun hmem => hnot (List.dropLast_subset _ hmem)
  · rw [List.dropLast_append_of_ne_nil hnil, List.mem_append, or_iff_right hnot]

theorem excluded_eq_of_below (ht : tree.WellFormed) (hitem : item ∈ candidates tree filter root)
    (htwin : twin ∈ candidates tree filter other) (hsame : SamePath item.1 twin.1)
    (hroots : root.components <+: other.components)
    (hnone : (∃ base, filter.base = some base ∧ base.components <+: other.components) ∨
      ∀ name, filter.excludedName = some name →
        Component.name name ∉ other.components.drop root.components.length) :
    twin.2 = item.2 := by
  have hlies : ∀ base, filter.LiesInExcluded base item.1 ↔ filter.LiesInExcluded base twin.1 := by
    intro base
    rw [SourceFilter.LiesInExcluded, SourceFilter.LiesInExcluded, hsame]
  have hother := components_of_mem_candidates ht htwin
  rw [Bool.eq_iff_iff]
  by_cases hbase : ∃ base, filter.base = some base ∧ base.components <+: item.1.components
  · obtain ⟨base, hbase, hbelow⟩ := hbase
    rw [excluded_of_base hitem hbase hbelow, excluded_of_base htwin hbase (hsame ▸ hbelow), hlies]
  · have houtside : ∀ base, filter.base = some base →
        ¬ base.components <+: item.1.components := fun base h hbelow => hbase ⟨base, h, hbelow⟩
    have hfree := hnone.resolve_left <| by
      rintro ⟨base, h, hbelow⟩
      exact houtside base h (hsame ▸ hbelow.trans hother)
    rw [excluded_of_root ht hitem houtside, excluded_of_root ht htwin (hsame ▸ houtside), ← hlies,
      liesInExcluded_iff hroots (hsame ▸ hother) hfree]

theorem NoneBetween.agree (h : NoneBetween filter roots) (ht : tree.WellFormed)
    (hshort : ShortPaths tree filter roots) : Agree tree filter roots := by
  intro root hroot other hother item hitem twin htwin hsame _ _
  refine ⟨hshort other hother twin htwin, ?_⟩
  have hfront := components_of_mem_candidates ht hitem
  have hback := components_of_mem_candidates ht htwin
  rw [← hsame] at hback
  rcases List.prefix_or_prefix_of_prefix hfront hback with hbelow | habove
  · exact excluded_eq_of_below ht hitem htwin hsame hbelow (h root hroot other hother hbelow)
  · exact (excluded_eq_of_below ht htwin hitem hsame.symm habove
      (h other hother root hroot habove)).symm

/-- Whatever the order of some roots is and however often they are given, the same paths are loaded
with the same contents and are excluded alike, if and only if the roots agree. If all paths are
short enough, only what is excluded can depend on the order, and does not if no step from a root to
another one has the excluded name, or the second one lies below the base. -/
theorem order_free_iff_agree (ht : tree.WellFormed) :
    ((∀ others, (∀ root, root ∈ others ↔ root ∈ roots) →
        List.Forall₂ (SourceFile.Alike SamePath) (load tree others filter).files
          (load tree roots filter).files) ↔ Agree tree filter roots) ∧
      (ShortPaths tree filter roots →
        (∀ others, (∀ root, root ∈ others ↔ root ∈ roots) →
          List.Forall₂ (fun file twin => SamePath file.path twin.path ∧
              twin.content = file.content)
            (load tree others filter).files (load tree roots filter).files) ∧
        (NoneBetween filter roots → Agree tree filter roots)) :=
  ⟨⟨agree_of_forall₂_files ht, fun h _ => h.forall₂_files ht⟩,
    fun hshort => ⟨fun _ => hshort.forall₂_files ht, fun hnone => hnone.agree ht hshort⟩⟩

/-- A project with a text in the storage directory below a source root. -/
def storedText : FileTree where
  entries := [
    (["x"], .directory 0o755),
    (["x", "locales"], .directory 0o755),
    (["x", "locales", "a.ts"], .file "t('x')".toUTF8 0o644)]
  current := []

def storedFilter (base : Option Path) : SourceFilter := ⟨["ts"], [], [], some "locales", base⟩

def nestedRoots : List Path := [⟨"x"⟩, ⟨"x/locales"⟩]

def storedFile (excluded : Bool) : SourceFile := ⟨⟨"x/locales/a.ts"⟩, "t('x')", excluded⟩

theorem storedFile_mem {base : Option Path} {excluded : Bool}
    (h : (⟨"x/locales/a.ts"⟩, excluded) ∈ candidates storedText (storedFilter base) root) :
    storedFile excluded ∈ (load storedText (root :: roots) (storedFilter base)).files := by
  have hfind : storedText.find ⟨"x/locales/a.ts"⟩ =
      .ok (["x", "locales", "a.ts"], .file "t('x')".toUTF8 0o644) :=
    find_of_place? (by decide +kernel) rfl
  have htext : String.fromUTF8? "t('x')".toUTF8 = some "t('x')" := by decide +kernel
  exact mem_files_load.mpr ⟨mem_paths_cons (by decide +kernel) h,
    readText_eq_ok.mpr ⟨_, _, _, hfind, rfl, htext⟩⟩

/-- Below a base, roots in another order and given more than once load the same. -/
theorem order_free_nested :
    let filter := storedFilter (some ⟨"x"⟩)
    List.Forall₂ (SourceFile.Alike SamePath)
        (load storedText (⟨"x/locales"⟩ :: nestedRoots) filter).files
        (load storedText nestedRoots filter).files ∧
      storedFile true ∈ (load storedText nestedRoots filter).files := by
  intro filter
  have hbelow : ∀ root ∈ nestedRoots, (Path.mk "x").components <+: root.components := by
    decide +kernel
  have hshort : ∀ root ∈ nestedRoots, ∀ item ∈ candidates storedText filter root,
      item.1.text.utf8ByteSize < maxPathBytes := by decide +kernel
  have hnone : NoneBetween filter nestedRoots := fun _ _ other hother _ =>
    .inl ⟨⟨"x"⟩, rfl, hbelow other hother⟩
  obtain ⟨horder, hagree⟩ := @order_free_iff_agree storedText filter nestedRoots
    (by decide +kernel)
  refine ⟨horder.mpr ((hagree hshort).2 hnone) _ fun root => ?_, storedFile_mem (by decide +kernel)⟩
  simp +contextual [nestedRoots]

/-- Without a base, a text in the storage directory is excluded if the root above that directory
comes first, and it is not if the directory itself does. -/
theorem order_shows_without_base :
    let filter := storedFilter none
    (∀ root, root ∈ nestedRoots.reverse ↔ root ∈ nestedRoots) ∧
      storedFile true ∈ (load storedText nestedRoots filter).files ∧
      storedFile false ∈ (load storedText nestedRoots.reverse filter).files ∧
      ¬ List.Forall₂ (SourceFile.Alike SamePath)
        (load storedText nestedRoots.reverse filter).files
        (load storedText nestedRoots filter).files := by
  intro filter
  have habove : storedFile true ∈ (load storedText nestedRoots filter).files :=
    storedFile_mem (by decide +kernel)
  have hbelow : storedFile false ∈ (load storedText nestedRoots.reverse filter).files :=
    storedFile_mem (by decide +kernel)
  refine ⟨fun root => List.mem_reverse, habove, hbelow, fun hfiles => ?_⟩
  obtain ⟨found, hfound, halike⟩ := exists_mem_of_forall₂ hfiles hbelow
  obtain ⟨hpath, -⟩ := mem_files_load.mp hfound
  have hsame := inOrder_unique (mem_files_load.mp habove).1 hpath halike.path.symm
  cases halike.excluded.symm.trans (Prod.mk.inj hsame).2

end Corpus

end LocaleTidy
