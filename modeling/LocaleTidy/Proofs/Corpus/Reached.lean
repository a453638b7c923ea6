import LocaleTidy.Proofs.Corpus.Order
import LocaleTidy.Proofs.FileTree.Relocation
import LocaleTidy.Proofs.FileTree.Writing

/-!
# Files that are reached from a root

A root is a file itself, or it leads to a directory, and then every file below that directory is
reached by its names. A walk comes upon nothing else. From one root each file is reached under one
path alone; from several roots it may be reached under paths that have the same steps, and of these
the one from the first root counts.
-/

namespace LocaleTidy

open Text (split)
open FileTree
open LocaleTidy.Path (Component EndsInStep isVoid)

variable {tree : FileTree} {root other path twin : Path} {bytes held : ByteArray}
  {mode rights : Nat} {names : List String} {place here : Location} {filter : SourceFilter}
  {item : Path × Bool}

namespace FileTree

/-- A regular file that is reached from a root under a path, its bytes and its permission bits. No
link is followed but one that the root itself is, if it leads to a directory. -/
inductive Reaches (tree : FileTree) (root : Path) : Path → ByteArray → Nat → Prop where
  | itself {place : Location} {bytes : ByteArray} {mode : Nat}
      (hfile : tree.resolve .handle root = .ok ⟨place, some (.file bytes mode)⟩) :
      Reaches tree root root bytes mode
  | below {start : Location} {names : List String} {rights mode : Nat} {bytes : ByteArray}
      (hroot : tree.find root = .ok (start, .directory rights))
      (hfile : tree.get? (start ++ names) = some (.file bytes mode)) :
      Reaches tree root (names.foldl Path.join root) bytes mode

/-- Every directory at or below a root can be listed and entered. -/
def IsOpen (tree : FileTree) (root : Path) : Prop :=
  ∀ start rights, tree.find root = .ok (start, .directory rights) →
    ∀ names mode, tree.get? (start ++ names) = some (.directory mode) →
      mode.testBit Right.read.bit = true ∧ mode.testBit Right.enter.bit = true ∧
        (names.foldl Path.join root).text.utf8ByteSize < maxPathBytes

/-- The names in a tree can be looked up: none of them is too long or has a zero character. -/
def NamesFit (tree : FileTree) : Prop :=
  ∀ item ∈ tree.entries, ∀ name ∈ item.1,
    name.utf8ByteSize ≤ maxNameBytes ∧ '\x00' ∉ name.toList

instance (tree : FileTree) : Decidable tree.NamesFit :=
  inferInstanceAs (Decidable (∀ item ∈ tree.entries, ∀ name ∈ item.1,
    name.utf8ByteSize ≤ maxNameBytes ∧ '\x00' ∉ name.toList))

/-- Whether an entry below a root is no directory, or one that can be listed and entered. -/
def opensFor (root : Path) : List String × Entry → Bool
  | (names, .directory mode) =>
      mode.testBit Right.read.bit && mode.testBit Right.enter.bit &&
        (names.foldl Path.join root).text.utf8ByteSize < maxPathBytes
  | _ => true

theorem isOpen_of_entries (h : ∀ start ∈ tree.place? root, ∀ item ∈ tree.entriesBelow start,
    opensFor root item = true) : tree.IsOpen root := by
  intro start rights hroot names mode hmode
  rcases mem_entriesBelow_of_get? hmode with hmem | ⟨rfl, hnew⟩
  · simpa [opensFor, and_assoc] using h start (mem_place? hroot) _ hmem
  · cases hnew
    exact ⟨rfl, rfl, (checkForm_eq_ok.mp (resolve_eq_ok.mp (find_eq_ok.mp hroot)).1).2.2⟩

/-! ### Names below a directory -/

theorem WellFormed.isName_below (ht : tree.WellFormed)
    (hfile : tree.get? (here ++ names) = some (.file bytes mode)) :
    ∀ name ∈ names, IsName name := fun name hname =>
  ht.names _ (Corpus.mem_entries_of_file hfile) name (List.mem_append_right _ hname)

theorem ne_nil_below (hroot : tree.find root = .ok (here, .directory rights))
    (hfile : tree.get? (here ++ names) = some (.file bytes mode)) : names ≠ [] := by
  rintro rfl
  rw [List.append_nil, get?_of_find hroot] at hfile
  cases hfile

/-- Below a directory, names lead down to a file if no directory on the way is shut. -/
theorem walkWithin_below (ht : tree.Rooted) (links : Nat) (hn : ∀ name ∈ names, IsName name)
    (hshort : ∀ name ∈ names, name.utf8ByteSize ≤ maxNameBytes)
    (hopen : ∀ front, tree.IsDirectory (here ++ front) →
      tree.permits .enter (here ++ front) = true)
    (hfile : tree.get? (here ++ names) = some (.file bytes mode)) :
    walkWithin tree .use links here names = .ok ⟨here ++ names, some (.file bytes mode)⟩ := by
  induction names generalizing here with
  | nil => rw [walkWithin_nil, List.append_nil, ← hfile, List.append_nil]
  | cons name names ih =>
      have hbelow : here ++ [name] ++ names = here ++ name :: names := by simp
      have hname := hn name List.mem_cons_self
      have hopened : tree.permits .enter here = true := by
        have hdirectory := ht.isDirectory_above (by rw [hfile]; rfl) (List.cons_ne_nil name names)
        simpa [hdirectory] using hopen []
      have hlook : withoutLook? (tree.permits .enter here) .use here name names = none := by
        simp [withoutLook?, hname.nonempty, hopened, hname.ne_here, hname.ne_up,
          Nat.not_lt.mpr (hshort name List.mem_cons_self)]
      rw [walkWithin_cons, step, hlook, Option.getD_none]
      by_cases hnames : names = []
      · subst hnames
        rw [hfile]
        rfl
      · obtain ⟨bits, hbits⟩ : tree.IsDirectory (here ++ [name]) :=
          ht.isDirectory_above (by rw [hbelow, hfile]; rfl) hnames
        rw [hbits, stepTo, if_neg (by simpa using hnames), goOn, ← hbelow]
        refine ih (fun other hother => hn other (List.mem_cons_of_mem _ hother))
          (fun other hother => hshort other (List.mem_cons_of_mem _ hother)) (fun front => ?_)
          (by rw [hbelow, hfile])
        rw [List.append_assoc]
        exact hopen ([name] ++ front)

/-! ### Reached files -/

namespace Reaches

/-- A path under which a file is reached has the steps of the root and then names. -/
theorem exists_components (h : tree.Reaches root path bytes mode) (ht : tree.WellFormed) :
    ∃ names : List String, path = names.foldl Path.join root ∧
      (∀ name ∈ names, IsName name) ∧
      path.components = root.components ++ names.map Component.name := by
  cases h with
  | itself hfile => exact ⟨[], rfl, by simp, by simp⟩
  | @below start names rights _ _ hroot hfile =>
      have hn := ht.isName_below hfile
      have hne := text_ne_of_checkForm (resolve_eq_ok.mp (find_eq_ok.mp hroot)).1
      exact ⟨names, rfl, hn, Path.components_foldl_join hne hn⟩

theorem path_eq (h : tree.Reaches root path bytes mode) (htwin : tree.Reaches root twin held rights)
    (ht : tree.WellFormed) (hsame : path.components = twin.components) : path = twin := by
  obtain ⟨names, rfl, -, hnames⟩ := h.exists_components ht
  obtain ⟨others, rfl, -, hothers⟩ := htwin.exists_components ht
  rw [hnames, hothers, List.append_cancel_left_eq] at hsame
  rw [List.map_injective_iff.mpr (fun _ _ => Component.name.inj) hsame]

theorem ends (h : tree.Reaches root path bytes mode) (ht : tree.WellFormed) :
    EndsInStep path.text := by
  cases h with
  | itself hfile =>
      obtain ⟨first, rest, hsplit⟩ := Path.exists_split root.text
      have hwalk := (resolve_eq_ok.mp (find_eq_ok.mp (find_of_resolve hfile (by simp)))).2
      exact getLast?_of_file ht.toRooted (isDirectory_start ht.toRooted ht.current root)
        (by simp [hsplit]) hwalk
  | @below start names rights _ _ hroot hfile =>
      have hn := ht.isName_below hfile
      have hnames := ne_nil_below hroot hfile
      have hne := text_ne_of_checkForm (resolve_eq_ok.mp (find_eq_ok.mp hroot)).1
      obtain ⟨before, -, hsplit, -⟩ := Path.split_foldl_join hne hn hnames
      have hlast := hn _ (List.getLast_mem hnames)
      refine ⟨names.getLast hnames, ?_, by simp [isVoid, hlast.nonempty, hlast.ne_here]⟩
      rw [hsplit, List.getLast?_append_of_ne_nil _ hnames, List.getLast?_eq_some_getLast]

/-- The path of a file that is reached leads to it, but for its length. -/
theorem walk (h : tree.Reaches root path bytes mode) (ht : tree.WellFormed)
    (hfit : tree.NamesFit) (hopen : tree.IsOpen root) :
    ∃ place, walkWithin tree .use maxLinks (tree.start path) (split '/' path.text) =
      .ok ⟨place, some (.file bytes mode)⟩ := by
  cases h with
  | @itself place _ _ hfile =>
      exact ⟨place, (resolve_eq_ok.mp (find_eq_ok.mp (find_of_resolve hfile (by simp)))).2⟩
  | @below start names rights _ _ hroot hfile =>
      have hn := ht.isName_below hfile
      have hnames := ne_nil_below hroot hfile
      have hne := text_ne_of_checkForm (resolve_eq_ok.mp (find_eq_ok.mp hroot)).1
      have hd := isDirectory_start ht.toRooted ht.current root
      obtain ⟨before, hbefore, hsplit, habsolute⟩ := Path.split_foldl_join hne hn hnames
      obtain ⟨left, hleft⟩ :=
        walkWithin_directory ht.toRooted hd (walkWithin_before ht.toRooted hd hroot hbefore)
      refine ⟨start ++ names, ?_⟩
      rw [FileTree.start, habsolute, ← FileTree.start, hsplit, hleft names hnames]
      refine walkWithin_below ht.toRooted left hn (fun name hname => ?_) ?_ hfile
      · exact (hfit _ (Corpus.mem_entries_of_file hfile) name (List.mem_append_right _ hname)).1
      · rintro front ⟨bits, hbits⟩
        rw [permits, hbits]
        exact (hopen start rights hroot front bits hbits).2.1

/-- What is reached under paths with the same steps is the same file. -/
theorem same (h : tree.Reaches root path bytes mode) (htwin : tree.Reaches other twin held rights)
    (ht : tree.WellFormed) (hfit : tree.NamesFit) (hopen : tree.IsOpen root)
    (hopenOther : tree.IsOpen other) (hsame : path.components = twin.components) :
    bytes = held ∧ mode = rights := by
  obtain ⟨place, hplace⟩ := h.walk ht hfit hopen
  obtain ⟨site, hsite⟩ := htwin.walk ht hfit hopenOther
  have hspelled : Respells path twin := ⟨hsame, h.ends ht, htwin.ends ht⟩
  rw [hspelled.walkWithin_eq, hplace] at hsite
  cases hsite
  exact ⟨rfl, rfl⟩

theorem noZero (h : tree.Reaches root path bytes mode) (ht : tree.WellFormed)
    (hfit : tree.NamesFit) : '\x00' ∉ path.text.toList := by
  cases h with
  | itself hfile => exact (checkForm_eq_ok.mp (resolve_eq_ok.mp hfile).1).2.1
  | @below start names rights _ _ hroot hfile =>
      obtain ⟨hne, hzero, -⟩ := checkForm_eq_ok.mp (resolve_eq_ok.mp (find_eq_ok.mp hroot)).1
      have hn := ht.isName_below hfile
      rw [Path.mem_toList_iff_stepNames (by decide) (by decide), Path.stepNames_eq] at hzero ⊢
      have hnames : (names.map Component.name).filterMap Component.piece? = names := by
        simp [List.filterMap_map, Function.comp_def, Component.piece?]
      rw [Path.components_foldl_join hne hn, List.filterMap_append, hnames]
      rintro ⟨piece, hpiece, hmem⟩
      rcases List.mem_append.mp hpiece with hfront | hname
      · exact hzero ⟨piece, hfront, hmem⟩
      · exact (hfit _ (Corpus.mem_entries_of_file hfile) piece
          (List.mem_append_right _ hname)).2 hmem

theorem readText_iff (h : tree.Reaches root path bytes mode) (ht : tree.WellFormed)
    (hfit : tree.NamesFit) (hopen : tree.IsOpen root) {content : String} :
    tree.readText path = .ok content ↔ path.text.utf8ByteSize < maxPathBytes ∧
      mode.testBit Right.read.bit = true ∧ String.fromUTF8? bytes = some content := by
  obtain ⟨place, hwalk⟩ := h.walk ht hfit hopen
  rw [readText_eq_ok]
  constructor
  · intro hx
    obtain ⟨site, other, rights, hfind, hread⟩ := hx
    obtain ⟨hform, hfound⟩ := resolve_eq_ok.mp (find_eq_ok.mp hfind)
    rw [hwalk] at hfound
    cases hfound
    exact ⟨(checkForm_eq_ok.mp hform).2.2, hread⟩
  · intro hx
    obtain ⟨hshort, hread⟩ := hx
    have hform := checkForm_eq_ok.mpr
      ⟨text_ne_of_endsInStep (h.ends ht), h.noZero ht hfit, hshort⟩
    exact ⟨place, bytes, mode, find_eq_ok.mpr (resolve_eq_ok.mpr ⟨hform, hwalk⟩), hread⟩

end Reaches

end FileTree

/-! ## What a walk comes upon -/

namespace Corpus

theorem reaches_of_mem_listing (ht : tree.WellFormed) (h : path ∈ (tree.listing root).files) :
    ∃ bytes mode, tree.Reaches root path bytes mode := by
  by_cases hdirectory : ∃ place mode, tree.find root = .ok (place, .directory mode)
  · obtain ⟨start, rights, hfind⟩ := hdirectory
    rw [listing_of_directory hfind, mem_files_listingUnder] at h
    obtain ⟨names, bytes, mode, hmem, rfl, -⟩ := h
    exact ⟨bytes, mode, .below hfind (get?_of_mem ht.distinct hmem)⟩
  have hnot : ∀ place mode, tree.find root ≠ .ok (place, .directory mode) :=
    fun place mode hfind => hdirectory ⟨place, mode, hfind⟩
  by_cases hfile : ∃ place bytes mode,
      tree.resolve .handle root = .ok ⟨place, some (.file bytes mode)⟩
  · obtain ⟨place, bytes, mode, hfile⟩ := hfile
    rw [listing_of_file hfile, List.mem_singleton] at h
    exact ⟨bytes, mode, h.symm ▸ .itself hfile⟩
  · rw [listing_eq_nil hnot fun place bytes mode h => hfile ⟨place, bytes, mode, h⟩] at h
    cases h

/-- Where every directory can be listed, none is left out. -/
theorem barredIn_of_isOpen (ht : tree.WellFormed) (hopen : tree.IsOpen root)
    (hroot : tree.find root = .ok (place, .directory rights)) :
    barredIn root (tree.entriesBelow place) = [] := by
  have hmode : ∀ {names mode}, (names, Entry.directory mode) ∈ tree.entriesBelow place →
      tree.get? (place ++ names) = some (.directory mode) := fun hmem =>
    get?_of_mem ht.distinct (mem_entriesBelow.mp hmem)
  have hshut : shutIn (tree.entriesBelow place) = [] := by
    rw [shutIn, List.filterMap_eq_nil_iff]
    rintro ⟨names, _ | _ | _⟩ hmem
    · simp [(hopen place rights hroot names _ (hmode hmem)).2.1]
    · rfl
    · rfl
  rw [barredIn, List.filterMap_eq_nil_iff]
  rintro ⟨names, _ | _ | _⟩ hmem
  · obtain ⟨hread, -, hshort⟩ := hopen place rights hroot names _ (hmode hmem)
    simp [listingError?, hshut, isBelow, hread, Nat.not_le.mpr hshort]
  · rfl
  · rfl

theorem mem_listing_iff (ht : tree.WellFormed) (hopen : tree.IsOpen root) :
    path ∈ (tree.listing root).files ↔ ∃ bytes mode, tree.Reaches root path bytes mode := by
  refine ⟨reaches_of_mem_listing ht, ?_⟩
  rintro ⟨bytes, mode, h⟩
  cases h with
  | itself hfile =>
      rw [listing_of_file hfile]
      exact List.mem_singleton_self _
  | @below start names rights _ _ hroot hfile =>
      rw [listing_of_directory hroot, mem_files_listingUnder, barredIn_of_isOpen ht hopen hroot]
      exact ⟨names, bytes, mode, mem_entries_of_file hfile, rfl, rfl⟩

/-! ## Candidates -/

theorem mem_candidates :
    item ∈ candidates tree filter root ↔
      item.1 ∈ (tree.listing root).files ∧ filter.judge root item.1 = some item.2 := by
  rw [candidates, List.mem_filterMap]
  constructor
  · rintro ⟨path, hpath, hjudge⟩
    obtain ⟨excluded, hexcluded, rfl⟩ := Option.map_eq_some_iff.mp hjudge
    exact ⟨hpath, hexcluded⟩
  · intro h
    exact ⟨item.1, h.1, by rw [h.2]; rfl⟩

theorem reaches_of_mem_candidates (ht : tree.WellFormed)
    (h : item ∈ candidates tree filter root) :
    ∃ bytes mode, tree.Reaches root item.1 bytes mode :=
  reaches_of_mem_listing ht (mem_candidates.mp h).1

theorem candidates_unique (ht : tree.WellFormed) {twin : Path × Bool}
    (h : item ∈ candidates tree filter root) (htwin : twin ∈ candidates tree filter root)
    (hsame : twin.1.components = item.1.components) : twin = item := by
  obtain ⟨bytes, mode, hreach⟩ := reaches_of_mem_candidates ht h
  obtain ⟨held, rights, hagain⟩ := reaches_of_mem_candidates ht htwin
  have hpath : twin.1 = item.1 := hagain.path_eq hreach ht hsame
  have hjudge := (mem_candidates.mp htwin).2
  rw [hpath, (mem_candidates.mp h).2] at hjudge
  exact Prod.ext hpath (Option.some.inj hjudge).symm

/-- A path is read if it is a candidate of some root and no root before that one has a candidate
with the same steps. -/
theorem mem_paths_iff (ht : tree.WellFormed) {roots : List Path} :
    item ∈ paths tree roots filter ↔ ∃ before root after, roots = before ++ root :: after ∧
      item ∈ candidates tree filter root ∧ ∀ other ∈ before,
        ∀ twin ∈ candidates tree filter other, twin.1.components ≠ item.1.components := by
  have hfind : ∀ root, (candidates tree filter root).find? (sameSteps item) = some item ↔
      item ∈ candidates tree filter root := by
    intro root
    refine ⟨List.mem_of_find?_eq_some, fun hmem => ?_⟩
    obtain ⟨twin, htwin⟩ := Option.isSome_iff_exists.mp
      (List.find?_isSome.mpr ⟨item, hmem, sameSteps_iff.mpr rfl⟩)
    rw [htwin, candidates_unique ht hmem (List.mem_of_find?_eq_some htwin)
      (sameSteps_iff.mp (List.find?_some htwin))]
  rw [paths_eq, mem_inOrder_iff, List.find?_flatMap, List.findSome?_eq_some_iff]
  simp only [hfind, List.find?_eq_none, sameSteps_iff]

/-! ## Source files -/

theorem mem_files_load {roots : List Path} {file : SourceFile} :
    file ∈ (load tree roots filter).files ↔
      (file.path, file.excluded) ∈ paths tree roots filter ∧
        tree.readText file.path = .ok file.content := by
  rw [files_load, List.mem_filterMap]
  constructor
  · rintro ⟨item, hitem, hfile⟩
    obtain ⟨content, hcontent, rfl⟩ := Option.map_eq_some_iff.mp hfile
    exact ⟨hitem, eq_ok_of_mem_toOption hcontent⟩
  · rintro ⟨hitem, hread⟩
    exact ⟨_, hitem, by rw [hread]; rfl⟩

/-- Source files are in strict order, and so none is there twice. -/
theorem pairwise_files_load (tree : FileTree) (roots : List Path) (filter : SourceFilter) :
    (load tree roots filter).files.Pairwise fun left right =>
      left.path.before right.path = true := by
  rw [files_load, paths, List.pairwise_filterMap]
  refine (pairwise_inOrder _).imp fun {item twin} hlt file hfile again hagain => ?_
  obtain ⟨content, -, rfl⟩ := Option.map_eq_some_iff.mp hfile
  obtain ⟨other, -, rfl⟩ := Option.map_eq_some_iff.mp hagain
  exact Path.before_iff.mpr hlt

end Corpus

end LocaleTidy
