import LocaleTidy.Corpus.Load
import LocaleTidy.Proofs.FileTree.Listing

/-!
# Source files that a change leaves alone

The source files are loaded as before if no file at a changed place is one that the scan loads,
neither before the change nor after it.
-/

namespace LocaleTidy

open FileTree

variable {tree other : FileTree} {places : List Location} {filter : SourceFilter}
  {root path : Path} {place : Location}

/-- The walk from a root comes upon the file at a place, under a path. -/
def FileTree.ComesUpon (tree : FileTree) (root path : Path) (place : Location) : Prop :=
  ∃ start entry names bytes mode, tree.find root = .ok (start, entry) ∧ place = start ++ names ∧
    path = names.foldl Path.join root ∧ (place, .file bytes mode) ∈ tree.entries ∧
    path ∈ (tree.listing root).files

namespace Corpus

/-- The scan from some roots loads the file at a place: it comes upon it under a path that the
filter lets through. -/
def Scans (tree : FileTree) (roots : List Path) (filter : SourceFilter) (place : Location) :
    Prop :=
  ∃ root ∈ roots, ∃ path, tree.ComesUpon root path place ∧ (filter.judge root path).isSome

/-! ### Listings of roots -/

theorem listing_of_file {bytes : ByteArray} {mode : Nat}
    (h : tree.resolve .handle root = .ok ⟨place, some (.file bytes mode)⟩) :
    tree.listing root = ⟨[root], []⟩ := by
  rw [listing, h]

theorem listing_of_directory {mode : Nat} (h : tree.find root = .ok (place, .directory mode)) :
    tree.listing root = tree.listingUnder root place := by
  rcases resolve_purpose tree .handle root with
    hsame | ⟨hwrite, -⟩ | ⟨location, target, hlink⟩
  · rw [listing, hsame, find_eq_ok.mp h]
  · cases hwrite
  · rw [listing, hlink]
    simp only [h]

theorem listing_eq_nil (hdirectory : ∀ place mode, tree.find root ≠ .ok (place, .directory mode))
    (hfile : ∀ place bytes mode,
      tree.resolve .handle root ≠ .ok ⟨place, some (.file bytes mode)⟩) :
    tree.listing root = ⟨[], []⟩ := by
  unfold listing
  split
  · rename_i h
    exact (hfile _ _ _ h).elim
  · rename_i h
    exact (hdirectory _ _ (find_of_resolve h (by simp))).elim
  · split
    · rename_i h
      exact (hdirectory _ _ h).elim
    · rfl
  · rfl

/-! ### Candidates -/

/-- No file at one of some places is a candidate of a root. -/
def Passes (tree : FileTree) (filter : SourceFilter) (places : List Location) (root : Path) :
    Prop :=
  ∀ place ∈ places, ∀ path, tree.ComesUpon root path place → filter.judge root path = none

theorem handle_file (hc : ChangedAt places tree other) {bytes : ByteArray} {mode : Nat}
    (h : tree.resolve .handle root = .ok ⟨place, some (.file bytes mode)⟩) (hp : place ∉ places) :
    other.resolve .handle root = .ok ⟨place, some (.file bytes mode)⟩ := by
  rcases hc.resolve_eq_or_meets .handle root with hsame | hmeet
  · rw [hsame, h]
  · exact (hp (hmeet.handle_mem hc.blocks (resolve_eq_ok.mp h).2)).elim

theorem mem_entries_of_file {bytes : ByteArray} {mode : Nat}
    (h : tree.get? place = some (.file bytes mode)) : (place, .file bytes mode) ∈ tree.entries := by
  obtain ⟨front, back, hentries, -⟩ := List.lookup_eq_some_iff.mp (lookup_of_file h)
  simp [hentries]

/-- A root that is no directory has no candidate but itself, a file at an unchanged place. -/
theorem candidates_of_file (hs : Passes tree filter places root)
    (hdirectory : ∀ place mode, tree.find root ≠ .ok (place, .directory mode)) :
    candidates tree filter root = [] ∨ ∃ place bytes mode, place ∉ places ∧
      tree.resolve .handle root = .ok ⟨place, some (.file bytes mode)⟩ := by
  by_cases hfile : ∃ place bytes mode,
      tree.resolve .handle root = .ok ⟨place, some (.file bytes mode)⟩
  · rcases hfile with ⟨place, bytes, mode, hfile⟩
    by_cases hp : place ∈ places
    · left
      have hfind := find_of_resolve hfile (by simp)
      have hlisted := listing_of_file hfile
      have hnone := hs place hp root ⟨place, _, [], bytes, mode, hfind, by simp, rfl,
        mem_entries_of_file (get?_of_find hfind), by simp [hlisted]⟩
      simp [candidates, hlisted, hnone]
    · exact .inr ⟨place, bytes, mode, hp, hfile⟩
  · left
    have hlisted := listing_eq_nil hdirectory fun place bytes mode h => hfile ⟨_, _, _, h⟩
    simp [candidates, hlisted]

theorem candidates_eq (hc : ChangedAt places tree other) (hs : Passes tree filter places root)
    (hafter : Passes other filter places root) :
    candidates other filter root = candidates tree filter root := by
  by_cases hdirectory : ∃ place mode, tree.find root = .ok (place, .directory mode)
  · rcases hdirectory with ⟨start, mode, hfind⟩
    have hother := hc.find_directory hfind
    have hlisted := listing_of_directory hfind
    have hlistedAfter := listing_of_directory hother
    rw [candidates, candidates, hlisted, hlistedAfter]
    apply listingUnder_filterMap_eq hc
    · intro names bytes rights hmem hplace hreached
      rw [hs _ hplace _ ⟨start, _, names, bytes, rights, hfind, rfl, rfl, hmem, hlisted ▸ hreached⟩]
      rfl
    · intro names bytes rights hmem hplace hreached
      rw [hafter _ hplace _ ⟨start, _, names, bytes, rights, hother, rfl, rfl, hmem,
        hlistedAfter ▸ hreached⟩]
      rfl
  · have hbefore : ∀ place mode, tree.find root ≠ .ok (place, .directory mode) :=
      fun place mode h => hdirectory ⟨_, _, h⟩
    have hnot : ∀ place mode, other.find root ≠ .ok (place, .directory mode) :=
      fun place mode h => hdirectory ⟨_, _, hc.symm.find_directory h⟩
    rcases candidates_of_file hs hbefore with hnil | ⟨place, bytes, mode, hp, hfile⟩
    · rcases candidates_of_file hafter hnot with hnilAfter | ⟨place, bytes, mode, hp, hfile⟩
      · rw [hnil, hnilAfter]
      · rw [candidates, candidates, listing_of_file hfile,
          listing_of_file (handle_file hc.symm hfile hp)]
    · rw [candidates, candidates, listing_of_file hfile,
        listing_of_file (handle_file hc hfile hp)]

/-! ### Source files -/

theorem mem_of_mem_firstSpellings {item : Path × Bool} {items : List (Path × Bool)}
    (h : item ∈ firstSpellings items) : item ∈ items := by
  induction items with
  | nil => exact h
  | cons first rest ih =>
      rcases List.mem_cons.mp h with rfl | hrest
      · exact List.mem_cons_self
      · exact List.mem_cons_of_mem _ (ih ((List.dropWhile_sublist _).subset hrest))

theorem mem_of_mem_inOrder {item : Path × Bool} {items : List (Path × Bool)}
    (h : item ∈ inOrder items) : item ∈ items :=
  (List.mergeSort_perm items _).mem_iff.mp (mem_of_mem_firstSpellings h)

theorem candidates_of_not_isThere (h : tree.isThere root = false) :
    candidates tree filter root = [] := by
  have hfind : ∀ found, tree.find root ≠ .ok found := by
    intro found hfound
    simp [isThere, hfound, Except.toOption] at h
  have hlisted := listing_eq_nil (fun place mode => hfind _)
    fun place bytes mode hfile => hfind _ (find_of_resolve hfile (by simp))
  simp [candidates, hlisted]

theorem paths_eq (roots : List Path) :
    paths tree roots filter = inOrder (roots.flatMap (candidates tree filter)) := by
  rw [paths]
  congr 1
  induction roots with
  | nil => rfl
  | cons root roots ih =>
      by_cases h : tree.isThere root
      · rw [List.filter_cons_of_pos h, List.flatMap_cons, List.flatMap_cons, ih]
      · rw [List.filter_cons_of_neg h, List.flatMap_cons, ih,
          candidates_of_not_isThere (by simpa using h), List.nil_append]

theorem find_candidate (hc : ChangedAt places tree other) (ht : tree.WellFormed)
    (hs : Passes tree filter places root) {item : Path × Bool}
    (h : item ∈ candidates tree filter root) : other.find item.1 = tree.find item.1 := by
  obtain ⟨path, hlisted, hjudged⟩ := List.mem_filterMap.mp h
  obtain ⟨excluded, hjudge, rfl⟩ := Option.map_eq_some_iff.mp hjudged
  by_cases hdirectory : ∃ place mode, tree.find root = .ok (place, .directory mode)
  · rcases hdirectory with ⟨start, mode, hfind⟩
    have hreached := hlisted
    rw [listing_of_directory hfind, files_listingUnder] at hlisted
    obtain ⟨⟨names, entry⟩, hmem, hfile⟩ := List.mem_filterMap.mp hlisted
    obtain ⟨rfl, bytes, rights, rfl⟩ := listedFile?_eq_some hfile
    rw [mem_entriesBelow] at hmem
    have hentry := get?_of_mem ht.distinct hmem
    apply hc.find_foldl_join hfind _ _ hentry
    · intro hplace
      have hnone := hs _ hplace _ ⟨start, _, names, bytes, rights, hfind, rfl, rfl, hmem, hreached⟩
      rw [hnone] at hjudge
      cases hjudge
    · intro name hname
      exact ht.names _ hmem name (List.mem_append_right _ hname)
    · rintro rfl
      rw [List.append_nil, get?_of_find hfind] at hentry
      cases hentry
  · have hbefore : ∀ place mode, tree.find root ≠ .ok (place, .directory mode) :=
      fun place mode hfind => hdirectory ⟨_, _, hfind⟩
    rcases candidates_of_file hs hbefore with hnil | ⟨place, bytes, mode, hp, hfile⟩
    · rw [hnil] at h
      cases h
    · rw [listing_of_file hfile] at hlisted
      obtain rfl := List.mem_singleton.mp hlisted
      rw [find_of_resolve hfile (by simp), find_of_resolve (handle_file hc hfile hp) (by simp)]

theorem files_load (tree : FileTree) (roots : List Path) (filter : SourceFilter) :
    (load tree roots filter).files = (paths tree roots filter).filterMap fun item =>
      (tree.readText item.1).toOption.map fun content => ⟨item.1, content, item.2⟩ := by
  rw [load, List.filterMap_map]
  apply List.filterMap_congr
  intro item _
  simp only [Function.comp, readFile]
  cases tree.readText item.1 <;> rfl

theorem files_load_eq (hc : ChangedAt places tree other) (ht : tree.WellFormed)
    {roots : List Path} (hs : ∀ root ∈ roots, Passes tree filter places root)
    (hafter : ∀ root ∈ roots, Passes other filter places root) :
    (load other roots filter).files = (load tree roots filter).files := by
  have hcandidates : ∀ root ∈ roots,
      candidates other filter root = candidates tree filter root :=
    fun root hroot => candidates_eq hc (hs root hroot) (hafter root hroot)
  have hpaths : paths other roots filter = paths tree roots filter := by
    rw [paths_eq, paths_eq, List.flatMap_congr hcandidates]
  simp only [load, hpaths]
  congr 1
  apply List.map_congr_left
  intro item hitem
  rw [paths_eq] at hitem
  obtain ⟨root, hroot, hmem⟩ := List.mem_flatMap.mp (mem_of_mem_inOrder hitem)
  have hfind := find_candidate hc ht (hs root hroot) hmem
  simp only [readFile, readText, readBytes, findReadable, hfind]

end Corpus

end LocaleTidy
