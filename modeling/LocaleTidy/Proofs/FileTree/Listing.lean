import Mathlib.Data.List.Basic
import LocaleTidy.FileTree.Listing
import LocaleTidy.Proofs.FileTree.Changes

/-!
# Listings before and after a change

A listing below a directory changes with a tree only by the files at the changed places.
-/

namespace LocaleTidy.FileTree

variable {tree other : FileTree} {places : List Location} {root : Path} {place : Location}

theorem namesBelow?_eq_some {below : Location} {names : List String} :
    namesBelow? place below = some names ↔ below = place ++ names := by
  induction place generalizing below with
  | nil => simp [namesBelow?]
  | cons name rest ih =>
      cases below with
      | nil => simp [namesBelow?]
      | cons first more =>
          by_cases h : name = first
          · simp [namesBelow?, h, ih]
          · simp [namesBelow?, h, Ne.symm h]

/-- What is kept of the entries below a place depends on the unchanged ones alone, if no entry at
a changed place is kept. -/
theorem entriesBelow_filterMap_eq {α : Type} (ha : AgreeOutside places tree other)
    {keep : List String × Entry → Option α}
    (h : ∀ names entry, (place ++ names, entry) ∈ tree.entries → place ++ names ∈ places →
      keep (names, entry) = none)
    (hafter : ∀ names entry, (place ++ names, entry) ∈ other.entries → place ++ names ∈ places →
      keep (names, entry) = none) :
    (other.entriesBelow place).filterMap keep = (tree.entriesBelow place).filterMap keep := by
  have hrest : ∀ tree : FileTree, (∀ names entry, (place ++ names, entry) ∈ tree.entries →
      place ++ names ∈ places → keep (names, entry) = none) →
      (tree.entriesBelow place).filterMap keep =
        (tree.entries.filter fun item => item.1 ∉ places).filterMap fun item =>
          ((namesBelow? place item.1).map fun names => (names, item.2)).bind keep := by
    intro tree hnone
    rw [entriesBelow, List.filterMap_filterMap, List.filterMap_filter]
    apply List.filterMap_congr
    intro item hitem
    by_cases hmem : item.1 ∈ places
    · simp only [hmem, not_true, decide_false, Bool.false_eq_true, if_false, Option.bind_map,
        Option.bind_eq_none_iff]
      intro names hnames
      have hplace := namesBelow?_eq_some.mp hnames
      exact hnone names item.2 (by rw [← hplace]; exact hitem) (hplace ▸ hmem)
    · simp [hmem]
  rw [hrest other hafter, hrest tree h, ha.entries]

theorem get?_of_mem {entry : Entry} (hdistinct : (tree.entries.map (·.1)).Nodup)
    (h : (place, entry) ∈ tree.entries) : tree.get? place = some entry := by
  have hlookup : tree.entries.lookup place = some entry := by
    revert hdistinct h
    induction tree.entries with
    | nil => simp
    | cons item rest ih =>
        intro hdistinct h
        rw [List.map_cons, List.nodup_cons] at hdistinct
        rcases List.mem_cons.mp h with rfl | hmem
        · simp
        · have hne : place ≠ item.1 := by
            rintro rfl
            exact hdistinct.1 (List.mem_map_of_mem (f := (·.1)) hmem)
          rw [List.lookup_cons, beq_false_of_ne hne]
          exact ih hdistinct.2 hmem
  rw [get?, hlookup]

theorem lookup_of_file {bytes : ByteArray} {mode : Nat}
    (h : tree.get? place = some (.file bytes mode)) :
    tree.entries.lookup place = some (.file bytes mode) := by
  unfold get? at h
  split at h
  · rename_i entry hlookup
    rw [hlookup, h]
  · split at h <;> cases h

theorem ChangedAt.entry_ne_directory (hc : ChangedAt places tree other) {names : List String}
    {entry : Entry} (h : (place ++ names, entry) ∈ tree.entries) (hmem : place ++ names ∈ places)
    (mode : Nat) : entry ≠ .directory mode := by
  rintro rfl
  exact (hc.blocks _ hmem).notDirectory ⟨mode, get?_of_mem hc.distinct h⟩

/-- A change leaves what is kept of the directories below a place. -/
theorem ChangedAt.filterMap_directories_eq {α : Type} (hc : ChangedAt places tree other)
    (place : Location) {keep : List String × Entry → Option α}
    (hkeep : ∀ names entry, (∀ mode, entry ≠ .directory mode) → keep (names, entry) = none) :
    (other.entriesBelow place).filterMap keep = (tree.entriesBelow place).filterMap keep :=
  entriesBelow_filterMap_eq hc.agree
    (fun names entry h hmem => hkeep names entry (hc.entry_ne_directory h hmem))
    (fun names entry h hmem => hkeep names entry (hc.symm.entry_ne_directory h hmem))

theorem shutIn_entriesBelow (hc : ChangedAt places tree other) (place : Location) :
    shutIn (other.entriesBelow place) = shutIn (tree.entriesBelow place) := by
  apply hc.filterMap_directories_eq place
  intro names entry hne
  cases entry <;> simp at hne ⊢

theorem barredIn_entriesBelow (hc : ChangedAt places tree other) (root : Path)
    (place : Location) :
    barredIn root (other.entriesBelow place) = barredIn root (tree.entriesBelow place) := by
  rw [barredIn, barredIn, shutIn_entriesBelow hc]
  apply hc.filterMap_directories_eq place
  intro names entry hne
  cases entry <;> simp at hne ⊢

theorem mem_entriesBelow {names : List String} {entry : Entry} :
    (names, entry) ∈ tree.entriesBelow place ↔ (place ++ names, entry) ∈ tree.entries := by
  simp only [entriesBelow, List.mem_filterMap, Option.map_eq_some_iff, namesBelow?_eq_some,
    Prod.mk.injEq]
  constructor
  · intro hx
    rcases hx with ⟨item, hitem, names, hplace, rfl, rfl⟩
    rwa [← hplace]
  · intro h
    exact ⟨_, h, names, rfl, rfl, rfl⟩

/-- What the listing of a directory makes of an entry below it. -/
def listedFile? (root : Path) (entries : List (List String × Entry)) :
    List String × Entry → Option Path
  | (names, .file _ _) =>
      if !isBelow ((barredIn root entries).map (·.1)) names then some (names.foldl Path.join root)
      else none
  | _ => none

theorem files_listingUnder :
    (tree.listingUnder root place).files =
      (tree.entriesBelow place).filterMap (listedFile? root (tree.entriesBelow place)) :=
  rfl

theorem listedFile?_eq_some {entries : List (List String × Entry)} {names : List String}
    {entry : Entry} {path : Path} (h : listedFile? root entries (names, entry) = some path) :
    path = names.foldl Path.join root ∧ ∃ bytes mode, entry = .file bytes mode := by
  cases entry with
  | directory mode => cases h
  | link target => cases h
  | file bytes mode =>
      simp only [listedFile?] at h
      split at h
      · cases h
        exact ⟨rfl, bytes, mode, rfl⟩
      · cases h

/-- What is kept of the files below a directory is the same if no file at a changed place is
kept. -/
theorem listingUnder_filterMap_eq {α : Type} (hc : ChangedAt places tree other)
    {keep : Path → Option α}
    (h : ∀ names bytes mode, (place ++ names, .file bytes mode) ∈ tree.entries →
      place ++ names ∈ places →
      names.foldl Path.join root ∈ (tree.listingUnder root place).files →
      keep (names.foldl Path.join root) = none)
    (hafter : ∀ names bytes mode, (place ++ names, .file bytes mode) ∈ other.entries →
      place ++ names ∈ places →
      names.foldl Path.join root ∈ (other.listingUnder root place).files →
      keep (names.foldl Path.join root) = none) :
    (other.listingUnder root place).files.filterMap keep =
      (tree.listingUnder root place).files.filterMap keep := by
  have hnone : ∀ tree : FileTree, (∀ names bytes mode,
      (place ++ names, .file bytes mode) ∈ tree.entries → place ++ names ∈ places →
      names.foldl Path.join root ∈ (tree.listingUnder root place).files →
      keep (names.foldl Path.join root) = none) → ∀ names entry,
      (place ++ names, entry) ∈ tree.entries → place ++ names ∈ places →
      (listedFile? root (tree.entriesBelow place) (names, entry)).bind keep = none := by
    intro tree h names entry hmem hplace
    rw [Option.bind_eq_none_iff]
    intro path hlisted
    obtain ⟨rfl, bytes, mode, rfl⟩ := listedFile?_eq_some hlisted
    apply h names bytes mode hmem hplace
    rw [files_listingUnder]
    exact List.mem_filterMap.mpr ⟨_, mem_entriesBelow.mpr hmem, hlisted⟩
  have hlisted : listedFile? root (other.entriesBelow place) =
      listedFile? root (tree.entriesBelow place) := by
    funext item
    rcases item with ⟨names, _ | _ | _⟩ <;> simp [listedFile?, barredIn_entriesBelow hc]
  have hother := hnone other hafter
  rw [hlisted] at hother
  rw [files_listingUnder, files_listingUnder, hlisted, List.filterMap_filterMap,
    List.filterMap_filterMap]
  exact entriesBelow_filterMap_eq hc.agree (hnone tree h) hother

end LocaleTidy.FileTree
