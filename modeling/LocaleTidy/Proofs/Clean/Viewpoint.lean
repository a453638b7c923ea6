import LocaleTidy.Clean.Apply
import LocaleTidy.Proofs.Analysis.WrittenOut
import LocaleTidy.Proofs.FileTree.Viewpoint

/-!
# A project from another directory

Every path of a project whose root is written from the root directory is written so too. Such a
project is analysed and cleaned up alike from all directories.
-/

namespace LocaleTidy

open FileTree

variable {tree : FileTree} {root path : Path} {settings : Settings} {filter : SourceFilter}

/-- What a walk from a root comes upon is written from where the root is. -/
theorem FileTree.isAbsolute_of_mem_listing (h : root.isAbsolute = true)
    (hmem : path ∈ (tree.listing root).files) : path.isAbsolute = true := by
  have hunder : ∀ place, path ∈ (tree.listingUnder root place).files →
      path.isAbsolute = true := by
    intro place hlisted
    obtain ⟨names, -, -, -, rfl, -⟩ := mem_files_listingUnder.mp hlisted
    exact Path.isAbsolute_foldl_join h names
  unfold listing at hmem
  split at hmem
  · rw [List.mem_singleton.mp hmem]
    exact h
  · exact hunder _ hmem
  · split at hmem
    · exact hunder _ hmem
    · cases hmem
  · cases hmem

namespace Corpus

theorem load_inDirectory (place : Location) {roots : List Path}
    (hroots : ∀ root ∈ roots, root.isAbsolute = true) :
    load (tree.inDirectory place) roots filter = load tree roots filter := by
  have hcandidates : ∀ root ∈ roots,
      candidates (tree.inDirectory place) filter root = candidates tree filter root := by
    intro root hroot
    rw [candidates, candidates, listing_inDirectory place (hroots root hroot)]
  have hpaths : paths (tree.inDirectory place) roots filter = paths tree roots filter := by
    rw [paths_eq, paths_eq, List.flatMap_congr hcandidates]
  have hresults : (paths tree roots filter).map
        (fun item => readFile (tree.inDirectory place) item.1 item.2) =
      (paths tree roots filter).map fun item => readFile tree item.1 item.2 := by
    refine List.map_congr_left fun item hitem => ?_
    rw [paths_eq] at hitem
    obtain ⟨root, hroot, hmem⟩ := List.mem_flatMap.mp (mem_of_mem_inOrder hitem)
    obtain ⟨path, hlisted, hjudged⟩ := List.mem_filterMap.mp hmem
    obtain ⟨excluded, -, rfl⟩ := Option.map_eq_some_iff.mp hjudged
    rw [readFile, readFile, readText_inDirectory place
      (isAbsolute_of_mem_listing (hroots root hroot) hlisted)]
  have hproblems : roots.flatMap (walkProblems (tree.inDirectory place)) =
      roots.flatMap (walkProblems tree) := by
    refine List.flatMap_congr fun root hroot => ?_
    rw [walkProblems, walkProblems, isThere_inDirectory place (hroots root hroot),
      listing_inDirectory place (hroots root hroot)]
  simp only [load, hpaths, hresults, hproblems]

end Corpus

theorem analyze_inDirectory (place : Location) (h : root.isAbsolute = true) :
    analyze (tree.inDirectory place) settings root = analyze tree settings root := by
  have hcatalog : Catalog.load (tree.inDirectory place) (settings.messagesPath root) =
      Catalog.load tree (settings.messagesPath root) := by
    have hpath : (settings.messagesPath root).isAbsolute = true := Path.isAbsolute_join h _
    rw [Catalog.load, Catalog.load, readText_inDirectory place hpath]
  have hsources : ∀ source ∈ settings.sourcePaths root, source.isAbsolute = true := by
    intro source hsource
    obtain ⟨text, -, rfl⟩ := List.mem_map.mp hsource
    exact Path.isAbsolute_join h text
  rw [analyze, analyze, hcatalog]
  simp only [Corpus.load_inDirectory place hsources]

/-! ## Changes -/

namespace Catalog

variable {temporary target : Path}

theorem inheritMode_inDirectory (refusals : Refusals) (place : Location)
    (hs : temporary.isAbsolute = true) (ht : target.isAbsolute = true) :
    inheritMode refusals (tree.inDirectory place) temporary target =
      (inheritMode refusals tree temporary target).map (·.inDirectory place) := by
  rw [inheritMode, inheritMode, modeOf_inDirectory place ht]
  cases unlessRefused refusals.look (tree.modeOf target) with
  | error error => rfl
  | ok mode => simp only [setMode_inDirectory place hs mode, unlessRefused_map]

theorem discard_inDirectory (refusals : Refusals) (place : Location)
    (h : temporary.isAbsolute = true) :
    discard refusals (tree.inDirectory place) temporary =
      (discard refusals tree temporary).inDirectory place := by
  rw [discard, discard, remove_inDirectory place h, unlessRefused_map]
  cases unlessRefused refusals.remove (tree.remove temporary) <;> rfl

theorem replace_inDirectory (refusals : Refusals) (place : Location)
    (hs : temporary.isAbsolute = true) (ht : target.isAbsolute = true) :
    replace refusals (tree.inDirectory place) temporary target =
      (replace refusals tree temporary target).map id (·.inDirectory place) := by
  rw [replace, replace, inheritMode_inDirectory refusals place hs ht]
  cases inheritMode refusals tree temporary target with
  | error error => simp only [Except.map, discard_inDirectory refusals place hs, Prod.map, id]
  | ok ready =>
      simp only [Except.map]
      rw [rename_inDirectory place hs ht, unlessRefused_map]
      cases unlessRefused refusals.rename (ready.rename temporary target) with
      | error error => simp only [Except.map, discard_inDirectory refusals place hs, Prod.map, id]
      | ok moved => rfl

theorem save_inDirectory (catalog : Catalog) (place : Location) (h : path.isAbsolute = true) :
    catalog.save (tree.inDirectory place) path =
      (catalog.save tree path).map id (·.inDirectory place) := by
  have htemporary : (temporaryFor path).isAbsolute = true := Path.isAbsolute_withFileName h _
  unfold save saveAmid
  simp only [writeText, writeBytes, writeNew_inDirectory place htemporary, unlessRefused_map]
  cases unlessRefused Refusals.none.write
      (tree.writeNew (temporaryFor path) catalog.toText.toUTF8 Entry.newFileMode) with
  | error error => simp only [Except.map, Prod.map, id]
  | ok written => simp only [Except.map, replace_inDirectory .none place htemporary h, Prod.map, id]

end Catalog

def Cleaned.inDirectory {σ : Type} (cleaned : Cleaned σ) (place : Location) : Cleaned σ :=
  { cleaned with tree := cleaned.tree.inDirectory place }

namespace Analysis

variable {σ : Type} {analysis : Analysis} {options : CleanOptions}

theorem backUpAndDelete_inDirectory (place : Location) (h : root.isAbsolute = true)
    (hpath : analysis.messagesPath.isAbsolute = true) :
    analysis.backUpAndDelete settings root options (tree.inDirectory place) =
      (analysis.backUpAndDelete settings root options tree).map id (·.inDirectory place) := by
  have hdelete : ∀ (backup : Option Path) (tree : FileTree),
      analysis.delete backup (tree.inDirectory place) =
        (analysis.delete backup tree).map id (·.inDirectory place) := by
    intro backup tree
    unfold delete
    simp only [Catalog.save_inDirectory _ place hpath, Prod.map, id]
  have hbackup : (settings.backupPath root).isAbsolute = true :=
    Path.isAbsolute_append (Path.isAbsolute_join h _) _
  unfold backUpAndDelete backUp
  by_cases hnone : options.noBackup = true
  · simp only [hnone, if_true, hdelete]
  · simp only [hnone, FileTree.backUp, copy_inDirectory place hpath hbackup]
    cases tree.copy analysis.messagesPath (settings.backupPath root) with
    | error error => rfl
    | ok kept => exact hdelete _ kept

theorem clean_inDirectory (confirm : Confirm σ) (state : σ) (place : Location)
    (h : root.isAbsolute = true) (hpath : analysis.messagesPath.isAbsolute = true) :
    analysis.clean settings root options confirm (tree.inDirectory place) state =
      (analysis.clean settings root options confirm tree state).inDirectory place := by
  unfold clean
  split
  · rfl
  split
  · rfl
  generalize (if options.yes then (.ok true, state)
    else confirm analysis.unusedKeys state) = asked
  rcases asked with ⟨error | _ | _, left⟩
  · rfl
  · rfl
  · simp only [backUpAndDelete_inDirectory place h hpath]
    rfl

end Analysis

end LocaleTidy
