import LocaleTidy.Clean.Apply
import LocaleTidy.Proofs.FileTree.Outline

/-!
# What a clean-up does not see

A clean-up writes the catalog that the analysis holds, and so how it ends depends on the outline of
the tree alone: what is in the files does not matter any more.
-/

namespace LocaleTidy

open FileTree

variable {tree other : FileTree} {source target temporary path root : Path}

namespace Catalog

theorem inheritMode_outline (refusals : Refusals) (tree : FileTree) (temporary target : Path) :
    inheritMode refusals tree.outline temporary target =
      (inheritMode refusals tree temporary target).map outline := by
  rw [inheritMode, inheritMode, modeOf_outline]
  cases unlessRefused refusals.look (tree.modeOf target) with
  | error error => rfl
  | ok mode => simp only [setMode_outline, unlessRefused_map]

theorem discard_outline (refusals : Refusals) (tree : FileTree) (temporary : Path) :
    discard refusals tree.outline temporary = (discard refusals tree temporary).outline := by
  rw [discard, discard, remove_outline, unlessRefused_map]
  cases unlessRefused refusals.remove (tree.remove temporary) <;> rfl

theorem replace_outline (refusals : Refusals) (tree : FileTree) (temporary target : Path) :
    replace refusals tree.outline temporary target =
      ((replace refusals tree temporary target).1,
        (replace refusals tree temporary target).2.outline) := by
  rw [replace, replace, inheritMode_outline]
  cases inheritMode refusals tree temporary target with
  | error error => simp only [Except.map, discard_outline]
  | ok ready =>
      simp only [Except.map]
      rw [rename_outline, unlessRefused_map]
      cases unlessRefused refusals.rename (ready.rename temporary target) with
      | error error => simp only [Except.map, discard_outline]
      | ok moved => rfl

/-- Saves to two trees of one outline end alike, and leave trees of one outline. -/
theorem save_congr (catalog : Catalog) (h : other.outline = tree.outline) (path : Path) :
    (catalog.save other path).1 = (catalog.save tree path).1 ∧
      (catalog.save other path).2.outline = (catalog.save tree path).2.outline := by
  unfold save saveAmid
  simp only [Refusals.none, unlessRefused, writeText, writeBytes]
  rcases writeNew_changedAlike h (temporaryFor path) catalog.toText.toUTF8 Entry.newFileMode with
    ⟨error, hfirst, hsecond⟩ | ⟨left, right, hfirst, hsecond, hsame⟩
  · simp only [hfirst, hsecond, h, and_self]
  · simp only [hfirst, hsecond]
    have hreplaced := replace_outline .none right (temporaryFor path) path
    rw [hsame, replace_outline] at hreplaced
    obtain ⟨hresult, houtline⟩ := Prod.mk.inj hreplaced
    simp only [Refusals.none] at hresult houtline
    simp only [hresult, houtline, and_self]

end Catalog

namespace Analysis

variable {σ : Type} {settings again : Settings}

theorem backUpAndDelete_congr (analysis : Analysis) (options : CleanOptions)
    (h : other.outline = tree.outline)
    (hbackup : again.backupPath root = settings.backupPath root) :
    (analysis.backUpAndDelete again root options other).1 =
      (analysis.backUpAndDelete settings root options tree).1 := by
  have hdelete : ∀ {left right : FileTree} (backup : Option Path),
      right.outline = left.outline →
      (analysis.delete backup right).1 = (analysis.delete backup left).1 := by
    intro left right backup hsame
    simp only [delete, (Catalog.save_congr _ hsame _).1]
  unfold backUpAndDelete backUp
  by_cases hnone : options.noBackup = true
  · simp only [hnone, if_true]
    exact hdelete none h
  · simp only [hnone, FileTree.backUp, hbackup]
    rcases copy_changedAlike h analysis.messagesPath (settings.backupPath root) with
      ⟨error, hfirst, hsecond⟩ | ⟨left, right, hfirst, hsecond, hsame⟩
    · rw [hfirst, hsecond]
      rfl
    · rw [hfirst, hsecond]
      exact hdelete _ hsame

/-- Clean-ups of two trees of one outline end alike if they make the same backup. -/
theorem clean_congr (analysis : Analysis) (options : CleanOptions) (confirm : Confirm σ)
    (state : σ) (h : other.outline = tree.outline)
    (hbackup : again.backupPath root = settings.backupPath root) :
    (analysis.clean again root options confirm other state).outcome =
        (analysis.clean settings root options confirm tree state).outcome ∧
      (analysis.clean again root options confirm other state).state =
        (analysis.clean settings root options confirm tree state).state := by
  unfold clean
  split
  · exact ⟨rfl, rfl⟩
  split
  · exact ⟨rfl, rfl⟩
  generalize (if options.yes then (.ok true, state)
    else confirm analysis.unusedKeys state) = asked
  rcases asked with ⟨error | _ | _, left⟩
  · exact ⟨rfl, rfl⟩
  · exact ⟨rfl, rfl⟩
  · exact ⟨backUpAndDelete_congr analysis options h hbackup, rfl⟩

end Analysis

end LocaleTidy
