import LocaleTidy.FileTree.Listing
import LocaleTidy.FileTree.Operations
import LocaleTidy.Proofs.FileTree.Joined

/-!
# A tree from another directory

Only paths that do not begin at the root directory depend on the current directory. What a path
from the root leads to, and what an operation at it does, is the same wherever it is run.
-/

namespace LocaleTidy

namespace FileTree

variable {tree : FileTree} {path source target : Path}

def inDirectory (tree : FileTree) (place : Location) : FileTree :=
  { tree with current := place }

/-- The path from the root directory to a place. -/
def pathOf (place : Location) : Path :=
  ⟨"/" ++ String.intercalate "/" place⟩

theorem currentPath_inDirectory (tree : FileTree) (place : Location) :
    (tree.inDirectory place).currentPath = pathOf place :=
  rfl

theorem WellFormed.inDirectory {place : Location} (ht : tree.WellFormed)
    (h : tree.IsDirectory place) : (tree.inDirectory place).WellFormed :=
  ⟨⟨ht.root, ht.parents⟩, ht.distinct, ht.names, h⟩

variable (place : Location)

/-! ## Where a path leads -/

theorem get?_inDirectory (location : Location) :
    (tree.inDirectory place).get? location = tree.get? location :=
  rfl

theorem step_inDirectory :
    step (tree.inDirectory place) = step tree :=
  rfl

theorem walkWithin_inDirectory (purpose : Purpose) (links : Nat) (here : Location)
    (pieces : List String) :
    walkWithin (tree.inDirectory place) purpose links here pieces =
      walkWithin tree purpose links here pieces := by
  induction links, here, pieces using walk_induction tree purpose with
  | done links here => rw [walkWithin_nil, walkWithin_nil]; rfl
  | stop links here piece rest result hstep hwalk =>
      rw [hwalk, walkWithin_cons, step_inDirectory, hstep]
      rfl
  | go links here piece rest there hstep hwalk ih =>
      rw [hwalk, walkWithin_cons, step_inDirectory, hstep]
      exact ih
  | tired here piece rest start pieces hstep hwalk =>
      rw [hwalk, walkWithin_cons, step_inDirectory, hstep]
      rfl
  | follow links here piece rest start pieces hstep hwalk ih =>
      rw [hwalk, walkWithin_cons, step_inDirectory, hstep]
      exact ih

variable (h : path.isAbsolute = true)

include h

theorem resolve_inDirectory (purpose : Purpose) :
    (tree.inDirectory place).resolve purpose path = tree.resolve purpose path := by
  rw [resolve, resolve, if_pos h, if_pos h]
  simp only [walkWithin_inDirectory]

theorem find_inDirectory : (tree.inDirectory place).find path = tree.find path := by
  rw [find, find, resolve_inDirectory place h]

theorem isThere_inDirectory : (tree.inDirectory place).isThere path = tree.isThere path := by
  rw [isThere, isThere, find_inDirectory place h]

theorem readText_inDirectory : (tree.inDirectory place).readText path = tree.readText path := by
  rw [readText, readText, readBytes, readBytes, findReadable, findReadable,
    find_inDirectory place h]

theorem modeOf_inDirectory : (tree.inDirectory place).modeOf path = tree.modeOf path := by
  rw [modeOf, modeOf, find_inDirectory place h]

theorem listing_inDirectory : (tree.inDirectory place).listing path = tree.listing path := by
  rw [listing, listing, resolve_inDirectory place h, find_inDirectory place h]
  rfl

theorem placeFor_inDirectory :
    (tree.inDirectory place).placeFor path = tree.placeFor path := by
  rw [placeFor, placeFor, if_pos h, if_pos h]
  simp only [walkWithin_inDirectory]
  rfl

/-! ## What an operation does -/

omit h in
theorem permits_inDirectory (right : Right) (location : Location) :
    (tree.inDirectory place).permits right location = tree.permits right location :=
  rfl

omit h in
theorem permitsChange_inDirectory (location : Location) :
    (tree.inDirectory place).permitsChange location = tree.permitsChange location :=
  rfl

theorem writeNew_inDirectory (bytes : ByteArray) (mode : Nat) :
    (tree.inDirectory place).writeNew path bytes mode =
      (tree.writeNew path bytes mode).map (·.inDirectory place) := by
  rw [writeNew, writeNew, resolve_inDirectory place h]
  rcases tree.resolve .write path with error | ⟨location, entry⟩
  · rfl
  · rcases entry with _ | mode | ⟨bytes, mode⟩ | target
    · dsimp only [bind, Except.bind]
      rw [permitsChange_inDirectory]
      split <;> rfl
    · rfl
    · dsimp only [bind, Except.bind]
      rw [permits_inDirectory]
      split <;> rfl
    · rfl

theorem setMode_inDirectory (mode : Nat) :
    (tree.inDirectory place).setMode path mode =
      (tree.setMode path mode).map (·.inDirectory place) := by
  rw [setMode, setMode, find_inDirectory place h]
  rcases tree.find path with error | ⟨location, _ | _ | _⟩ <;> rfl

theorem remove_inDirectory :
    (tree.inDirectory place).remove path = (tree.remove path).map (·.inDirectory place) := by
  rw [remove, remove, resolve_inDirectory place h]
  rcases tree.resolve .handle path with error | ⟨location, _ | entry⟩
  · rfl
  · rfl
  · dsimp only [bind, Except.bind]
    rw [permitsChange_inDirectory]
    split
    · rfl
    · cases entry <;> rfl

omit h in
theorem rename_inDirectory (hs : source.isAbsolute = true) (ht : target.isAbsolute = true) :
    (tree.inDirectory place).rename source target =
      (tree.rename source target).map (·.inDirectory place) := by
  rw [rename, rename, resolve_inDirectory place hs, placeFor_inDirectory place ht]
  rcases tree.resolve .handle source with error | ⟨location, entry⟩
  · rfl
  rcases tree.placeFor target with error | there
  · rfl
  cases entry with
  | none => rfl
  | some entry =>
      dsimp only [bind, Except.bind]
      rw [permitsChange_inDirectory, permitsChange_inDirectory, get?_inDirectory]
      split
      · rfl
      · split
        · rfl
        · rcases tree.get? there with _ | _ | _ | _ <;> rfl

omit h in
theorem copy_inDirectory (hs : source.isAbsolute = true) (ht : target.isAbsolute = true) :
    (tree.inDirectory place).copy source target =
      (tree.copy source target).map (·.inDirectory place) := by
  have hreadable : (tree.inDirectory place).findReadable source = tree.findReadable source := by
    rw [findReadable, findReadable, find_inDirectory place hs]
  rw [copy, copy, hreadable]
  rcases tree.findReadable source with error | ⟨location, _ | ⟨bytes, mode⟩ | _⟩
  · rfl
  · rfl
  · dsimp only [bind, Except.bind]
    rw [writeNew_inDirectory place ht]
    rcases tree.writeNew target ByteArray.empty mode with error | emptied
    · rfl
    · dsimp only [Except.map]
      rw [resolve_inDirectory place ht]
      rcases emptied.resolve .write target with error | spot <;> rfl
  · rfl

end FileTree

end LocaleTidy
