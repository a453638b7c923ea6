import LocaleTidy.Analysis

/-!
# Taking unused keys out

The unused keys of an analysis are deleted from the catalog file, once the user agrees and
the file is backed up.
-/

namespace LocaleTidy

structure CleanOptions where
  /-- Delete without asking. -/
  yes : Bool
  /-- Make no backup. -/
  noBackup : Bool
  /-- Change nothing. -/
  dryRun : Bool
  deriving DecidableEq, Repr

inductive CleanOutcome where
  | nothingToClean
  | dryRun
  /-- The user does not agree. -/
  | declined
  /-- The file could not be backed up, so it was left alone. -/
  | backupFailed (error : ProjectError)
  /-- The keys are gone; the backup is named if one was made. -/
  | applied (deleted : List String) (backup : Option Path)

/-- Asks whether some keys are to be deleted. An answer may depend on a state and change it. -/
abbrev Confirm (σ : Type) := List String → σ → Except ProjectError Bool × σ

structure Cleaned (σ : Type) where
  outcome : Except ProjectError CleanOutcome
  tree : FileTree
  /-- The state that the questions leave. -/
  state : σ

namespace Analysis

/-- Makes the backup, unless none is wanted: the path of it, and the changed tree. -/
def backUp (analysis : Analysis) (settings : Settings) (root : Path) (options : CleanOptions)
    (tree : FileTree) : Except ProjectError (Option Path × FileTree) :=
  if options.noBackup then .ok (none, tree)
  else do
    let backup := settings.backupPath root
    return (some backup, ← tree.backUp analysis.messagesPath backup)

def delete (analysis : Analysis) (backup : Option Path) (tree : FileTree) :
    Except ProjectError CleanOutcome × FileTree :=
  let (deleted, catalog) := analysis.catalog.eraseAll analysis.unusedKeys
  let (result, tree) := catalog.save tree analysis.messagesPath
  (result.map fun _ => .applied deleted backup, tree)

def backUpAndDelete (analysis : Analysis) (settings : Settings) (root : Path)
    (options : CleanOptions) (tree : FileTree) : Except ProjectError CleanOutcome × FileTree :=
  match analysis.backUp settings root options tree with
  | .error error => (.ok (.backupFailed error), tree)
  | .ok (backup, tree) => analysis.delete backup tree

/-- Cleans the catalog file up. The user is asked only if there is something to delete and
neither `yes` nor `dryRun` is set. -/
def clean {σ : Type} (analysis : Analysis) (settings : Settings) (root : Path)
    (options : CleanOptions) (confirm : Confirm σ) (tree : FileTree) (state : σ) : Cleaned σ :=
  if analysis.unusedKeys.isEmpty then ⟨.ok .nothingToClean, tree, state⟩
  else if options.dryRun then ⟨.ok .dryRun, tree, state⟩
  else
    let (answer, state) :=
      if options.yes then (.ok true, state) else confirm analysis.unusedKeys state
    match answer with
    | .error error => ⟨.error error, tree, state⟩
    | .ok false => ⟨.ok .declined, tree, state⟩
    | .ok true =>
        let (outcome, tree) := analysis.backUpAndDelete settings root options tree
        ⟨outcome, tree, state⟩

end Analysis

end LocaleTidy
