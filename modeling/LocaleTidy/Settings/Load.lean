import LocaleTidy.FileTree.Operations
import LocaleTidy.ProjectError
import LocaleTidy.Settings.Reader

/-!
# Finding the settings of a project

Settings are looked for in a directory and in the ones above it, up to the one that holds the
repository. The directory that holds them is the root of the project.
-/

namespace LocaleTidy.Settings

/-- The name of what marks the top directory of a repository. -/
def repositoryMark : String := ".git"

/-- A directory and those above it, as its path shows them, up to a number of steps. -/
def directoriesAbove : Nat → Path → List Path
  | 0, directory => [directory]
  | steps + 1, directory =>
      directory ::
        match directory.parent? with
        | some parent => directoriesAbove steps parent
        | none => []

/-- A directory and all those above it, as its path shows them. -/
def searchedDirectories (start : Path) : List Path :=
  directoriesAbove start.components.length start

/-- The first settings file in some directories; none is looked for past a repository. -/
def findIn (tree : FileTree) : List Path → Option Path
  | [] => none
  | directory :: rest =>
      if tree.isThere (directory.join fileName) then some (directory.join fileName)
      else if tree.isThere (directory.join repositoryMark) then none
      else findIn tree rest

/-- The settings file that holds for a directory. -/
def find? (tree : FileTree) (start : Path) : Option Path :=
  findIn tree (searchedDirectories start)

structure Loaded where
  settings : Settings
  /-- The directory to which the paths in the settings are relative. -/
  root : Path
  fromFile : Bool

/-- Loads the settings that hold for a directory; the default ones if there is no file. -/
def load (tree : FileTree) (start : Path) : Except ProjectError Loaded :=
  match find? tree start with
  | none => .ok ⟨default, start, false⟩
  | some path => do
      let text ← (tree.readText path).mapError (.unreadableSettings path)
      let settings ← (parse text).mapError (.malformedSettings path)
      settings.check.mapError .invalidSettings
      return ⟨settings, path.parent?.getD start, true⟩

end LocaleTidy.Settings
