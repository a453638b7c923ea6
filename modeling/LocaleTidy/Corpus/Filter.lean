import LocaleTidy.Glob.Match
import LocaleTidy.Settings.Basic

/-!
# Which files are searched

A file is told by its path: by its extension, by the ignored paths and patterns, and by the
directories it lies in.
-/

namespace LocaleTidy

structure SourceFilter where
  extensions : List String
  globs : List Glob
  ignored : List Path
  excludedName : Option String
  /-- The directory to which the ignored paths are relative. -/
  base : Option Path

namespace SourceFilter

/-- Sorts ignored entries into patterns and paths, each in the order of the entries. -/
def splitIgnores : List String → Except Glob.Fault (List Glob × List Path)
  | [] => .ok ([], [])
  | entry :: rest => do
      if Glob.isPattern entry then
        let glob ← Glob.parse entry
        let (globs, paths) ← splitIgnores rest
        return (glob :: globs, paths)
      else
        let (globs, paths) ← splitIgnores rest
        return (globs, ⟨entry⟩ :: paths)

def make (extensions ignores : List String) (excludedName : Option String)
    (base : Option Path) : Except Glob.Fault SourceFilter := do
  let (globs, paths) ← splitIgnores ignores
  return ⟨extensions, globs, paths, excludedName, base⟩

def ofSettings (settings : Settings) (root : Path) : Except Glob.Fault SourceFilter :=
  make settings.extensions settings.ignores settings.excludedName (some root)

/-- The path as the filter sees it: below the base, or else below the directory where the walk
began, or else as it is. -/
def relative (filter : SourceFilter) (start path : Path) : Path :=
  match filter.base.bind path.relativeTo? with
  | some relative => relative
  | none => (path.relativeTo? start).getD path

def hasExtension (filter : SourceFilter) (path : Path) : Bool :=
  match path.extension? with
  | some extension => filter.extensions.contains extension
  | none => false

/-- Whether an entry covers a file: a path covers all that it begins, and a pattern may match
the relative path or the path as it is. -/
def isIgnored (filter : SourceFilter) (path relative : Path) : Bool :=
  filter.ignored.any (relative.startsWith ·) ||
    filter.globs.any fun glob => glob.matchesPath relative || glob.matchesPath path

/-- Whether one of the directories of a relative path has the excluded name. -/
def isExcluded (filter : SourceFilter) (relative : Path) : Bool :=
  match filter.excludedName, relative.parent? with
  | some name, some parent => parent.components.contains (.name name)
  | _, _ => false

/-- What a file counts for: nothing if it is not searched, and else whether it is excluded. -/
def judge (filter : SourceFilter) (start path : Path) : Option Bool :=
  let relative := filter.relative start path
  if filter.hasExtension path && !filter.isIgnored path relative then
    some (filter.isExcluded relative)
  else none

end SourceFilter

end LocaleTidy
