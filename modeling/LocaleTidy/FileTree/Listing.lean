import LocaleTidy.FileTree.Resolve

/-!
# Listing what lies below a directory

A walk from a directory lists it and then every directory in it. One that cannot be listed is
named together with the reason, and what lies below it is not come upon. Links are not followed.
-/

namespace LocaleTidy

structure Listing where
  files : List Path
  /-- The directories that cannot be listed, and why. -/
  barred : List (Path × FileError)
  deriving DecidableEq, Repr

namespace FileTree

/-- The names from one place down to another one below it. -/
def namesBelow? : Location → Location → Option (List String)
  | [], names => some names
  | _ :: _, [] => none
  | name :: rest, other :: names => if name = other then namesBelow? rest names else none

/-- What stands at or below a place, each entry with the names that lead down to it. -/
def entriesBelow (tree : FileTree) (location : Location) : List (List String × Entry) :=
  tree.entries.filterMap fun (other, entry) =>
    (namesBelow? location other).map fun names => (names, entry)

/-- Whether one of some directories lies above what the names lead to. -/
def isBelow (directories : List (List String)) (names : List String) : Bool :=
  directories.any fun above => above.isPrefixOf names && above != names

/-- Why a directory at a path cannot be listed, if it cannot. Its names have to be looked up, and
so no directory above it may be shut. -/
def listingError? (shut : List (List String)) (path : Path) (names : List String) (mode : Nat) :
    Option FileError :=
  if maxPathBytes ≤ path.text.utf8ByteSize then some .nameTooLong
  else if isBelow shut names || !mode.testBit Right.read.bit then some .denied
  else none

/-- Those of some entries that are directories which may not be entered. -/
def shutIn (entries : List (List String × Entry)) : List (List String) :=
  entries.filterMap fun
    | (names, .directory mode) => if mode.testBit Right.enter.bit then none else some names
    | _ => none

/-- Those of some entries that are directories which cannot be listed, and why. -/
def barredIn (root : Path) (entries : List (List String × Entry)) :
    List (List String × FileError) :=
  entries.filterMap fun
    | (names, .directory mode) =>
        (listingError? (shutIn entries) (names.foldl Path.join root) names mode).map fun error =>
          (names, error)
    | _ => none

/-- What a walk from the directory at a place comes upon, as paths from `root` on. -/
def listingUnder (tree : FileTree) (root : Path) (location : Location) : Listing :=
  let pathOf (names : List String) : Path := names.foldl Path.join root
  let entries := tree.entriesBelow location
  let barred := barredIn root entries
  let reached (names : List String) : Bool := !isBelow (barred.map (·.1)) names
  { files := entries.filterMap fun
      | (names, .file _ _) => if reached names then some (pathOf names) else none
      | _ => none
    barred := barred.filterMap fun (names, error) =>
      if reached names then some (pathOf names, error) else none }

/-- What a walk from `root` comes upon: the root itself if it is a file, or what lies below it if
it is a directory or a link to one. -/
def listing (tree : FileTree) (root : Path) : Listing :=
  match tree.resolve .handle root with
  | .ok ⟨_, some (.file _ _)⟩ => ⟨[root], []⟩
  | .ok ⟨location, some (.directory _)⟩ => tree.listingUnder root location
  | .ok ⟨_, some (.link _)⟩ =>
      match tree.find root with
      | .ok (location, .directory _) => tree.listingUnder root location
      | _ => ⟨[], []⟩
  | _ => ⟨[], []⟩

end FileTree

end LocaleTidy
