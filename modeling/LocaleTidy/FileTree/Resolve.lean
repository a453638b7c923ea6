import LocaleTidy.FileTree.Basic

/-!
# Where a path leads

A path is walked name by name. Every name but the last has to lead to a directory, and a name
is looked up only in a directory that may be entered. Symbolic links on the way are followed;
what the walk is for decides about the last one.
-/

namespace LocaleTidy.FileTree

/-- The place that a path leads to. Its directory is there, but it may be empty itself. -/
structure Spot where
  location : Location
  entry : Option Entry

/-- What the last name of a path is looked up for. -/
inductive Purpose where
  /-- To handle what bears the name, be it a link. -/
  | handle
  /-- To use what the name leads to. -/
  | use
  /-- To write a file that the name leads to, or a new one. -/
  | write
  deriving DecidableEq, Repr

/-- How many links may be followed on one path. -/
def maxLinks : Nat := 40

def maxNameBytes : Nat := 255

/-- The number of bytes that no path may reach. -/
def maxPathBytes : Nat := 4096

/-- Whether only slashes are left of a path, and at least one. -/
def endsInSlash (rest : List String) : Bool :=
  !rest.isEmpty && rest.all (· == "")

/-- Walks the pieces of a path from a directory on; `jump` goes on behind a link. A name with a
slash behind it is that of a directory, whatever bears it, and so none that can be written. -/
def walk (tree : FileTree) (purpose : Purpose)
    (jump : Location → List String → Except FileError Spot) :
    Location → List String → Except FileError Spot
  | here, [] => .ok ⟨here, tree.get? here⟩
  | here, piece :: rest =>
      if piece.isEmpty then walk tree purpose jump here rest
      else if !tree.permits .enter here then .error .denied
      else if piece = "." then walk tree purpose jump here rest
      else if piece = ".." then walk tree purpose jump here.dropLast rest
      else if purpose = .write && endsInSlash rest then .error .isDirectory
      else if maxNameBytes < piece.utf8ByteSize then .error .nameTooLong
      else
        let there := here ++ [piece]
        match tree.get? there with
        | none =>
            if rest.all (· == "") then .ok ⟨there, none⟩ else .error .notFound
        | some (.directory mode) =>
            if rest.isEmpty then .ok ⟨there, some (.directory mode)⟩
            else walk tree purpose jump there rest
        | some (.file bytes mode) =>
            if rest.isEmpty then .ok ⟨there, some (.file bytes mode)⟩
            else .error .notDirectory
        | some (.link target) =>
            if rest.isEmpty && purpose = .handle then .ok ⟨there, some (.link target)⟩
            else
              jump (if target.startsWith "/" then [] else here) (Text.split '/' target ++ rest)

/-- Walks pieces of a path, following at most the given number of links. -/
def walkWithin (tree : FileTree) (purpose : Purpose) :
    Nat → Location → List String → Except FileError Spot
  | 0 => walk tree purpose fun _ _ => .error .tooManyLinks
  | links + 1 => walk tree purpose (walkWithin tree purpose links)

/-- Refuses the texts that are no path at all. -/
def checkForm (path : Path) : Except FileError Unit :=
  if path.text.isEmpty then .error .notFound
  else if path.text.toList.contains '\x00' then .error .zeroInName
  else if maxPathBytes ≤ path.text.utf8ByteSize then .error .nameTooLong
  else .ok ()

def resolve (tree : FileTree) (purpose : Purpose) (path : Path) : Except FileError Spot := do
  checkForm path
  walkWithin tree purpose maxLinks (if path.isAbsolute then [] else tree.current)
    (Text.split '/' path.text)

/-- The place and the entry that a path leads to, past all links. -/
def find (tree : FileTree) (path : Path) : Except FileError (Location × Entry) := do
  let spot ← tree.resolve .use path
  match spot.entry with
  | some entry => return (spot.location, entry)
  | none => throw .notFound

def isThere (tree : FileTree) (path : Path) : Bool :=
  (tree.find path).toOption.isSome

end LocaleTidy.FileTree
