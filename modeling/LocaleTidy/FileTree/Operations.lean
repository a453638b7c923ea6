import LocaleTidy.FileTree.Resolve

/-!
# File operations

Each operation that changes a tree returns the changed one; one that fails leaves everything
as it was.
-/

namespace LocaleTidy.FileTree

/-! ## Reading -/

/-- What a path leads to, if it may be read. -/
def findReadable (tree : FileTree) (path : Path) : Except FileError (Location × Entry) := do
  let (location, entry) ← tree.find path
  if entry.permits .read then return (location, entry) else throw .denied

def readBytes (tree : FileTree) (path : Path) : Except FileError ByteArray := do
  match ← tree.findReadable path with
  | (_, .file bytes _) => return bytes
  | _ => throw .isDirectory

def readText (tree : FileTree) (path : Path) : Except FileError String := do
  match String.fromUTF8? (← tree.readBytes path) with
  | some text => return text
  | none => throw .notText

def modeOf (tree : FileTree) (path : Path) : Except FileError Nat := do
  match ← tree.find path with
  | (_, .file _ mode) => return mode
  | (_, .directory mode) => return mode
  | (_, .link _) => throw .notFound

/-! ## Writing -/

/-- Whether names may be added to the directory that a place is in, and taken out of it. -/
def permitsChange (tree : FileTree) (location : Location) : Bool :=
  tree.permits .write location.dropLast

/-- The tree in which the file at a path is there and holds the given bytes. A new file gets
the given mode, and one that was there keeps its own. -/
def writeNew (tree : FileTree) (path : Path) (bytes : ByteArray) (mode : Nat) :
    Except FileError FileTree := do
  let spot ← tree.resolve .write path
  match spot.entry with
  | some (.file _ old) =>
      if tree.permits .write spot.location then
        return tree.set spot.location (.file bytes old)
      else throw .denied
  | some _ => throw .isDirectory
  | none =>
      if tree.permitsChange spot.location then return tree.set spot.location (.file bytes mode)
      else throw .denied

def writeBytes (tree : FileTree) (path : Path) (bytes : ByteArray) : Except FileError FileTree :=
  tree.writeNew path bytes Entry.newFileMode

def writeText (tree : FileTree) (path : Path) (text : String) : Except FileError FileTree :=
  tree.writeBytes path text.toUTF8

def setMode (tree : FileTree) (path : Path) (mode : Nat) : Except FileError FileTree := do
  match ← tree.find path with
  | (location, .file bytes _) => return tree.set location (.file bytes mode)
  | (location, .directory _) => return tree.set location (.directory mode)
  | (_, .link _) => throw .notFound

/-- Copies the bytes and the permission bits of a file. The copy is emptied before the bytes
are read, so that a file which is copied onto itself ends up empty. -/
def copy (tree : FileTree) (source target : Path) : Except FileError FileTree := do
  match ← tree.findReadable source with
  | (location, .file bytes mode) =>
      let emptied ← tree.writeNew target ByteArray.empty mode
      let spot ← emptied.resolve .write target
      let bytes := if spot.location = location then ByteArray.empty else bytes
      return emptied.set spot.location (.file bytes mode)
  | _ => throw .notRegular

/-! ## Moving and removing -/

/-- The pieces of a path up to its last name, that name, and whether a slash follows it. A path
that does not end in a name has none. -/
def splitLast (path : Path) : List String × Option String × Bool :=
  let pieces := Text.split '/' path.text
  match (pieces.reverse.dropWhile (· == "")) with
  | [] => (pieces, none, false)
  | last :: before =>
      let slash := pieces.getLast? == some ""
      if last = "." ∨ last = ".." then (pieces, none, slash)
      else (before.reverse, some last, slash)

/-- The place of a path's last name in the directory before it; the name itself is not looked
up, and no slash may follow it. -/
def placeFor (tree : FileTree) (path : Path) : Except FileError Location := do
  checkForm path
  let (before, last, slash) := splitLast path
  let start := if path.isAbsolute then [] else tree.current
  let spot ← walkWithin tree .use maxLinks start (before ++ [""])
  if spot.entry.isNone then throw .notFound
  match last with
  | none => throw .busy
  | some name =>
      if !tree.permits .enter spot.location then throw .denied
      else if maxNameBytes < name.utf8ByteSize then throw .nameTooLong
      else if slash then throw .notDirectory
      else return spot.location ++ [name]

/-- Moves a file or a link to a path, over another file or link if one is there. -/
def rename (tree : FileTree) (source target : Path) : Except FileError FileTree := do
  let spot ← tree.resolve .handle source
  let place ← tree.placeFor target
  match spot.entry with
  | none => throw .notFound
  | some entry =>
      if place = spot.location then return tree
      else if !(tree.permitsChange spot.location && tree.permitsChange place) then throw .denied
      else
        match tree.get? place with
        | some (.directory _) => throw .isDirectory
        | _ => return (tree.erase spot.location).set place entry

def remove (tree : FileTree) (path : Path) : Except FileError FileTree := do
  let spot ← tree.resolve .handle path
  match spot.entry with
  | none => throw .notFound
  | some entry =>
      if !tree.permitsChange spot.location then throw .denied
      else
        match entry with
        | .directory _ => throw .isDirectory
        | _ => return tree.erase spot.location

end LocaleTidy.FileTree
