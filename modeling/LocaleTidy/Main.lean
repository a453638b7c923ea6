import LocaleTidy.CommandLine.Run

/-!
# The program

Reads the part of the file system that a command looks at, runs the command on it, writes the
files that the command has changed, and prints what it has to say.
-/

namespace LocaleTidy.Program

open CommandLine

/-! ## Reading files -/

def placeOf (path : Path) : Location :=
  path.components.foldl
    (fun location component =>
      match component with
      | .name text => location ++ [text]
      | .up => location.dropLast
      | .root | .here => location)
    []

def pathOf (location : Location) : String :=
  "/" ++ String.intercalate "/" location

/-- A place in the form that a directory listing has. -/
def listed (location : Location) : IO.FS.DirEntry :=
  ⟨pathOf location.dropLast, location.getLastD "."⟩

/-- The kind of what stands at a place, past all links. -/
def kindOf? (location : Location) : IO (Option IO.FS.FileType) := do
  try
    let metadata ← (listed location).path.metadata
    return some metadata.type
  catch _ => return none

/-- Adds the directories that lead to a place. -/
def withParents (tree : FileTree) (location : Location) : FileTree :=
  (List.range location.length).foldl
    (fun tree count =>
      let directory := location.take count
      if (tree.get? directory).isNone then
        tree.set directory (.directory Entry.newDirectoryMode)
      else tree)
    tree

/-- A wanted file. One that cannot be read is there without any rights to it. -/
def fileAt (path : String) (wanted : Bool) : IO Entry := do
  if !wanted then return .file ByteArray.empty Entry.newFileMode
  try return .file (← IO.FS.readBinFile path) Entry.newFileMode
  catch _ => return .file ByteArray.empty 0

/-- What a directory holds, unless it cannot be listed. -/
def entriesAt? (location : Location) : IO (Option (Array IO.FS.DirEntry)) := do
  try return some (← (listed location).path.readDir)
  catch _ => return none

/-- Adds what stands at a place, and all that lies below it if that is asked for. -/
partial def gather (below : Bool) (wanted : Path → Bool) (tree : FileTree) (location : Location) :
    IO FileTree := do
  match ← kindOf? location with
  | some .file =>
      let path := pathOf location
      return (withParents tree location).set location (← fileAt path (wanted ⟨path⟩))
  | some .dir =>
      let tree := (withParents tree location).set location (.directory Entry.newDirectoryMode)
      if !below then return tree
      match ← entriesAt? location with
      | none => return tree.set location (.directory 0)
      | some entries =>
          entries.foldlM
            (fun tree entry => do
              let metadata ← entry.path.symlinkMetadata
              if metadata.type == .symlink then return tree
              else gather below wanted tree (location ++ [entry.fileName]))
            tree
  | _ => return tree

/-- Adds what the search for settings looks at. -/
def gatherSettings (tree : FileTree) (start : Path) : IO FileTree :=
  (Settings.searchedDirectories start).foldlM
    (fun tree directory => do
      let tree ← gather false (fun _ => true) tree (placeOf (directory.join Settings.fileName))
      gather false (fun _ => false) tree (placeOf (directory.join Settings.repositoryMark)))
    tree

/-- Adds what an analysis and a clean-up look at. -/
def gatherProject (tree : FileTree) (common : CommonArguments) : IO FileTree := do
  let current := tree.currentPath
  match Settings.load tree current with
  | .error _ => return tree
  | .ok loaded =>
      let settings := common.override current loaded.settings
      let messages := settings.messagesPath loaded.root
      let files := [messages, settings.backupPath loaded.root, Catalog.temporaryFor messages]
      let isSource (path : Path) : Bool :=
        match path.extension? with
        | some extension => settings.extensions.contains extension
        | none => false
      let tree ← (settings.sourcePaths loaded.root).foldlM
        (fun tree root => gather true isSource tree (placeOf root)) tree
      files.foldlM (fun tree file => gather false (fun _ => true) tree (placeOf file)) tree

/-- The part of the file system that a command looks at. -/
def snapshot (arguments : List String) : IO FileTree := do
  let current : Path := ⟨toString (← IO.currentDir)⟩
  let tree : FileTree := ⟨[], placeOf current⟩
  let tree ← gather false (fun _ => false) tree tree.current
  let tree ← gatherSettings tree current
  match readCommand arguments with
  | .ok (some (.check common)) => gatherProject tree common
  | .ok (some (.clean common _)) => gatherProject tree common
  | _ => return tree

/-! ## Writing files -/

def bytesAt? (tree : FileTree) (location : Location) : Option ByteArray :=
  match tree.get? location with
  | some (.file bytes _) => some bytes
  | _ => none

/-- Writes what is different in the second tree: new files first, then changed ones. -/
def writeBack (before after : FileTree) : IO Unit := do
  let files := after.entries.filterMap fun (location, _) =>
    (bytesAt? after location).map fun bytes => (location, bytes)
  let (old, new) := files.partition fun (location, _) => (bytesAt? before location).isSome
  for (location, bytes) in new do
    IO.FS.writeBinFile (pathOf location) bytes
  for (location, bytes) in old do
    unless (bytesAt? before location).map (·.data) = some bytes.data do
      IO.FS.writeBinFile (pathOf location) bytes
  for (location, _) in before.entries do
    if (bytesAt? before location).isSome && (after.get? location).isNone then
      IO.FS.removeFile (pathOf location)

/-! ## Asking -/

/-- Reads lines until one of them is an answer, and puts the question again after each other
one. The lines are returned together with what was printed. -/
partial def readAnswer (input output : IO.FS.Stream) (count : Nat) (read printed : String) :
    IO (String × String) := do
  let line ← input.getLine
  if line.isEmpty || (Prompt.answerOf? line.toList).isSome then return (read ++ line, printed)
  let again := Prompt.reminder ++ Prompt.question count
  output.putStr again
  output.flush
  readAnswer input output count (read ++ line) (printed ++ again)

/-- Puts the question that a run will put, if there is one: the input that answers it, and what
was printed. -/
def converse (arguments : List String) (session : Session) : IO (String × Printed) := do
  match openingText? arguments session with
  | none => return ("", .toOut "")
  | some (opening, count) =>
      let output ← IO.getStdout
      IO.eprint opening.err
      output.putStr opening.out
      output.flush
      let (read, printed) ← readAnswer (← IO.getStdin) output count "" ""
      return (read, opening ++ .toOut printed)

/-- What is left of a text after its first characters. -/
def after (text shown : String) : String :=
  String.ofList (text.toList.drop shown.length)

def refusalText : Refusal → String
  | .help => helpText
  | .version => "0.1.0\n"
  | .unknownArgument => "error: unexpected argument\n"
  | .unknownCommand => "error: unrecognized subcommand\n"
  | .badValue => "error: a value is required\n"
  | .conflict => "error: an argument cannot be used multiple times\n"
  | .tooManyValues => "error: a flag takes no value\n"

end LocaleTidy.Program

open LocaleTidy CommandLine Program in
def main (arguments : List String) : IO UInt32 := do
  let tree ← snapshot arguments
  let coloured ← (← IO.getStdout).isTty
  let session : Session := ⟨tree, [], coloured && (← IO.getEnv "NO_COLOR").isNone⟩
  let (read, shown) ← converse arguments session
  match run arguments { session with input := read.toList } with
  | .error refusal =>
      if refusal.exitCode = 0 then IO.print (refusalText refusal)
      else IO.eprint (refusalText refusal)
      return refusal.exitCode.toUInt32
  | .ok finished =>
      writeBack tree finished.tree
      IO.eprint (after finished.printed.err shown.err)
      IO.print (after finished.printed.out shown.out)
      return finished.exitCode.toUInt32
