import LocaleTidy.Text.Pieces

/-!
# Paths

A path is a text. Its pieces lie between slashes; a piece that is empty or a single dot counts
only at the very beginning, where it stands for the root directory or for the current one.
Two paths name the same place in the same way if they have the same components.
-/

namespace LocaleTidy

/-- A path, as it is written. -/
structure Path where
  text : String
  deriving DecidableEq, Repr, Inhabited

namespace Path

/-- A step of a path. -/
inductive Component where
  | root
  /-- The current directory, at the beginning of a path. -/
  | here
  | up
  | name (text : String)
  deriving DecidableEq, Repr

/-! ## Pieces -/

/-- Whether a piece after the first one is no step. -/
def isVoid (piece : String) : Bool :=
  piece == "" || piece == "."

/-- The step that a piece after the first one stands for. -/
def stepOf? (piece : String) : Option Component :=
  if isVoid piece then none
  else if piece = ".." then some .up
  else some (.name piece)

/-- The step that the first piece stands for; `more` says whether a slash follows it. -/
def firstStep? (piece : String) (more : Bool) : Option Component :=
  if piece = "" then (if more then some .root else none)
  else if piece = "." then some .here
  else stepOf? piece

/-- The pieces of a path: the first one, and those that follow a slash. -/
def pieces (path : Path) : String × List String :=
  match Text.split '/' path.text with
  | [] => ("", [])
  | first :: rest => (first, rest)

/-- The path with the given pieces; without pieces after it, an empty one is the root. -/
def ofPieces (first : String) (rest : List String) : Path :=
  if first = "" ∧ rest = [] then ⟨"/"⟩ else ⟨String.intercalate "/" (first :: rest)⟩

/-- A list of pieces without the void ones at its end. -/
def trimEnd (pieces : List String) : List String :=
  (pieces.reverse.dropWhile isVoid).reverse

def components (path : Path) : List Component :=
  let (first, rest) := path.pieces
  (firstStep? first !rest.isEmpty).toList ++ rest.filterMap stepOf?

/-! ## Parts -/

def isAbsolute (path : Path) : Bool :=
  path.text.startsWith "/"

/-- The path without its last step; the root directory and the empty path have no parent. -/
def parent? (path : Path) : Option Path :=
  let (first, rest) := path.pieces
  match trimEnd rest with
  | [] => if first = "" then none else some ⟨""⟩
  | last :: more => some (ofPieces first (trimEnd (last :: more).dropLast))

/-- The last step of a path, if it is a name. -/
def fileName? (path : Path) : Option String :=
  match path.components.getLast? with
  | some (.name text) => some text
  | _ => none

/-- The part of the file name after its last dot. A name has no extension if it has no dot or
only the one it begins with. -/
def extension? (path : Path) : Option String := do
  let name ← path.fileName?
  match (Text.pieces '.' name.toList).reverse with
  | [] | [_] => none
  | [_, []] => none
  | last :: _ => some (String.ofList last)

/-! ## Joining -/

/-- The path below a directory; an absolute one is taken as it is. -/
def join (directory : Path) (path : String) : Path :=
  if path.startsWith "/" then ⟨path⟩
  else if directory.text.isEmpty || directory.text.endsWith "/" then ⟨directory.text ++ path⟩
  else ⟨directory.text ++ "/" ++ path⟩

/-- The path with another last name; without a last name, the new one comes after the path. -/
def withFileName (path : Path) (name : String) : Path :=
  if path.fileName?.isSome then (path.parent?.getD path).join name else path.join name

/-! ## Comparing -/

def startsWith (path base : Path) : Bool :=
  base.components.isPrefixOf path.components

def dropSteps : Nat → List String → List String
  | 0, pieces => pieces.dropWhile isVoid
  | count + 1, pieces => dropSteps count ((pieces.dropWhile isVoid).drop 1)

/-- The path from `base` on, if the path begins with the steps of `base`. -/
def relativeTo? (path base : Path) : Option Path :=
  if path.startsWith base then
    let (first, rest) := path.pieces
    match base.components.length with
    | 0 => some (if path.text.isEmpty then path else ofPieces first (trimEnd rest))
    | count + 1 => some ⟨String.intercalate "/" (trimEnd (dropSteps count rest))⟩
  else none

/-- The rank of a kind of step: the root first, names last. -/
def Component.rank : Component → Nat
  | .root => 0
  | .here => 1
  | .up => 2
  | .name _ => 3

/-- Steps are in order of their kinds, and names in order of their characters. -/
def Component.before : Component → Component → Bool
  | .name left, .name right => left < right
  | left, right => left.rank < right.rank

/-- Paths are in order of their first different steps; a path comes before those below it. -/
def before (left right : Path) : Bool :=
  go left.components right.components
where
  /-- The order of lists of steps. -/
  go : List Component → List Component → Bool
    | [], [] => false
    | [], _ :: _ => true
    | _ :: _, [] => false
    | left :: lefts, right :: rights =>
        if left.before right then true
        else if left = right then go lefts rights
        else false

end Path

end LocaleTidy
