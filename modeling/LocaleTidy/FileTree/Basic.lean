import LocaleTidy.Path

/-!
# File trees

The files, directories and symbolic links below the root directory, each at the list of names
that leads to it, together with the directory that relative paths start from.
-/

namespace LocaleTidy

inductive FileError where
  | notFound
  | denied
  | busy
  | notDirectory
  | isDirectory
  | nameTooLong
  | tooManyLinks
  | zeroInName
  | notText
  | notRegular
  /-- Any other error of the system, with its text. -/
  | other (text : String)
  deriving DecidableEq, Repr

def FileError.message : FileError → String
  | .notFound => "No such file or directory (os error 2)"
  | .denied => "Permission denied (os error 13)"
  | .busy => "Device or resource busy (os error 16)"
  | .notDirectory => "Not a directory (os error 20)"
  | .isDirectory => "Is a directory (os error 21)"
  | .nameTooLong => "File name too long (os error 36)"
  | .tooManyLinks => "Too many levels of symbolic links (os error 40)"
  | .zeroInName => "file name contained an unexpected NUL byte"
  | .notText => "stream did not contain valid UTF-8"
  | .notRegular =>
      "the source path is neither a regular file nor a symlink to a regular file"
  | .other text => text

/-- The names that lead from the root directory to a place. -/
abbrev Location := List String

/-- What stands at a place; a mode holds permission bits. -/
inductive Entry where
  | directory (mode : Nat)
  | file (bytes : ByteArray) (mode : Nat)
  | link (target : String)

def Entry.newFileMode : Nat := 0o644

def Entry.newDirectoryMode : Nat := 0o755

/-- What the owner of a file or a directory may be allowed to do with it. -/
inductive Right where
  /-- To read the file, or to list the directory. -/
  | read
  /-- To change the file, or the names in the directory. -/
  | write
  /-- To look up the names in the directory. -/
  | enter
  deriving DecidableEq, Repr

/-- The place of a right among the permission bits. -/
def Right.bit : Right → Nat
  | .read => 8
  | .write => 7
  | .enter => 6

/-- Whether the owner of an entry has a right to it. A link stands in nobody's way. -/
def Entry.permits (right : Right) : Entry → Bool
  | .directory mode => mode.testBit right.bit
  | .file _ mode => mode.testBit right.bit
  | .link _ => true

structure FileTree where
  entries : List (Location × Entry)
  /-- Where relative paths start. -/
  current : Location

namespace FileTree

/-! ## Places -/

/-- What stands at a place. The root directory is always there. -/
def get? (tree : FileTree) (location : Location) : Option Entry :=
  match tree.entries.lookup location with
  | some entry => some entry
  | none => if location = [] then some (.directory Entry.newDirectoryMode) else none

/-- Whether something stands at a place and its owner has a right to it. -/
def permits (tree : FileTree) (right : Right) (location : Location) : Bool :=
  (tree.get? location).any (·.permits right)

def setIn (location : Location) (entry : Entry) :
    List (Location × Entry) → List (Location × Entry)
  | [] => [(location, entry)]
  | (other, old) :: rest =>
      if other = location then (location, entry) :: rest
      else (other, old) :: setIn location entry rest

def set (tree : FileTree) (location : Location) (entry : Entry) : FileTree :=
  { tree with entries := setIn location entry tree.entries }

/-- The tree without what stands at a place. -/
def erase (tree : FileTree) (location : Location) : FileTree :=
  { tree with entries := tree.entries.filter fun item => item.1 ≠ location }

theorem lookup_setIn (location other : Location) (entry : Entry)
    (entries : List (Location × Entry)) :
    (setIn location entry entries).lookup other =
      if other = location then some entry else entries.lookup other := by
  induction entries with
  | nil => by_cases h : other = location <;> simp [setIn, List.lookup_cons, h, beq_false_of_ne]
  | cons item rest ih =>
      rcases item with ⟨key, old⟩
      by_cases hk : key = location
      · subst hk
        by_cases h : other = key <;> simp [setIn, List.lookup_cons, h, beq_false_of_ne]
      · by_cases h : other = key
        · subst h
          simp [setIn, hk]
        · simp [setIn, List.lookup_cons, hk, ih, beq_false_of_ne h]

theorem get?_set (tree : FileTree) (location other : Location) (entry : Entry) :
    (tree.set location entry).get? other =
      if other = location then some entry else tree.get? other := by
  by_cases h : other = location <;> simp [get?, set, lookup_setIn, h]

theorem lookup_filter_ne (location other : Location) (entries : List (Location × Entry)) :
    (entries.filter fun item => item.1 ≠ location).lookup other =
      if other = location then none else entries.lookup other := by
  induction entries with
  | nil => simp
  | cons item rest ih =>
      rcases item with ⟨key, old⟩
      by_cases hk : key = location
      · subst hk
        by_cases h : other = key
        · simpa [h] using ih
        · simpa [h, List.lookup_cons, beq_false_of_ne h] using ih
      · by_cases h : other = key
        · subst h
          simp [hk]
        · simpa [hk, List.lookup_cons, beq_false_of_ne h] using ih

theorem get?_erase (tree : FileTree) (location other : Location) (h : other ≠ []) :
    (tree.erase location).get? other =
      if other = location then none else tree.get? other := by
  simp only [get?, erase, lookup_filter_ne, h, if_false]
  by_cases hl : other = location
  · simp [hl]
  · simp [hl]

def currentPath (tree : FileTree) : Path :=
  ⟨"/" ++ String.intercalate "/" tree.current⟩

end FileTree

end LocaleTidy
