import LocaleTidy.Key
import LocaleTidy.Json.Reader
import LocaleTidy.Json.Writer

/-!
# Message catalogs

A catalog is a JSON object. Its keys are the paths to the values in it that are not objects,
written with dots between the member names.
-/

namespace LocaleTidy

/-- The contents of a catalog file: the members of its root object. -/
structure Catalog where
  members : Json.Members
  deriving BEq

namespace Catalog

def toJson (catalog : Catalog) : Json :=
  .object catalog.members

/-! ## Reading and writing -/

inductive Fault where
  | json (fault : Json.Fault)
  | rootNotObject

def Fault.message : Fault → String
  | .json fault => "Invalid JSON: " ++ fault.message
  | .rootNotObject => "Root value must be a JSON object"

def parse (text : String) : Except Fault Catalog :=
  match Json.parse text with
  | .error fault => .error (.json fault)
  | .ok (.object members) => .ok ⟨members⟩
  | .ok _ => .error .rootNotObject

/-- The catalog as the text of a file, which ends with a line break. -/
def toText (catalog : Catalog) : String :=
  catalog.toJson.pretty ++ "\n"

/-! ## Keys -/

/-- The path to a member of the object at `path`. An empty path adds no dot, wherever it
comes from. -/
def extend (path name : String) : String :=
  if path.isEmpty then name else path ++ "." ++ name

mutual

def leafKeys (path : String) : Json → List String
  | .object members => memberKeys path members
  | _ => [path]

def memberKeys (path : String) : List (String × Json) → List String
  | [] => []
  | (name, value) :: rest => leafKeys (extend path name) value ++ memberKeys path rest

end

/-- The keys of a catalog, in the order of the document. Arrays are single values. -/
def keys (catalog : Catalog) : List String :=
  memberKeys "" catalog.members

/-! ## Removing keys -/

/-- The members without the one that a path of names leads to, and without the objects on the
path that this leaves empty. No result means that the path leads nowhere. -/
def erasePath : List String → Json.Members → Option Json.Members
  | [], _ => none
  | [name], members =>
      if (members.get? name).isSome then some (members.erase name) else none
  | name :: rest, members =>
      match members.get? name with
      | some (.object inner) =>
          match erasePath rest inner with
          | none => none
          | some [] => some (members.erase name)
          | some inner => some (members.insert name (.object inner))
      | _ => none

def erase? (key : String) (catalog : Catalog) : Option Catalog :=
  (erasePath (Key.segments key) catalog.members).map .mk

mutual

/-- A value without the empty objects inside it. -/
def pruneValue : Json → Json
  | .object members => .object (pruneMembers members)
  | value => value

/-- The members that are not empty objects once they are pruned themselves. -/
def pruneMembers : List (String × Json) → List (String × Json)
  | [] => []
  | (name, value) :: rest =>
      match pruneValue value with
      | .object [] => pruneMembers rest
      | value => (name, value) :: pruneMembers rest

end

/-- The catalog without its empty objects, at any depth below the root. -/
def pruneEmpty (catalog : Catalog) : Catalog :=
  ⟨pruneMembers catalog.members⟩

/-- Erases keys one after the other; the first component lists those that were there. -/
def eraseEach : List String → Catalog → List String × Catalog
  | [], catalog => ([], catalog)
  | key :: rest, catalog =>
      match catalog.erase? key with
      | some catalog =>
          let (erased, catalog) := eraseEach rest catalog
          (key :: erased, catalog)
      | none => eraseEach rest catalog

/-- Erases keys and then every empty object; the first component lists the keys that were
there. -/
def eraseAll (keys : List String) (catalog : Catalog) : List String × Catalog :=
  let (erased, catalog) := eraseEach keys catalog
  (erased, catalog.pruneEmpty)

end Catalog

end LocaleTidy
