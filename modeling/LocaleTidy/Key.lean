import LocaleTidy.Text.Pieces

/-!
# Message keys

A key is a text of segments with dots between them, such as `home.hero.title`. There is always
at least one segment, and segments may be empty.
-/

namespace LocaleTidy.Key

def segments (key : String) : List String :=
  Text.split '.' key

def ofSegments (segments : List String) : String :=
  String.intercalate "." segments

theorem segments_ne_nil (key : String) : segments key ≠ [] := by
  simp [segments, Text.split, Text.pieces_ne_nil]

/-- All non-empty ends of a list, the longest first. -/
def ends {α : Type} : List α → List (List α)
  | [] => []
  | x :: rest => (x :: rest) :: ends rest

/-- The forms under which a key is looked for, the most specific first: for `a.b.c` they are
`a.b.c`, `b.c` and `c`. -/
def variations (key : String) : List String :=
  (ends (segments key)).map ofSegments

/-- The key without its last segment; a key of one segment has no namespace. -/
def namespaceOf (key : String) : Option String :=
  match segments key with
  | _ :: _ :: _ => some (ofSegments (segments key).dropLast)
  | _ => none

def lastSegment (key : String) : String :=
  (segments key).getLastD key

def firstSegment (key : String) : String :=
  (segments key).headD key

/-- A segment of one or more ASCII digits and nothing else. -/
def isIndexSegment (segment : String) : Bool :=
  !segment.isEmpty && segment.toList.all Char.isDigit

/-- Whether an index stands strictly between two other segments, as in `items.0.title`. -/
def isDynamicIndex (key : String) : Bool :=
  ((segments key).drop 1).dropLast.any isIndexSegment

/-- The key without a leading segment that is one of `errorNamespaces`. -/
def withoutErrorNamespace (errorNamespaces : List String) (key : String) : Option String :=
  match segments key with
  | first :: rest@(_ :: _) => if first ∈ errorNamespaces then some (ofSegments rest) else none
  | _ => none

end LocaleTidy.Key
