import LocaleTidy.Json.Basic
import LocaleTidy.Json.StringLiteral

/-!
# Writing JSON

The compact form has no blanks; the pretty form puts each item on a line of its own, indented
by two spaces for every bracket around it.
-/

namespace LocaleTidy.Json

/-! ## Compact form -/

mutual

/-- A value without any blanks. -/
def compactChars : Json → List Char
  | .null => "null".toList
  | .bool true => "true".toList
  | .bool false => "false".toList
  | .number text => text.toList
  | .string text => writeString text
  | .array items => '[' :: compactItems items ++ [']']
  | .object members => '{' :: compactMembers members ++ ['}']

def compactItems : List Json → List Char
  | [] => []
  | [item] => compactChars item
  | item :: rest => compactChars item ++ ',' :: compactItems rest

def compactMembers : List (String × Json) → List Char
  | [] => []
  | [(name, value)] => writeString name ++ ':' :: compactChars value
  | (name, value) :: rest =>
      writeString name ++ ':' :: compactChars value ++ ',' :: compactMembers rest

end

def compact (value : Json) : String :=
  String.ofList (compactChars value)

/-! ## Pretty form -/

/-- A line break and the indentation for `level` brackets. -/
def newLine (level : Nat) : List Char :=
  '\n' :: List.replicate (2 * level) ' '

mutual

/-- A value inside `level` brackets; an empty array or object stays on its line. -/
def prettyChars (level : Nat) : Json → List Char
  | .null => "null".toList
  | .bool true => "true".toList
  | .bool false => "false".toList
  | .number text => text.toList
  | .string text => writeString text
  | .array [] => ['[', ']']
  | .array (item :: items) =>
      '[' :: newLine (level + 1) ++ prettyChars (level + 1) item ++
        prettyItems (level + 1) items ++ newLine level ++ [']']
  | .object [] => ['{', '}']
  | .object ((name, value) :: members) =>
      '{' :: newLine (level + 1) ++ writeString name ++ ": ".toList ++
        prettyChars (level + 1) value ++
        prettyMembers (level + 1) members ++ newLine level ++ ['}']

def prettyItems (level : Nat) : List Json → List Char
  | [] => []
  | item :: rest => ',' :: newLine level ++ prettyChars level item ++ prettyItems level rest

def prettyMembers (level : Nat) : List (String × Json) → List Char
  | [] => []
  | (name, value) :: rest =>
      ',' :: newLine level ++ writeString name ++ ": ".toList ++ prettyChars level value ++
        prettyMembers level rest

end

def pretty (value : Json) : String :=
  String.ofList (prettyChars 0 value)

end LocaleTidy.Json
