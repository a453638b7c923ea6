import LocaleTidy.Key
import LocaleTidy.Pattern.Reader

/-!
# Search patterns

The texts of the patterns under which keys and namespaces are looked for in source files. Every
piece that comes from a key or from a setting is escaped, so that it stands for itself.
-/

namespace LocaleTidy.Pattern

/-! ## Pieces -/

/-- The pattern of a text that stands for itself. -/
def escapeChars : List Char → List Char
  | [] => []
  | c :: rest => if Regex.isMeta c then '\\' :: c :: escapeChars rest else c :: escapeChars rest

def escape (text : String) : String :=
  String.ofList (escapeChars text.toList)

def group (pattern : String) : String :=
  "(?:" ++ pattern ++ ")"

def anyOf (patterns : List String) : String :=
  String.intercalate "|" (patterns.map group)

/-! ## References to a key -/

/-- The call of `function` with a quoted text; the two quotes need not be the same. -/
def quotedCall (function text : String) : String :=
  escape function ++ "\\([\"']" ++ escape text ++ "[\"']\\)"

/-- The forms in which `function` is called with a text. -/
def calls (function text : String) : List String :=
  [ quotedCall function text,
    escape function ++ "\\(`" ++ escape text ++ "`\\)",
    "\\\x7b" ++ quotedCall function text ++ "\\\x7d",
    "=\\\x7b" ++ quotedCall function text ++ "\\\x7d" ]

/-- The forms in which source text refers to a text: as a literal, or as the argument of
`function`. -/
def references (function text : String) : List String :=
  [ "\"" ++ escape text ++ "\"",
    "'" ++ escape text ++ "'",
    "`" ++ escape text ++ "`" ] ++ calls function text

/-- A call of one of the functions that bind a namespace. -/
def declaration (functions : List String) (space : String) : String :=
  group (String.intercalate "|" (functions.map escape)) ++
    "\\(['\"`]" ++ escape space ++ "['\"`]\\)"

/-! ## Indexed keys -/

/-- The pieces of an indexed key after its first segment: an index in the interior stands for
any index. -/
def laterPieces : List String → List String
  | [] => []
  | [last] => [escape last]
  | segment :: rest =>
      (if Key.isIndexSegment segment then "[0-9]+" else escape segment) :: laterPieces rest

/-- The pattern of a key in which each interior index stands for any index: `items.0.title`
becomes `items\.[0-9]+\.title`. -/
def generalized (key : String) : String :=
  match Key.segments key with
  | [] => ""
  | first :: rest => String.intercalate "\\." (escape first :: laterPieces rest)

/-! ## Iteration -/

def iterationMarkers : List String := ["map(", "forEach(", "for ("]

def iterates (line : String) : Bool :=
  iterationMarkers.any (Text.contains line)

end LocaleTidy.Pattern
