import LocaleTidy.Text.Quoted

/-!
# Faults in a JSON text

What can be wrong with a JSON text, and where. A place is a line and a column, both counted
from the bytes that precede it.
-/

namespace LocaleTidy.Json

/-- What stands in a text where another kind of value is wanted. -/
inductive Found where
  | null
  | bool (value : Bool)
  | integer (text : String)
  | number
  | string (value : String)
  | sequence
  | map

def Found.describe : Found → String
  | .null => "null"
  | .bool value => s!"boolean `{value}`"
  | .integer text => s!"integer `{text}`"
  | .number => "number"
  | .string value => "string " ++ Text.quoted value
  | .sequence => "sequence"
  | .map => "map"

inductive Cause where
  | endInList
  | endInObject
  | endInString
  | endInValue
  | expectedColon
  | expectedCommaOrListEnd
  | expectedCommaOrObjectEnd
  | expectedLiteral
  | expectedValue
  | invalidEscape
  | invalidNumber
  | controlCharacter
  | keyNotString
  | loneSurrogate
  | trailingComma
  | trailingCharacters
  | incompletePair
  | tooDeep
  | unexpected (found : Found) (wanted : String)
  | repeatedField (name : String)

def Cause.describe : Cause → String
  | .endInList => "EOF while parsing a list"
  | .endInObject => "EOF while parsing an object"
  | .endInString => "EOF while parsing a string"
  | .endInValue => "EOF while parsing a value"
  | .expectedColon => "expected `:`"
  | .expectedCommaOrListEnd => "expected `,` or `]`"
  | .expectedCommaOrObjectEnd => "expected `,` or `\x7d`"
  | .expectedLiteral => "expected ident"
  | .expectedValue => "expected value"
  | .invalidEscape => "invalid escape"
  | .invalidNumber => "invalid number"
  | .controlCharacter => "control character (\\u0000-\\u001F) found while parsing a string"
  | .keyNotString => "key must be a string"
  | .loneSurrogate => "lone leading surrogate in hex escape"
  | .trailingComma => "trailing comma"
  | .trailingCharacters => "trailing characters"
  | .incompletePair => "unexpected end of hex escape"
  | .tooDeep => "recursion limit exceeded"
  | .unexpected found wanted => "invalid type: " ++ found.describe ++ ", expected " ++ wanted
  | .repeatedField name => s!"duplicate field `{name}`"

/-- A place in a text; lines count from one, and a column counts the bytes since the last
line break. -/
structure Position where
  line : Nat
  column : Nat
  deriving DecidableEq, Repr

def utf8 (text : List Char) : List UInt8 :=
  text.flatMap String.utf8EncodeChar

/-- The position after the first `count` bytes of a text. -/
def Position.after (text : List Char) (count : Nat) : Position :=
  let before := (utf8 text).take count
  ⟨before.count 10 + 1, (before.reverse.takeWhile (· ≠ 10)).length⟩

/-- Where a reader fails. -/
inductive Place where
  /-- At `ahead` bytes into the rest of the text, or at its end if that comes first. -/
  | into (rest : List Char) (ahead : Nat)
  /-- At a position of another text, the one that a string of this text holds. -/
  | fixed (position : Position)

structure Failure where
  cause : Cause
  place : Place

/-- The position of a place in the whole text. -/
def Place.position (text : List Char) : Place → Position
  | .into rest ahead => .after text ((utf8 text).length - (utf8 rest).length + ahead)
  | .fixed position => position

/-- A refused text: the cause, and its position in the text. -/
structure Fault where
  cause : Cause
  position : Position

def Fault.message (fault : Fault) : String :=
  s!"{fault.cause.describe} at line {fault.position.line} column {fault.position.column}"

def Failure.locate (text : List Char) (failure : Failure) : Fault :=
  ⟨failure.cause, failure.place.position text⟩

/-- A reader takes a value off the front of a text and returns what is left of it. -/
abbrev Reader (α : Type) := List Char → Except Failure (α × List Char)

namespace Failure

/-- A failure right where the rest begins. -/
def here (cause : Cause) (rest : List Char) : Failure := ⟨cause, .into rest 0⟩

/-- A failure on the next character: its first byte still counts as read. -/
def next (cause : Cause) (rest : List Char) : Failure := ⟨cause, .into rest 1⟩

def atEnd (cause : Cause) : Failure := ⟨cause, .into [] 0⟩

end Failure

end LocaleTidy.Json
