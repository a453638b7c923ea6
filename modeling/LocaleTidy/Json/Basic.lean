/-!
# JSON values

Objects keep their members in the order in which they were first written, and numbers keep
their text, so that a document can be written back as its author left it.
-/

namespace LocaleTidy

inductive Json where
  | null
  | bool (value : Bool)
  /-- A number, as the text that denotes it. -/
  | number (text : String)
  | string (value : String)
  | array (items : List Json)
  | object (members : List (String × Json))
  deriving Inhabited, Repr, BEq

namespace Json

/-- The members of an object, in order. -/
abbrev Members := List (String × Json)

def isObject : Json → Bool
  | .object _ => true
  | _ => false

def strings (items : List String) : Json :=
  .array (items.map .string)

namespace Members

/-- The value of the member called `name`. -/
def get? (name : String) : Members → Option Json
  | [] => none
  | (other, value) :: rest => if other = name then some value else get? name rest

/-- Sets a member: an existing one keeps its place, a new one comes last. -/
def insert (name : String) (value : Json) : Members → Members
  | [] => [(name, value)]
  | (other, old) :: rest =>
      if other = name then (name, value) :: rest else (other, old) :: insert name value rest

/-- The members without the first one called `name`. -/
def erase (name : String) : Members → Members
  | [] => []
  | (other, value) :: rest =>
      if other = name then rest else (other, value) :: erase name rest

end Members

end Json

end LocaleTidy
