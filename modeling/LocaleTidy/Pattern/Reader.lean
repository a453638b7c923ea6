import LocaleTidy.Pattern.Regex

/-!
# Reading patterns

The notation of search patterns: plain characters, escaped ones, classes in square brackets,
`+` for one or more of a class, groups in `(?:` and `)`, and `|` between alternatives.

A pattern is read one character at a time, so that reading two patterns written one after the
other is reading the first and going on with the second.
-/

namespace LocaleTidy.Regex

/-- The characters with a meaning of their own, and those that may have one inside a class. -/
def isMeta (c : Char) : Bool :=
  "\\.+*?()|[]\x7b\x7d^$#&-~".toList.contains c

/-- The characters that stand for themselves wherever an item may begin. -/
def isPlain (c : Char) : Bool :=
  !"\\.+*?()|[]\x7b\x7d^$".toList.contains c

/-- The alternatives of a pattern or group that is being read. -/
structure Alternatives where
  /-- The alternatives before the last bar. -/
  before : Option Regex
  /-- The items of the last alternative, last first. -/
  items : List Regex

namespace Alternatives

def start : Alternatives := ⟨none, []⟩

def add (item : Regex) (read : Alternatives) : Alternatives :=
  { read with items := item :: read.items }

def regex (read : Alternatives) : Regex :=
  let last := read.items.foldl (fun after item => .seq item after) .empty
  match read.before with
  | none => last
  | some before => .alt before last

end Alternatives

/-- What the next character belongs to. -/
inductive Mode where
  /-- An item, or what may stand between items. -/
  | item
  /-- An escape whose backslash has been read. -/
  | escape
  /-- A group whose opening bracket has been read. -/
  | group
  /-- A group whose opening bracket and question mark have been read. -/
  | groupMark
  /-- A class; the ranges read so far, last first. -/
  | inClass (ranges : CharClass)
  /-- A range of a class whose hyphen has been read. -/
  | inRange (low : Char) (ranges : CharClass)

/-- How far a pattern has been read. -/
structure Progress where
  mode : Mode
  current : Alternatives
  /-- What stands around the groups that are open, the innermost first. -/
  outer : List Alternatives

namespace Progress

def start : Progress := ⟨.item, .start, []⟩

/-- Goes on to the next item after adding one. -/
def add (item : Regex) (read : Progress) : Progress :=
  { read with mode := .item, current := read.current.add item }

def step (read : Progress) (c : Char) : Option Progress :=
  match read.mode with
  | .item =>
      if c = '\\' then some { read with mode := .escape }
      else if c = '[' then some { read with mode := .inClass [] }
      else if c = '(' then some { read with mode := .group }
      else if c = ')' then
        match read.outer with
        | [] => none
        | around :: outer => some ⟨.item, around.add read.current.regex, outer⟩
      else if c = '|' then
        some { read with current := ⟨some read.current.regex, []⟩ }
      else if c = '+' then
        match read.current.items with
        | .one ranges :: items =>
            some { read with current := { read.current with items := .many ranges :: items } }
        | _ => none
      else if isPlain c then some (read.add (.one (.single c)))
      else none
  | .escape => if isMeta c then some (read.add (.one (.single c))) else none
  | .group => if c = '?' then some { read with mode := .groupMark } else none
  | .groupMark =>
      if c = ':' then some ⟨.item, .start, read.current :: read.outer⟩ else none
  | .inClass ranges =>
      if c = ']' then
        if ranges.isEmpty then none else some (read.add (.one ranges.reverse))
      else if c = '-' then
        match ranges with
        | (low, high) :: ranges =>
            if low = high then some { read with mode := .inRange low ranges } else none
        | [] => none
      else if c = '\\' ∨ c = '[' ∨ c = '^' then none
      else some { read with mode := .inClass ((c, c) :: ranges) }
  | .inRange low ranges =>
      if c = ']' ∨ c = '\\' ∨ c = '[' ∨ c < low then none
      else some { read with mode := .inClass ((low, c) :: ranges) }

def run (read : Progress) (text : List Char) : Option Progress :=
  text.foldlM step read

/-- Reading two texts in a row is reading the first and going on with the second. -/
theorem run_append (read : Progress) (first second : List Char) :
    read.run (first ++ second) = (read.run first).bind (·.run second) := by
  simp only [run, List.foldlM_append]
  rfl

def finish (read : Progress) : Option Regex :=
  match read.mode, read.outer with
  | .item, [] => some read.current.regex
  | _, _ => none

end Progress

def ofPattern? (pattern : List Char) : Option Regex :=
  (Progress.start.run pattern).bind Progress.finish

end LocaleTidy.Regex
