import LocaleTidy.Pattern.Regex

/-!
# The size of automata

An automaton that searches for an expression has a state for each byte of a character, a
state that branches for each class and each choice, and a state in which the branches meet.
-/

namespace LocaleTidy.Regex

def stateBytes : Nat := 32

def rangeBytes : Nat := 8

def branchBytes : Nat := 4

def classBytes (ranges : CharClass) : Nat :=
  match CharClass.toList ranges with
  | [c] => c.utf8Size * stateBytes
  | _ => 2 * stateBytes + ranges.length * rangeBytes

/-- An alternative takes a state even if it is empty. -/
def alternativeBytes (bytes : Nat) : Nat :=
  if bytes = 0 then stateBytes else bytes

/-- The bytes for an expression; `among` says that it is a part of a wider choice. -/
def bytesWithin (among : Bool) : Regex → Nat
  | .empty => 0
  | .one ranges => classBytes ranges
  | .many ranges => 3 * stateBytes + ranges.length * rangeBytes + 2 * branchBytes
  | .seq first second => bytesWithin false first + bytesWithin false second
  | .alt left right =>
      (if among then branchBytes else 2 * (stateBytes + branchBytes)) +
        alternativeBytes (bytesWithin true left) + alternativeBytes (bytesWithin true right)

/-- The bytes of the automaton for an expression: two states that skip what stands before a
word, two for the ends of the word, one in which it is found, and those for the word. -/
def automatonBytes (regex : Regex) : Nat :=
  5 * stateBytes + 2 * branchBytes + alternativeBytes (bytesWithin false regex)

end LocaleTidy.Regex
