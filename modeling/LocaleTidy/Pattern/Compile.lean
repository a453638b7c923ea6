import LocaleTidy.Pattern.Automaton
import LocaleTidy.Pattern.Openings
import LocaleTidy.Pattern.Text

/-!
# Compiling patterns

A pattern compiles unless the automaton that would search for it exceeds a size limit.
-/

namespace LocaleTidy.Pattern

inductive Fault where
  | malformed
  /-- The automaton takes more than this number of bytes. -/
  | tooLarge (limit : Nat)
  deriving DecidableEq, Repr

def Fault.message : Fault → String
  | .malformed => "regex parse error"
  | .tooLarge limit => s!"Compiled regex exceeds size limit of {limit} bytes."

/-- The limit that searches keep to unless another one is set. -/
def defaultLimit : Nat := 10 * 1024 * 1024

def compile (limit : Nat) (pattern : String) : Except Fault Regex :=
  match Regex.ofPattern? pattern.toList with
  | none => .error .malformed
  | some regex =>
      if regex.automatonBytes ≤ limit || regex.isDirect then .ok regex else .error (.tooLarge limit)

end LocaleTidy.Pattern
