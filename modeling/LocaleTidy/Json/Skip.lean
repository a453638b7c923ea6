import LocaleTidy.Json.Reader

/-!
# Passing over JSON values

A value that nobody asks for is checked for its form only. It may nest to any depth, so the
brackets that are open are kept in a list.
-/

namespace LocaleTidy.Json

inductive Bracket where
  | list
  | object
  deriving DecidableEq, Repr

namespace Bracket

def closer : Bracket → Char
  | .list => ']'
  | .object => '}'

def endCause : Bracket → Cause
  | .list => .endInList
  | .object => .endInObject

def commaCause : Bracket → Cause
  | .list => .expectedCommaOrListEnd
  | .object => .expectedCommaOrObjectEnd

end Bracket

/-- How a fault in a number shows when the number is only passed over. -/
def NumberFault.failureOfSkipped : NumberFault → Failure
  | .ended => .atEnd .invalidNumber
  | fault => fault.failure

def skipScalar : List Char → Except Failure (List Char)
  | [] => .error (.atEnd .endInValue)
  | c :: rest =>
      if c = 'n' then literal "ull".toList rest
      else if c = 't' then literal "rue".toList rest
      else if c = 'f' then literal "alse".toList rest
      else if c = '"' then skipString rest
      else if startsNumber c then
        match numberText (c :: rest) with
        | .ok (_, rest) => .ok rest
        | .error fault => .error fault.failureOfSkipped
      else .error (.next .expectedValue (c :: rest))

/-- Goes to the value of the next item of an open bracket; in an object that is past a name
and a colon. -/
def skipToValue (bracket : Bracket) (text : List Char) : Except Failure (List Char) :=
  match bracket with
  | .list => .ok text
  | .object =>
      match skipGaps text with
      | [] => .error (.atEnd .endInObject)
      | c :: rest =>
          if c = '"' then do takeColon (← skipString rest)
          else .error (.next .keyNotString (c :: rest))

/-- What is to be passed over next. -/
inductive SkipPhase where
  | value
  | opened
  | closed
  deriving DecidableEq, Repr

/-- Passes over the rest of a value inside the given brackets, the innermost first. Each
character takes at most two rounds. -/
def skipWithin : Nat → SkipPhase → List Bracket → List Char → Except Failure (List Char)
  | 0, _, _, _ => .error (.atEnd .endInValue)
  | rounds + 1, .value, around, text =>
      match skipGaps text with
      | [] => .error (.atEnd .endInValue)
      | c :: rest =>
          if c = '[' then skipWithin rounds .opened (.list :: around) rest
          else if c = '{' then skipWithin rounds .opened (.object :: around) rest
          else do skipWithin rounds .closed around (← skipScalar (c :: rest))
  | _ + 1, _, [], text => .ok text
  | rounds + 1, .opened, bracket :: around, text =>
      match skipGaps text with
      | [] => .error (.atEnd bracket.endCause)
      | c :: rest =>
          if c = bracket.closer then skipWithin rounds .closed around rest
          else do
            skipWithin rounds .value (bracket :: around) (← skipToValue bracket (c :: rest))
  | rounds + 1, .closed, bracket :: around, text =>
      match skipGaps text with
      | [] => .error (.atEnd bracket.endCause)
      | c :: rest =>
          if c = bracket.closer then skipWithin rounds .closed around rest
          else if c = ',' then do
            skipWithin rounds .value (bracket :: around) (← skipToValue bracket rest)
          else .error (.next bracket.commaCause (c :: rest))

def skipValue (text : List Char) : Except Failure (List Char) :=
  skipWithin (2 * text.length + 2) .value [] text

end LocaleTidy.Json
