import LocaleTidy.Json.Fault

/-!
# Numbers of a JSON text

A number keeps its text, except that an exponent is written `e` with an explicit sign.
-/

namespace LocaleTidy.Json

inductive NumberFault where
  /-- The text ends where a digit is wanted. -/
  | ended
  /-- The rest begins with something else than the digit that is wanted there. -/
  | noDigit (rest : List Char)
  /-- The rest begins with something that cannot follow what was read. -/
  | cannotFollow (rest : List Char)

/-- The longest run of digits at the front of a text, and what follows it. -/
def spanDigits (text : List Char) : List Char × List Char :=
  (text.takeWhile Char.isDigit, text.dropWhile Char.isDigit)

/-- The digits that must follow the mark and the sign of an exponent. -/
def exponentDigits (sign : Char) : List Char → Except NumberFault (List Char × List Char)
  | [] => .error .ended
  | c :: rest =>
      if c.isDigit then
        let (digits, rest) := spanDigits (c :: rest)
        .ok ('e' :: sign :: digits, rest)
      else .error (.noDigit (c :: rest))

/-- An exponent, if the text begins with one. -/
def exponent : List Char → Except NumberFault (List Char × List Char)
  | [] => .ok ([], [])
  | c :: rest =>
      if c = 'e' ∨ c = 'E' then
        match rest with
        | '+' :: rest => exponentDigits '+' rest
        | '-' :: rest => exponentDigits '-' rest
        | rest => exponentDigits '+' rest
      else .ok ([], c :: rest)

/-- A fraction, if the text begins with one, and an exponent after it. -/
def fraction : List Char → Except NumberFault (List Char × List Char)
  | [] => .ok ([], [])
  | c :: rest =>
      if c = '.' then
        match spanDigits rest with
        | ([], []) => .error .ended
        | ([], rest) => .error (.cannotFollow rest)
        | (digits, rest) => do
            let (power, rest) ← exponent rest
            .ok ('.' :: digits ++ power, rest)
      else exponent (c :: rest)

/-- A number without a sign: a zero stands alone before the point. -/
def magnitude : List Char → Except NumberFault (List Char × List Char)
  | [] => .error .ended
  | c :: rest =>
      if c = '0' then
        match rest with
        | [] => .ok (['0'], [])
        | d :: rest =>
            if d.isDigit then .error (.cannotFollow (d :: rest))
            else do
              let (tail, rest) ← fraction (d :: rest)
              .ok ('0' :: tail, rest)
      else if c.isDigit then do
        let (digits, rest) := spanDigits (c :: rest)
        let (tail, rest) ← fraction rest
        .ok (digits ++ tail, rest)
      else .error (.noDigit (c :: rest))

def startsNumber (c : Char) : Bool :=
  c = '-' || c.isDigit

/-- A number; the text begins with its sign or its first digit. -/
def numberText : List Char → Except NumberFault (List Char × List Char)
  | '-' :: rest => do
      let (text, rest) ← magnitude rest
      .ok ('-' :: text, rest)
  | text => magnitude text

/-- How a fault in a number shows in the text around it. -/
def NumberFault.failure : NumberFault → Failure
  | .ended => .atEnd .endInValue
  | .noDigit rest => .next .invalidNumber rest
  | .cannotFollow rest => .next .invalidNumber rest

def readNumber : Reader String := fun text =>
  match numberText text with
  | .ok (digits, rest) => .ok (String.ofList digits, rest)
  | .error fault => .error fault.failure

/-! ## A text that is a number as a whole -/

/-- How a fault shows when the number was to take the whole text: what is left over after the
fault is refused before the fault itself. -/
def NumberFault.failureOfWhole : NumberFault → Failure
  | .ended => .atEnd .endInValue
  | .noDigit rest => ⟨.invalidNumber, .into rest 2⟩
  | .cannotFollow rest => .next .invalidNumber rest

/-- The number that a whole text denotes; a failure is placed within that text. -/
def numberOfText (text : String) : Except Failure String :=
  match text.toList with
  | [] => .error ⟨.endInValue, .fixed (.after [] 0)⟩
  | c :: rest =>
      let place (failure : Failure) : Failure :=
        ⟨failure.cause, .fixed (failure.place.position (c :: rest))⟩
      if startsNumber c then
        match numberText (c :: rest) with
        | .ok (digits, []) => .ok (String.ofList digits)
        | .ok (_, rest) => .error (place (.next .invalidNumber rest))
        | .error fault => .error (place fault.failureOfWhole)
      else .error (place (.next .invalidNumber (c :: rest)))

end LocaleTidy.Json
