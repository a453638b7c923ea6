import LocaleTidy.Json.Fault

/-!
# String literals of a JSON text

Reading the characters between two quotes, and writing them. Writing escapes only the quote,
the backslash and the control characters below the space.
-/

namespace LocaleTidy.Json

/-! ## Escapes -/

def hexValue? (c : Char) : Option Nat :=
  if '0' ≤ c ∧ c ≤ '9' then some (c.toNat - '0'.toNat)
  else if 'a' ≤ c ∧ c ≤ 'f' then some (c.toNat - 'a'.toNat + 10)
  else if 'A' ≤ c ∧ c ≤ 'F' then some (c.toNat - 'A'.toNat + 10)
  else none

/-- The 16-bit unit that four hexadecimal digits denote. -/
def hexUnit? (a b c d : Char) : Option Nat := do
  let a ← hexValue? a
  let b ← hexValue? b
  let c ← hexValue? c
  let d ← hexValue? d
  return ((a * 16 + b) * 16 + c) * 16 + d

/-- A unit that opens a surrogate pair. -/
def isLeadUnit (n : Nat) : Bool := 0xd800 ≤ n && n ≤ 0xdbff

/-- A unit that closes a surrogate pair. -/
def isTrailUnit (n : Nat) : Bool := 0xdc00 ≤ n && n ≤ 0xdfff

def pairChar (lead trail : Nat) : Char :=
  Char.ofNat ((lead - 0xd800) * 0x400 + (trail - 0xdc00) + 0x10000)

/-- The character that a backslash and one more character stand for. -/
def escapedChar? (c : Char) : Option Char :=
  if c = '"' ∨ c = '\\' ∨ c = '/' then some c
  else if c = 'b' then some '\x08'
  else if c = 'f' then some '\x0c'
  else if c = 'n' then some '\n'
  else if c = 'r' then some '\r'
  else if c = 't' then some '\t'
  else none

/-- The failure of four hexadecimal digits: the text ends within four bytes, or these four
bytes are read and refused together. -/
def hexFailure (rest : List Char) : Failure :=
  if 4 ≤ (utf8 rest).length then ⟨.invalidEscape, .into rest 4⟩ else .atEnd .endInString

/-- The failure of the second half of a surrogate pair. -/
def pairFailure : List Char → Failure
  | [] => .atEnd .endInString
  | '\\' :: [] => .atEnd .endInString
  | '\\' :: 'u' :: rest => hexFailure rest
  | '\\' :: rest => .next .incompletePair rest
  | rest => .next .incompletePair rest

/-! ## Reading -/

/-- Reads on to the closing quote; `acc` holds the characters read so far, last first. -/
def stringBody (acc : List Char) : Reader String
  | [] => .error (.atEnd .endInString)
  | c :: rest =>
      if c = '"' then .ok (String.ofList acc.reverse, rest)
      else if c = '\\' then
        match rest with
        | [] => .error (.atEnd .endInString)
        | e :: rest =>
            if e = 'u' then
              match rest with
              | h₁ :: h₂ :: h₃ :: h₄ :: rest =>
                  match hexUnit? h₁ h₂ h₃ h₄ with
                  | none => .error (hexFailure (h₁ :: h₂ :: h₃ :: h₄ :: rest))
                  | some unit =>
                      if isTrailUnit unit then .error (.here .loneSurrogate rest)
                      else if isLeadUnit unit then
                        match rest with
                        | '\\' :: 'u' :: k₁ :: k₂ :: k₃ :: k₄ :: rest =>
                            match hexUnit? k₁ k₂ k₃ k₄ with
                            | none => .error (hexFailure (k₁ :: k₂ :: k₃ :: k₄ :: rest))
                            | some trail =>
                                if isTrailUnit trail then
                                  stringBody (pairChar unit trail :: acc) rest
                                else .error (.here .loneSurrogate rest)
                        | rest => .error (pairFailure rest)
                      else stringBody (Char.ofNat unit :: acc) rest
              | rest => .error (hexFailure rest)
            else
              match escapedChar? e with
              | some x => stringBody (x :: acc) rest
              | none => .error (.next .invalidEscape (e :: rest))
      else if c.toNat < 0x20 then .error (.next .controlCharacter (c :: rest))
      else stringBody (c :: acc) rest

/-- Reads a string literal whose opening quote has been taken. -/
def readString : Reader String := stringBody []

/-- Passes over a string literal whose opening quote has been taken. The characters that its
escapes denote are not looked at. -/
def skipString : List Char → Except Failure (List Char)
  | [] => .error (.atEnd .endInString)
  | c :: rest =>
      if c = '"' then .ok rest
      else if c = '\\' then
        match rest with
        | [] => .error (.atEnd .endInString)
        | e :: rest =>
            if e = 'u' then
              match rest with
              | h₁ :: h₂ :: h₃ :: h₄ :: rest =>
                  match hexUnit? h₁ h₂ h₃ h₄ with
                  | none => .error (hexFailure (h₁ :: h₂ :: h₃ :: h₄ :: rest))
                  | some _ => skipString rest
              | rest => .error (hexFailure rest)
            else if (escapedChar? e).isSome then skipString rest
            else .error (.next .invalidEscape (e :: rest))
      else if c.toNat < 0x20 then .error (.here .controlCharacter (c :: rest))
      else skipString rest

/-! ## Writing -/

/-- The digit of a number below sixteen, in lower case. -/
def hexDigit (n : Nat) : Char :=
  Char.ofNat (if n < 10 then '0'.toNat + n else 'a'.toNat + (n - 10))

def writeChar (c : Char) : List Char :=
  if c = '"' then ['\\', '"']
  else if c = '\\' then ['\\', '\\']
  else if c = '\x08' then ['\\', 'b']
  else if c = '\x0c' then ['\\', 'f']
  else if c = '\n' then ['\\', 'n']
  else if c = '\r' then ['\\', 'r']
  else if c = '\t' then ['\\', 't']
  else if c.toNat < 0x20 then
    ['\\', 'u', '0', '0', hexDigit (c.toNat / 16), hexDigit (c.toNat % 16)]
  else [c]

def writeString (text : String) : List Char :=
  '"' :: text.toList.flatMap writeChar ++ ['"']

end LocaleTidy.Json
