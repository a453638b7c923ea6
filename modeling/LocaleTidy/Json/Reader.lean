import LocaleTidy.Json.Basic
import LocaleTidy.Json.Number
import LocaleTidy.Json.StringLiteral

/-!
# Reading JSON

Readers for the parts of a JSON text, and the reader of a whole one. Arrays and objects may
nest at most `maxDepth` deep.
-/

namespace LocaleTidy.Json

/-! ## Blanks and literals -/

/-- The blanks between the tokens of a JSON text. -/
def isGap (c : Char) : Bool :=
  c = ' ' || c = '\n' || c = '\t' || c = '\r'

def skipGaps (text : List Char) : List Char :=
  text.dropWhile isGap

def literal : List Char → List Char → Except Failure (List Char)
  | [], rest => .ok rest
  | _ :: _, [] => .error (.atEnd .endInValue)
  | letter :: letters, c :: rest =>
      if c = letter then literal letters rest else .error (.next .expectedLiteral (c :: rest))

/-! ## Arrays and objects

An item is announced by the bracket or the comma before it. -/

/-- Goes to the next item of an array: the answer is false if the array ends instead, and then
its bracket has been taken. -/
def nextItem (first : Bool) : Reader Bool := fun text =>
  match skipGaps text with
  | [] => .error (.atEnd .endInList)
  | c :: rest =>
      if c = ']' then .ok (false, rest)
      else if first then .ok (true, c :: rest)
      else if c = ',' then
        match skipGaps rest with
        | [] => .error (.atEnd .endInValue)
        | c :: rest =>
            if c = ']' then .error (.next .trailingComma (c :: rest)) else .ok (true, c :: rest)
      else .error (.next .expectedCommaOrListEnd (c :: rest))

/-- Reads the items of an array up to its bracket. Each takes up some of the text, so that as
many rounds as the text has characters, and one more, are enough. -/
def itemsWithin {α : Type} (item : Reader α) : Nat → Bool → Reader (List α)
  | 0, _, _ => .error (.atEnd .endInList)
  | rounds + 1, first, text => do
      let (another, text) ← nextItem first text
      if another then
        let (head, text) ← item text
        let (tail, text) ← itemsWithin item rounds false text
        return (head :: tail, text)
      else return ([], text)

/-- Reads the items of an array whose opening bracket has been taken. -/
def readItems {α : Type} (item : Reader α) : Reader (List α) := fun text =>
  itemsWithin item (text.length + 1) true text

/-- Goes to the next name of an object and reads it, if the object does not end before. -/
def nextName (first : Bool) : Reader (Option String) := fun text =>
  match skipGaps text with
  | [] => .error (.atEnd .endInObject)
  | c :: rest =>
      if c = '}' then .ok (none, rest)
      else if first then name c rest
      else if c = ',' then
        match skipGaps rest with
        | [] => .error (.atEnd .endInValue)
        | c :: rest =>
            if c = '}' then .error (.next .trailingComma (c :: rest)) else name c rest
      else .error (.next .expectedCommaOrObjectEnd (c :: rest))
where
  /-- Reads a name that begins with the character `c`, which has to be a quote. -/
  name (c : Char) : Reader (Option String) := fun rest =>
    if c = '"' then do
      let (text, rest) ← readString rest
      return (some text, rest)
    else .error (.next .keyNotString (c :: rest))

def takeColon (text : List Char) : Except Failure (List Char) :=
  match skipGaps text with
  | [] => .error (.atEnd .endInObject)
  | c :: rest => if c = ':' then .ok rest else .error (.next .expectedColon (c :: rest))

/-- Reads the members of an object up to its bracket, in as many rounds as are enough. After
each name `member` reads the rest of the member, from the colon on, into what was gathered
before. -/
def membersWithin {σ : Type} (member : σ → String → Reader σ) : Nat → Bool → σ → Reader σ
  | 0, _, _, _ => .error (.atEnd .endInObject)
  | rounds + 1, first, gathered, text => do
      match ← nextName first text with
      | (none, text) => return (gathered, text)
      | (some name, text) =>
          let (gathered, text) ← member gathered name text
          membersWithin member rounds false gathered text

def readMember {α : Type} (value : Reader α) : Reader α := fun text => do
  value (← takeColon text)

/-- Takes the bracket that ends an object after its last member. -/
def takeObjectEnd (text : List Char) : Except Failure (List Char) :=
  match skipGaps text with
  | [] => .error (.atEnd .endInObject)
  | c :: rest =>
      if c = '}' then .ok rest
      else if c = ',' then .error (.next .trailingComma (c :: rest))
      else .error (.next .trailingCharacters (c :: rest))

/-! ## Values of the wrong type -/

def digitsValue (digits : List Char) : Nat :=
  digits.foldl (fun value digit => 10 * value + (digit.toNat - '0'.toNat)) 0

/-- Whether a number's text is an integer of at most 64 bits; the negative zero is none. -/
def isWordText (text : String) : Bool :=
  match text.toList with
  | '-' :: digits =>
      digits.all Char.isDigit && 0 < digitsValue digits && digitsValue digits ≤ 0x8000000000000000
  | digits => digits.all Char.isDigit && digitsValue digits < 0x10000000000000000

/-- The failure where a value begins that is not of the wanted kind. A scalar is read first,
and what is wrong with it comes before its being unwanted. -/
def mismatch (wanted : String) : List Char → Failure
  | [] => .atEnd .expectedValue
  | c :: rest =>
      let unwanted (found : Found) (rest : List Char) : Failure :=
        .here (.unexpected found wanted) rest
      let word (letters : String) (found : Found) : Failure :=
        match literal letters.toList rest with
        | .ok rest => unwanted found rest
        | .error failure => failure
      if c = 'n' then word "ull" .null
      else if c = 't' then word "rue" (.bool true)
      else if c = 'f' then word "alse" (.bool false)
      else if c = '"' then
        match readString rest with
        | .ok (text, rest) => unwanted (.string text) rest
        | .error failure => failure
      else if c = '[' then unwanted .sequence (c :: rest)
      else if c = '{' then unwanted .map (c :: rest)
      else if startsNumber c then
        match readNumber (c :: rest) with
        | .ok (text, rest) =>
            unwanted (if isWordText text then .integer text else .number) rest
        | .error failure => failure
      else .next .expectedValue (c :: rest)

/-! ## Values -/

/-- The name that marks an object as a number: its only member then holds the number's text. -/
def numberTag : String := "$serde_json::private::Number"

/-- Reads the rest of an object whose first name is `numberTag`. -/
def readTaggedNumber : Reader Json := fun text => do
  let text ← takeColon text
  match skipGaps text with
  | [] => throw (.atEnd .endInValue)
  | c :: rest =>
      if c = '"' then
        let (digits, rest) ← readString rest
        let digits ← numberOfText digits
        let rest ← takeObjectEnd rest
        return (.number digits, rest)
      else throw (mismatch "string containing a number" (c :: rest))

/-- Reads an object whose opening bracket has been taken. -/
def readObject (value : Reader Json) : Reader Json := fun text => do
  match ← nextName true text with
  | (none, text) => return (.object [], text)
  | (some name, text) =>
      if name = numberTag then readTaggedNumber text
      else
        let (head, text) ← readMember value text
        let member (members : Members) (name : String) : Reader Members := fun text => do
          let (value, text) ← readMember value text
          return (members.insert name value, text)
        let (members, text) ← membersWithin member (text.length + 1) false [(name, head)] text
        return (.object members, text)

/-- Reads one value, with `nested` for the values inside it; without a reader for those, an
opening bracket is one too many. -/
def readWith (nested : Option (Reader Json)) : Reader Json := fun text =>
  match skipGaps text with
  | [] => .error (.atEnd .endInValue)
  | c :: rest =>
      let word (letters : String) (value : Json) : Except Failure (Json × List Char) := do
        let rest ← literal letters.toList rest
        return (value, rest)
      if c = 'n' then word "ull" .null
      else if c = 't' then word "rue" (.bool true)
      else if c = 'f' then word "alse" (.bool false)
      else if c = '"' then do
        let (text, rest) ← readString rest
        return (.string text, rest)
      else if c = '[' then
        match nested with
        | none => .error (.next .tooDeep (c :: rest))
        | some value => do
            let (items, rest) ← readItems value rest
            return (.array items, rest)
      else if c = '{' then
        match nested with
        | none => .error (.next .tooDeep (c :: rest))
        | some value => readObject value rest
      else if startsNumber c then do
        let (text, rest) ← readNumber (c :: rest)
        return (.number text, rest)
      else .error (.next .expectedValue (c :: rest))

/-- Reads a value whose brackets nest at most `depth` deep. -/
def readValue : Nat → Reader Json
  | 0 => readWith none
  | depth + 1 => readWith (some (readValue depth))

def maxDepth : Nat := 127

/-- Reads a whole text with a reader of its value: nothing but blanks may follow. -/
def readWhole {α : Type} (value : Reader α) (text : String) : Except Fault α :=
  let result := do
    let (head, rest) ← value text.toList
    match skipGaps rest with
    | [] => return head
    | rest => throw (Failure.next .trailingCharacters rest)
  result.mapError (Failure.locate text.toList)

def parse (text : String) : Except Fault Json :=
  readWhole (readValue maxDepth) text

end LocaleTidy.Json
