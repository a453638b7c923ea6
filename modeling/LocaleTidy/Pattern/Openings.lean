import LocaleTidy.Pattern.Regex

/-!
# How the words of an expression begin

A search for an expression may need no automaton: where its words are few, short and telling
enough, they are compared with the text one by one. Whether that is so is read off from the
openings of the words, which are gathered within fixed bounds.
-/

namespace LocaleTidy

/-- The class that an expression amounts to, if it is a choice between single characters. -/
def Regex.class? : Regex → Option CharClass
  | .one ranges => some ranges
  | .seq first .empty => first.class?
  | .alt left right =>
      match left.class?, right.class? with
      | some ranges, some others => some (ranges ++ others)
      | _, _ => none
  | _ => none

/-- How some words begin, in bytes. -/
structure Opening where
  bytes : List UInt8
  /-- Whether nothing may follow: the opening is a word itself. -/
  whole : Bool
  deriving DecidableEq, Repr

/-- The openings of all words, the preferred ones first, or nothing if there are too many. -/
abbrev Openings := Option (List Opening)

namespace Opening

def nothing : Opening := ⟨[], true⟩

def ofChar (c : Char) : Opening := ⟨String.utf8EncodeChar c, true⟩

/-- The opening as one that may be followed by more. -/
def loose (opening : Opening) : Opening := { opening with whole := false }

/-- The first bytes of an opening. -/
def cut (count : Nat) (opening : Opening) : Opening :=
  if opening.bytes.length ≤ count then opening else ⟨opening.bytes.take count, false⟩

/-- The openings of words of one kind followed by words of another kind. -/
def followedBy (opening : Opening) (next : List Opening) : List Opening :=
  if opening.whole then
    next.map fun other => ⟨opening.bytes ++ other.bytes, other.whole⟩
  else [opening]

end Opening

namespace Openings

/-! ## Bounds -/

/-- The greatest number of characters in a class whose characters are told apart. -/
def maxClass : Nat := 10

def maxBytes : Nat := 100

def maxCount : Nat := 250

/-- The number of bytes that are kept where there are too many openings. -/
def crampedBytes : Nat := 4

/-! ## Gathering -/

/-- Equal neighbours become one. -/
def merge : List Opening → List Opening
  | [] => []
  | opening :: rest =>
      match merge rest with
      | [] => [opening]
      | next :: others =>
          if opening.bytes = next.bytes then
            ⟨opening.bytes, opening.whole && next.whole⟩ :: others
          else opening :: next :: others

def ofClass (ranges : CharClass) : Openings :=
  let chars := (CharClass.toList ranges).eraseDups
  if maxClass < chars.length then none else some (chars.map .ofChar)

/-- The openings of words of one kind followed by words of another kind. -/
def cross (first second : Openings) : Openings :=
  match first with
  | none => none
  | some lefts =>
      match second.filter fun rights => lefts.length * rights.length ≤ maxCount with
      | some rights => some ((merge (lefts.flatMap (·.followedBy rights))).map (.cut maxBytes))
      | none =>
          if lefts.any (·.bytes.isEmpty) then none else some (lefts.map .loose)

def union (first second : Openings) : Openings :=
  match first, second with
  | some lefts, some rights =>
      if lefts.length + rights.length ≤ maxCount then some (merge (lefts ++ rights))
      else
        let lefts := merge (lefts.map (.cut crampedBytes))
        let rights := merge (rights.map (.cut crampedBytes))
        if lefts.length + rights.length ≤ maxCount then some (merge (lefts ++ rights)) else none
  | _, _ => none

/-- The openings of some words with those of what follows them. Where no opening is a word
itself, nothing that follows can be seen any more. -/
def extend (sofar next : Openings) : Openings :=
  if sofar.any (·.any (·.whole)) then cross sofar next else sofar

/-- Goes on with the words of an expression. A choice between single characters counts as a
class, but only as a whole: `among` says that the expression is a part of a wider choice. -/
def andThen (among : Bool) (sofar : Openings) : Regex → Openings
  | .empty => sofar
  | .seq first second => andThen false (andThen false sofar first) second
  | .one ranges => extend sofar (ofClass ranges)
  | .many ranges => extend sofar ((ofClass ranges).map (·.map .loose))
  | .alt left right =>
      extend sofar <|
        match if among then none else (Regex.alt left right).class? with
        | some ranges => ofClass ranges
        | none =>
            union (andThen true (some [.nothing]) left) (andThen true (some [.nothing]) right)

def ofRegex (regex : Regex) : Openings :=
  andThen false (some [.nothing]) regex

/-! ## Choosing -/

/-- The openings that no earlier one begins; each of the others is found wherever that one is. -/
def leastAfter (kept : List (List UInt8)) : List Opening → List Opening
  | [] => []
  | opening :: rest =>
      if kept.any (·.isPrefixOf opening.bytes) then leastAfter kept rest
      else opening :: leastAfter (opening.bytes :: kept) rest

def least (openings : List Opening) : List Opening :=
  leastAfter [] openings

def shared : List UInt8 → List UInt8 → List UInt8
  | b :: rest, d :: others => if b = d then b :: shared rest others else []
  | _, _ => []

def common : List Opening → List UInt8
  | [] => []
  | opening :: rest => rest.foldl (fun start other => shared start other.bytes) opening.bytes

/-- Whether a byte is so frequent in texts that looking for it alone does not pay. -/
def isFrequent (b : UInt8) : Bool :=
  0x80 ≤ b || "\n\r (),-./0129:_abcdefghilmnoprstuvxy|".toList.contains (Char.ofUInt8 b)

/-- Whether what all openings begin with is short but rare. -/
def isRareStart : List UInt8 → Bool
  | [] => false
  | b :: rest => rest.length < 3 && !isFrequent b

/-- Keeps fewer bytes of each opening, step by step, for as long as there are more openings than
the step asks for. -/
def shorten : List (Nat × Nat) → List Opening → List Opening
  | [], openings => openings
  | (bytes, count) :: steps, openings =>
      if openings.length ≤ count then openings
      else shorten steps (least (openings.map (.cut bytes)))

/-- How many bytes are kept where there are more openings than the second number. -/
def steps : List (Nat × Nat) := [(5, 10), (4, 10), (3, 64), (2, 64), (1, 10)]

/-- Whether shortened openings are of no use: too short or too many to sort out places. -/
def isUseless (openings : List Opening) : Bool :=
  openings.any (·.bytes.length ≤ 2) || 64 < openings.length

/-- What is kept of the openings: if they begin alike, that beginning may be telling enough. -/
def kept (openings : List Opening) : List Opening :=
  let few := least openings
  let start := common few
  if 1 < openings.length && isRareStart start then merge (few.map (.cut 1))
  else
    let fast := few.all (·.whole) && few.length ≤ 16
    if 4 < start.length || 1 < start.length && !fast then merge (few.map (.cut start.length))
    else few

/-- Whether a search looks for whole words only: every kept opening is one, and they are not
exchanged for useful shorter ones that are none. -/
def areWords (openings : List Opening) : Bool :=
  let few := kept openings
  let short := shorten steps few
  !openings.any (·.bytes.isEmpty) && few.all (·.whole) && (isUseless short || short.all (·.whole))

end Openings

/-- Whether a search for the expression compares words with the text, and so needs no
automaton. -/
def Regex.isDirect (regex : Regex) : Bool :=
  (Openings.ofRegex regex).any Openings.areWords

end LocaleTidy
