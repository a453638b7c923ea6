/-!
# Regular expressions

The expressions that search patterns denote, the words in their languages, and a matcher that
answers whether a text holds such a word.
-/

namespace LocaleTidy

/-- A set of characters, as closed ranges. -/
abbrev CharClass := List (Char × Char)

namespace CharClass

/-- Whether a character is in one of the ranges. -/
def has (ranges : CharClass) (c : Char) : Bool :=
  ranges.any fun range => range.1 ≤ c && c ≤ range.2

def single (c : Char) : CharClass := [(c, c)]

def toList (ranges : CharClass) : List Char :=
  ranges.flatMap fun range =>
    (List.range (range.2.toNat + 1 - range.1.toNat)).map fun i => Char.ofNat (range.1.toNat + i)

end CharClass

inductive Regex where
  | empty
  | one (ranges : CharClass)
  /-- One or more characters of a class. -/
  | many (ranges : CharClass)
  | seq (first second : Regex)
  | alt (left right : Regex)
  deriving DecidableEq, Repr

namespace Regex

/-- The words of an expression. -/
inductive Matches : Regex → List Char → Prop where
  | empty : Matches .empty []
  | one {ranges c} (h : CharClass.has ranges c = true) : Matches (.one ranges) [c]
  | last {ranges c} (h : CharClass.has ranges c = true) : Matches (.many ranges) [c]
  | more {ranges c word} (h : CharClass.has ranges c = true)
      (rest : Matches (.many ranges) word) : Matches (.many ranges) (c :: word)
  | seq {first second left right} (h : Matches first left) (k : Matches second right) :
      Matches (.seq first second) (left ++ right)
  | left {left right word} (h : Matches left word) : Matches (.alt left right) word
  | right {left right word} (h : Matches right word) : Matches (.alt left right) word

/-- Whether the text begins with characters of the class, at least one, so that `next` accepts
what follows them. -/
def runThen (ranges : CharClass) (next : List Char → Bool) : List Char → Bool
  | [] => false
  | c :: rest => CharClass.has ranges c && (next rest || runThen ranges next rest)

/-- Whether the text begins with a word of the expression so that `next` accepts what follows
it. -/
def matchThen : Regex → (List Char → Bool) → List Char → Bool
  | .empty, next, text => next text
  | .one _, _, [] => false
  | .one ranges, next, c :: rest => CharClass.has ranges c && next rest
  | .many ranges, next, text => runThen ranges next text
  | .seq first second, next, text => matchThen first (matchThen second next) text
  | .alt left right, next, text => matchThen left next text || matchThen right next text

/-- Whether a word of the expression stands somewhere in the text. -/
def occursIn (regex : Regex) : List Char → Bool
  | [] => regex.matchThen (fun _ => true) []
  | c :: rest => regex.matchThen (fun _ => true) (c :: rest) || occursIn regex rest

/-- Whether a word of the expression stands somewhere in a string. -/
def foundIn (regex : Regex) (text : String) : Bool :=
  regex.occursIn text.toList

/-! ## The matcher finds the words of the expression -/

theorem runThen_iff (ranges : CharClass) (next : List Char → Bool) (text : List Char) :
    runThen ranges next text = true ↔
      ∃ word rest, text = word ++ rest ∧ Matches (.many ranges) word ∧ next rest = true := by
  induction text with
  | nil =>
      simp only [runThen, Bool.false_eq_true, false_iff]
      intro hx
      rcases hx with ⟨word, rest, h, hm, -⟩
      obtain ⟨rfl, rfl⟩ := List.append_eq_nil_iff.mp h.symm
      cases hm
  | cons c tail ih =>
      simp only [runThen, Bool.and_eq_true, Bool.or_eq_true, ih]
      constructor
      · intro hx
        rcases hx with ⟨hc, hn | ⟨word, rest, rfl, hm, hn⟩⟩
        · exact ⟨[c], tail, rfl, .last hc, hn⟩
        · exact ⟨c :: word, rest, rfl, .more hc hm, hn⟩
      · intro hx
        rcases hx with ⟨word, rest, h, hm, hn⟩
        cases hm with
        | last hc =>
            obtain ⟨rfl, rfl⟩ := List.cons.inj h
            exact ⟨hc, .inl hn⟩
        | more hc hm =>
            obtain ⟨rfl, rfl⟩ := List.cons.inj h
            exact ⟨hc, .inr ⟨_, rest, rfl, hm, hn⟩⟩

/-- `matchThen` splits the text into a word of the expression and a rest that `next` accepts,
whenever there is such a split. -/
theorem matchThen_iff (regex : Regex) (next : List Char → Bool) (text : List Char) :
    regex.matchThen next text = true ↔
      ∃ word rest, text = word ++ rest ∧ Matches regex word ∧ next rest = true := by
  induction regex generalizing next text with
  | empty =>
      constructor
      · intro h
        exact ⟨[], text, rfl, .empty, h⟩
      · intro hx
        rcases hx with ⟨word, rest, rfl, hm, hn⟩
        cases hm
        exact hn
  | one ranges =>
      cases text with
      | nil =>
          simp only [matchThen, Bool.false_eq_true, false_iff]
          intro hx
          rcases hx with ⟨word, rest, h, hm, -⟩
          obtain ⟨rfl, rfl⟩ := List.append_eq_nil_iff.mp h.symm
          cases hm
      | cons c tail =>
          simp only [matchThen, Bool.and_eq_true]
          constructor
          · intro hx
            rcases hx with ⟨hc, hn⟩
            exact ⟨[c], tail, rfl, .one hc, hn⟩
          · intro hx
            rcases hx with ⟨word, rest, h, hm, hn⟩
            cases hm with
            | one hc =>
                obtain ⟨rfl, rfl⟩ := List.cons.inj h
                exact ⟨hc, hn⟩
  | many ranges => exact runThen_iff ranges next text
  | seq first second ihFirst ihSecond =>
      simp only [matchThen, ihFirst, ihSecond]
      constructor
      · intro hx
        rcases hx with ⟨left, _, rfl, hl, right, rest, rfl, hr, hn⟩
        exact ⟨left ++ right, rest, by simp, .seq hl hr, hn⟩
      · intro hx
        rcases hx with ⟨word, rest, rfl, hm, hn⟩
        cases hm with
        | seq hl hr => exact ⟨_, _, by simp, hl, _, rest, rfl, hr, hn⟩
  | alt left right ihLeft ihRight =>
      simp only [matchThen, Bool.or_eq_true, ihLeft, ihRight]
      constructor
      · intro hx
        rcases hx with ⟨word, rest, h, hm, hn⟩ | ⟨word, rest, h, hm, hn⟩
        · exact ⟨word, rest, h, .left hm, hn⟩
        · exact ⟨word, rest, h, .right hm, hn⟩
      · intro hx
        rcases hx with ⟨word, rest, h, hm, hn⟩
        cases hm with
        | left hm => exact .inl ⟨word, rest, h, hm, hn⟩
        | right hm => exact .inr ⟨word, rest, h, hm, hn⟩

theorem occursIn_iff (regex : Regex) (text : List Char) :
    regex.occursIn text = true ↔ ∃ word, Matches regex word ∧ word <:+: text := by
  induction text with
  | nil =>
      simp only [occursIn, matchThen_iff, and_true, List.infix_nil]
      constructor
      · intro hx
        rcases hx with ⟨word, rest, h, hm⟩
        exact ⟨word, hm, (List.append_eq_nil_iff.mp h.symm).1⟩
      · intro hx
        rcases hx with ⟨word, hm, rfl⟩
        exact ⟨[], [], rfl, hm⟩
  | cons c tail ih =>
      simp only [occursIn, Bool.or_eq_true, matchThen_iff, and_true, ih, List.infix_cons_iff]
      constructor
      · intro hx
        rcases hx with ⟨word, rest, h, hm⟩ | ⟨word, hm, hw⟩
        · exact ⟨word, hm, .inl ⟨rest, h.symm⟩⟩
        · exact ⟨word, hm, .inr hw⟩
      · intro hx
        rcases hx with ⟨word, hm, ⟨rest, h⟩ | hw⟩
        · exact .inl ⟨word, rest, h.symm, hm⟩
        · exact .inr ⟨word, hm, hw⟩

end Regex

end LocaleTidy
