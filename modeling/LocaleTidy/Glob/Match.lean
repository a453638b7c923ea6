import LocaleTidy.Glob.Basic
import LocaleTidy.Path

/-!
# Matching glob patterns

`partsMatch` says what a pattern matches. It is found out part by part from the last one on:
each part turns the row of answers for all ends of the text into the row of the parts from it
on, so that the work is the length of the text times the number of parts.
-/

namespace LocaleTidy

/-- Whether a part for one character stands for the given one. -/
def GlobPart.takes (c : Char) : GlobPart → Bool
  | .char d => c == d
  | .any => true
  | .within parts => parts.any (·.has c)
  | .outside parts => !parts.any (·.has c)
  | .anyText | .anySteps => false

namespace Glob

/-! ## What the parts match -/

/-- Whether `next` accepts some end of the text. -/
def someEnd (next : List Char → Bool) : List Char → Bool
  | [] => next []
  | c :: rest => next (c :: rest) || someEnd next rest

/-- Whether `next` accepts an end of the text that follows a slash. -/
def someEndAfterSlash (next : List Char → Bool) : List Char → Bool
  | [] => false
  | c :: rest => c == '/' && next rest || someEndAfterSlash next rest

def partsMatch : List GlobPart → List Char → Bool
  | [], text => text.isEmpty
  | .anyText :: parts, text => someEnd (partsMatch parts) text
  | .anySteps :: parts, text =>
      partsMatch parts text || someEndAfterSlash (partsMatch parts) text || partsMatch parts []
  | _ :: _, [] => false
  | part :: parts, c :: rest => part.takes c && partsMatch parts rest

/-! ## Rows of answers -/

/-- The answers for the ends of a text, the longest end first. -/
def onEnds (accepts : List Char → Bool) : List Char → List Bool
  | [] => [accepts []]
  | c :: rest => accepts (c :: rest) :: onEnds accepts rest

/-- The row for a part that takes one character. -/
def charRow (takes : Char → Bool) : List Char → List Bool → List Bool
  | c :: rest, _ :: row => (takes c && row.headD false) :: charRow takes rest row
  | _, _ => [false]

/-- The row for any text: an end is accepted if it or a shorter one was. -/
def textRow : List Bool → List Bool
  | [] => []
  | flag :: row =>
      let later := textRow row
      (flag || later.headD false) :: later

/-- The row for any text up to a slash. -/
def slashRow : List Char → List Bool → List Bool
  | c :: rest, _ :: row =>
      let later := slashRow rest row
      (c == '/' && row.headD false || later.headD false) :: later
  | _, _ => [false]

/-- The row for whole steps. -/
def stepsRow (text : List Char) (row : List Bool) : List Bool :=
  let all := row.getLastD false
  List.zipWith (fun none some => none || some || all) row (slashRow text row)

def partsRow (text : List Char) : List GlobPart → List Bool
  | [] => onEnds List.isEmpty text
  | .anyText :: parts => textRow (partsRow text parts)
  | .anySteps :: parts => stepsRow text (partsRow text parts)
  | part :: parts => charRow part.takes text (partsRow text parts)

def matchesPath (glob : Glob) (path : Path) : Bool :=
  (partsRow path.text.toList glob.parts).headD false

/-! ## The rows hold what the parts match -/

theorem headD_onEnds (accepts : List Char → Bool) (text : List Char) :
    (onEnds accepts text).headD false = accepts text := by
  cases text <;> rfl

theorem getLastD_onEnds (accepts : List Char → Bool) (text : List Char) :
    (onEnds accepts text).getLastD false = accepts [] := by
  induction text with
  | nil => rfl
  | cons c rest ih =>
      cases rest with
      | nil => rfl
      | cons d rest => simpa [onEnds] using ih

theorem charRow_onEnds (takes : Char → Bool) (next : List Char → Bool) (text : List Char) :
    charRow takes text (onEnds next text) =
      onEnds (fun | [] => false | c :: rest => takes c && next rest) text := by
  induction text with
  | nil => rfl
  | cons c rest ih => simp only [onEnds, charRow, headD_onEnds, ih]

theorem textRow_onEnds (next : List Char → Bool) (text : List Char) :
    textRow (onEnds next text) = onEnds (someEnd next) text := by
  induction text with
  | nil => simp [onEnds, textRow, someEnd]
  | cons c rest ih => simp only [onEnds, textRow, someEnd, ih, headD_onEnds]

theorem slashRow_onEnds (next : List Char → Bool) (text : List Char) :
    slashRow text (onEnds next text) = onEnds (someEndAfterSlash next) text := by
  induction text with
  | nil => rfl
  | cons c rest ih => simp only [onEnds, slashRow, someEndAfterSlash, ih, headD_onEnds]

theorem zipWith_onEnds (f : Bool → Bool → Bool) (left right : List Char → Bool)
    (text : List Char) :
    List.zipWith f (onEnds left text) (onEnds right text) =
      onEnds (fun rest => f (left rest) (right rest)) text := by
  induction text with
  | nil => rfl
  | cons c rest ih => simp [onEnds, ih]

theorem onEnds_congr {left right : List Char → Bool} (h : ∀ text, left text = right text)
    (text : List Char) : onEnds left text = onEnds right text := by
  rw [funext h]

/-- The row for some parts says of every end whether they match it. -/
theorem partsRow_eq (text : List Char) (parts : List GlobPart) :
    partsRow text parts = onEnds (partsMatch parts) text := by
  induction parts with
  | nil => exact onEnds_congr (fun _ => rfl) text
  | cons part parts ih =>
      cases part with
      | anyText =>
          rw [partsRow, ih, textRow_onEnds]
          exact onEnds_congr (fun _ => rfl) text
      | anySteps =>
          simp only [partsRow, ih, stepsRow, slashRow_onEnds, zipWith_onEnds, getLastD_onEnds]
          exact onEnds_congr (fun rest => by cases rest <;> rfl) text
      | char | any | within | outside =>
          simp only [partsRow, ih, charRow_onEnds]
          exact onEnds_congr (fun rest => by cases rest <;> rfl) text

theorem matchesPath_eq (glob : Glob) (path : Path) :
    glob.matchesPath path = partsMatch glob.parts path.text.toList := by
  rw [matchesPath, partsRow_eq, headD_onEnds]

end Glob

end LocaleTidy
