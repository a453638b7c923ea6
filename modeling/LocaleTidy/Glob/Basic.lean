/-!
# Glob patterns

Patterns over the whole text of a path. `?` stands for one character and `*` for any text, a
slash included; `**` takes up whole steps; a class in brackets stands for one of its
characters, or after `!` for one of the others. A pattern is read into a list of parts.
-/

namespace LocaleTidy

/-- A part of a class: a character or a closed range of them. -/
inductive ClassPart where
  | single (c : Char)
  | range (low high : Char)
  deriving DecidableEq, Repr

namespace ClassPart

def has (c : Char) : ClassPart → Bool
  | .single d => c == d
  | .range low high => low ≤ c && c ≤ high

def ofText : List Char → List ClassPart
  | low :: '-' :: high :: rest => .range low high :: ofText rest
  | c :: rest => .single c :: ofText rest
  | [] => []

end ClassPart

/-- A pattern as a list of parts. -/
inductive GlobPart where
  | char (c : Char)
  | any
  | anyText
  /-- Whole steps: no text, a text that ends with a slash, or all that is left. -/
  | anySteps
  | within (parts : List ClassPart)
  | outside (parts : List ClassPart)
  deriving DecidableEq, Repr

structure Glob where
  text : String
  parts : List GlobPart

namespace Glob

/-! ## Reading -/

inductive Cause where
  | wildcards
  | recursiveWildcards
  | range
  deriving DecidableEq, Repr

/-- A malformed pattern: what is wrong, and the number of characters before it. -/
structure Fault where
  position : Nat
  cause : Cause
  deriving DecidableEq, Repr

def Fault.message (fault : Fault) : String :=
  s!"Pattern syntax error near position {fault.position}: " ++
    match fault.cause with
    | .wildcards => "wildcards are either regular `*` or recursive `**`"
    | .recursiveWildcards => "recursive wildcards must form a single path component"
    | .range => "invalid range pattern"

/-- Splits the text after an opening bracket into the characters of the class and the text
after its closing bracket. The first character belongs to the class whatever it is. -/
def classText? : List Char → Option (List Char × List Char)
  | [] => none
  | c :: rest =>
      match rest.dropWhile (· ≠ ']') with
      | [] => none
      | _ :: after => some (c :: rest.takeWhile (· ≠ ']'), after)

/-- The class that the text after an opening bracket begins with, and what follows it. -/
def class? : List Char → Option (GlobPart × List Char)
  | '!' :: rest =>
      (classText? rest).map fun (text, after) => (.outside (ClassPart.ofText text), after)
  | rest => (classText? rest).map fun (text, after) => (.within (ClassPart.ofText text), after)

theorem length_of_classText? {text inner after : List Char}
    (h : classText? text = some (inner, after)) : after.length < text.length := by
  unfold classText? at h
  split at h
  · simp at h
  · rename_i c rest
    split at h
    · simp at h
    · rename_i d tail hd
      simp only [Option.some.injEq, Prod.mk.injEq] at h
      rcases h with ⟨-, rfl⟩
      have := (List.dropWhile_sublist (l := rest) (fun x => decide (x ≠ ']'))).length_le
      rw [hd] at this
      simp only [List.length_cons] at this ⊢
      omega

theorem length_of_class? {text after : List Char} {part : GlobPart}
    (h : class? text = some (part, after)) : after.length < text.length := by
  unfold class? at h
  split at h <;> simp only [Option.map_eq_some_iff, Prod.mk.injEq, Prod.exists] at h
  · rcases h with ⟨inner, rest, hc, -, rfl⟩
    exact Nat.lt_succ_of_lt (length_of_classText? hc)
  · rcases h with ⟨inner, rest, hc, -, rfl⟩
    exact length_of_classText? hc

/-- Reads the parts of a pattern from `position` on. `step` says whether a step begins there,
and `read` holds the parts before, last first; neighbouring `**` count once unless they are the
first part. -/
def partsFrom (position : Nat) (step : Bool) (read : List GlobPart) (text : List Char) :
    Except Fault (List GlobPart) :=
  match text with
  | [] => .ok read.reverse
  | '*' :: '*' :: '*' :: _ => .error ⟨position + 2, .wildcards⟩
  | '*' :: '*' :: rest =>
      let read :=
        match read with
        | .anySteps :: _ :: _ => read
        | _ => .anySteps :: read
      if !step then .error ⟨position - 1, .recursiveWildcards⟩
      else
        match rest with
        | [] => .ok read.reverse
        | c :: rest =>
            if c = '/' then partsFrom (position + 3) true read rest
            else .error ⟨position + 2, .recursiveWildcards⟩
  | c :: rest =>
      if c = '*' then partsFrom (position + 1) false (.anyText :: read) rest
      else if c = '?' then partsFrom (position + 1) false (.any :: read) rest
      else if c = '[' then
        match h : class? rest with
        | none => .error ⟨position, .range⟩
        | some (part, after) =>
            partsFrom (position + 1 + (rest.length - after.length)) false (part :: read) after
      else partsFrom (position + 1) (c = '/') (.char c :: read) rest
termination_by text.length
decreasing_by
  all_goals simp only [List.length_cons]
  all_goals first
    | omega
    | exact Nat.lt_succ_of_lt (length_of_class? h)

def parse (text : String) : Except Fault Glob := do
  return ⟨text, ← partsFrom 0 true [] text.toList⟩

/-- Whether an ignored path is written as a pattern: only `*` and `?` make it one. -/
def isPattern (text : String) : Bool :=
  text.toList.any fun c => c == '*' || c == '?'

end Glob

end LocaleTidy
