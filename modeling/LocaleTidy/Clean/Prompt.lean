import LocaleTidy.Text.Blank

/-!
# Asking before deletion

The keys are listed, and the question is put until an input line answers it. Where the input
ends, the answer is no.
-/

namespace LocaleTidy.Prompt

structure Reply where
  answer : Bool
  /-- All that was written. -/
  output : String
  /-- The input that was not read. -/
  left : List Char
  deriving DecidableEq, Repr

/-- The answer that a line gives, if it gives one. Only the letters of the ASCII range have to
be brought to lower case: no other character has one of the letters of the answers as its
lower case. -/
def answerOf? (line : List Char) : Option Bool :=
  let word := String.ofList ((Text.trim line).map Char.toLower)
  if word = "y" ∨ word = "yes" then some true
  else if word = "n" ∨ word = "no" then some false
  else none

/-- The first line of an input, with its line break, and what follows it. -/
def nextLine : List Char → List Char × List Char
  | [] => ([], [])
  | c :: rest =>
      if c = '\n' then ([c], rest)
      else
        let (line, rest) := nextLine rest
        (c :: line, rest)

def listing (keys : List String) : String :=
  "\nUnused keys:\n" ++ String.join (keys.map fun key => "  " ++ key ++ "\n")

def question (count : Nat) : String :=
  s!"\nDelete these {count} unused key(s) from the translation file? (y/n): "

def reminder : String := "Please answer y or n\n"

theorem length_nextLine (c : Char) (rest : List Char) :
    (nextLine (c :: rest)).2.length < (c :: rest).length := by
  induction rest generalizing c with
  | nil => unfold nextLine; split <;> simp [nextLine]
  | cons d rest ih =>
      unfold nextLine
      split
      · simp
      · exact Nat.lt_succ_of_lt (ih d)

/-- Puts the question until a line answers it. -/
def askOn (count : Nat) (input : List Char) : Reply :=
  match input with
  | [] => ⟨false, question count, []⟩
  | c :: rest =>
      let line := nextLine (c :: rest)
      match answerOf? line.1 with
      | some answer => ⟨answer, question count, line.2⟩
      | none =>
          let reply := askOn count line.2
          { reply with output := question count ++ reminder ++ reply.output }
termination_by input.length
decreasing_by exact length_nextLine c rest

def ask (keys : List String) (input : List Char) : Reply :=
  let reply := askOn keys.length input
  { reply with output := listing keys ++ reply.output }

end LocaleTidy.Prompt
