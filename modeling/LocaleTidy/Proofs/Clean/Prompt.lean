import Mathlib.Data.List.Basic
import LocaleTidy.Clean.Prompt
import LocaleTidy.Proofs.Text.Blank

/-!
# The answer to a question

The question is put again for every line that is no answer. The first line that is one decides; it
is the last that is read, and where the input has no such line all of it is read and the answer is
no.
-/

namespace LocaleTidy.Prompt

/-! ## Lines -/

/-- The lines of a text, each with its line break; only the last one may be without. -/
inductive Lines : List Char → List (List Char) → Prop where
  | none : Lines [] []
  | last {line : List Char} (hne : line ≠ []) (h : '\n' ∉ line) : Lines line [line]
  | more {line text : List Char} {lines : List (List Char)} (h : '\n' ∉ line)
      (rest : Lines text lines) : Lines (line ++ '\n' :: text) ((line ++ ['\n']) :: lines)

variable {line text input : List Char} {lines : List (List Char)}

theorem Lines.flatten_eq (h : Lines text lines) : lines.flatten = text := by
  induction h with
  | none => rfl
  | last _ _ => simp
  | more _ _ ih => simp [ih]

theorem exists_lines (text : List Char) : ∃ lines, Lines text lines := by
  induction hlength : text.length using Nat.strongRecOn generalizing text with
  | ind length ih =>
      by_cases hbreak : '\n' ∈ text
      · obtain ⟨line, rest, rfl, hline⟩ := List.eq_append_cons_of_mem hbreak
        have hshort : rest.length < length := by
          rw [← hlength, List.length_append, List.length_cons]
          omega
        obtain ⟨lines, hlines⟩ := ih rest.length hshort rest rfl
        exact ⟨_, .more hline hlines⟩
      · by_cases hne : text = []
        · exact ⟨[], hne ▸ .none⟩
        · exact ⟨[text], .last hne hbreak⟩

theorem nextLine_append (h : '\n' ∉ line) (text : List Char) :
    nextLine (line ++ '\n' :: text) = (line ++ ['\n'], text) := by
  induction line with
  | nil => simp [nextLine]
  | cons c line ih =>
      rw [List.mem_cons, not_or] at h
      simp [nextLine, Ne.symm h.1, ih h.2]

theorem nextLine_of_notMem (h : '\n' ∉ line) : nextLine line = (line, []) := by
  induction line with
  | nil => rfl
  | cons c line ih =>
      rw [List.mem_cons, not_or] at h
      simp [nextLine, Ne.symm h.1, ih h.2]

theorem Lines.uncons (h : Lines input (line :: lines)) :
    input ≠ [] ∧ ∃ rest, nextLine input = (line, rest) ∧ Lines rest lines := by
  cases h with
  | last hne hline => exact ⟨hne, [], nextLine_of_notMem hline, .none⟩
  | @more line text lines hline rest =>
      exact ⟨by simp, text, nextLine_append hline text, rest⟩

/-! ## Answers -/

def letters : List Char := ['y', 'e', 's', 'n', 'o']

/-- A map of texts to lower case. It does to ASCII texts what is done there letter by letter, and
what it makes of any other character is never made up of the letters of the answers alone. -/
structure LowersCase (lower : List Char → List Char) : Prop where
  ascii : ∀ text, (∀ c ∈ text, c.toNat < 128) → lower text = text.map Char.toLower
  beyond : ∀ text, (∃ c ∈ text, 128 ≤ c.toNat) → ∃ c ∈ lower text, c ∉ letters

/-- A line says a word, but for white space around it and the case. -/
def Says (lower : List Char → List Char) (line word : List Char) : Prop :=
  ∃ trimmed, Text.Trims line trimmed ∧ lower trimmed = word

def SaysYes (lower : List Char → List Char) (line : List Char) : Prop :=
  Says lower line ['y'] ∨ Says lower line ['y', 'e', 's']

def SaysNo (lower : List Char → List Char) (line : List Char) : Prop :=
  Says lower line ['n'] ∨ Says lower line ['n', 'o']

variable {lower : List Char → List Char} {word : List Char}

theorem toLower_of_le {c : Char} (h : 128 ≤ c.toNat) : c.toLower = c := by
  have hupper : ¬ (c.val ≥ 'A'.val ∧ c.val ≤ 'Z'.val) := by
    rintro ⟨-, hle⟩
    have hnat : c.toNat ≤ 'Z'.toNat := UInt32.le_iff_toNat_le.mp hle
    have hz : 'Z'.toNat = 90 := rfl
    omega
  exact dif_neg hupper

theorem toNat_lt_of_mem_letters {c : Char} (h : c ∈ letters) : c.toNat < 128 := by
  have hall : letters.all (fun c => c.toNat < 128) = true := by decide
  simpa using List.all_eq_true.mp hall c h

/-- To tell whether a text is an answer it is enough to bring the ASCII letters to lower case. -/
theorem LowersCase.eq_iff (h : LowersCase lower) (hword : ∀ c ∈ word, c ∈ letters) :
    lower text = word ↔ text.map Char.toLower = word := by
  by_cases hascii : ∀ c ∈ text, c.toNat < 128
  · rw [h.ascii text hascii]
  · simp only [not_forall, Nat.not_lt, exists_prop] at hascii
    obtain ⟨c, hc, hno⟩ := h.beyond text hascii
    obtain ⟨d, hd, hlarge⟩ := hascii
    constructor
    · rintro rfl
      exact absurd (hword c hc) hno
    · rintro rfl
      have hletter := hword _ (List.mem_map_of_mem hd)
      rw [toLower_of_le hlarge] at hletter
      have hsmall := toNat_lt_of_mem_letters hletter
      omega

theorem LowersCase.says_iff (h : LowersCase lower) (hword : ∀ c ∈ word, c ∈ letters) :
    Says lower line word ↔ (Text.trim line).map Char.toLower = word := by
  rw [← h.eq_iff hword]
  simp [Says, ← Text.trim_eq_iff]

theorem answerOf?_eq (line : List Char) :
    answerOf? line =
      if (Text.trim line).map Char.toLower ∈ [['y'], ['y', 'e', 's']] then some true
      else if (Text.trim line).map Char.toLower ∈ [['n'], ['n', 'o']] then some false
      else none := by
  have hword : ∀ word text : List Char,
      String.ofList word = String.ofList text ↔ word = text := fun _ _ => String.ofList_inj
  simp only [List.mem_cons, List.not_mem_nil, or_false, ← hword]
  rfl

theorem answerOf?_eq_some_true_iff (h : LowersCase lower) :
    answerOf? line = some true ↔ SaysYes lower line := by
  rw [SaysYes, h.says_iff (by simp [letters]), h.says_iff (by simp [letters]), answerOf?_eq]
  split_ifs <;> simp_all

theorem answerOf?_eq_none_iff (h : LowersCase lower) :
    answerOf? line = none ↔ ¬ SaysYes lower line ∧ ¬ SaysNo lower line := by
  rw [SaysYes, SaysNo, h.says_iff (by simp [letters]), h.says_iff (by simp [letters]),
    h.says_iff (by simp [letters]), h.says_iff (by simp [letters]), answerOf?_eq]
  split_ifs <;> simp_all

/-! ## Asking -/

variable {count : Nat} {rest : List Char}

theorem askOn_of_answer (hne : input ≠ []) (hnext : nextLine input = (line, rest)) {answer : Bool}
    (h : answerOf? line = some answer) : askOn count input = ⟨answer, question count, rest⟩ := by
  obtain ⟨c, more, rfl⟩ := List.exists_cons_of_ne_nil hne
  rw [askOn, hnext]
  simp only [h]

theorem askOn_of_none (hne : input ≠ []) (hnext : nextLine input = (line, rest))
    (h : answerOf? line = none) :
    askOn count input = ⟨(askOn count rest).answer,
      question count ++ reminder ++ (askOn count rest).output, (askOn count rest).left⟩ := by
  obtain ⟨c, more, rfl⟩ := List.exists_cons_of_ne_nil hne
  rw [askOn, hnext]
  simp only [h]

/-- The lines of an input, as they stand to a question: the first ones are no answers, then comes
the one that decides, if there is one, and the others need not be read. -/
structure Course (lower : List Char → List Char) (lines rejected : List (List Char))
    (deciding : Option (List Char)) (unread : List (List Char)) : Prop where
  lines_eq : lines = rejected ++ deciding.toList ++ unread
  noAnswer : ∀ line ∈ rejected, ¬ SaysYes lower line ∧ ¬ SaysNo lower line
  answers : ∀ line ∈ deciding, SaysYes lower line ∨ SaysNo lower line
  ended : deciding = none → unread = []

def keyLines (keys : List String) : String :=
  "\nUnused keys:\n" ++ String.join (keys.map fun key => "  " ++ key ++ "\n")

def questionLine (count : Nat) : String :=
  "\nDelete these " ++ toString count ++ " unused key(s) from the translation file? (y/n): "

/-- What is written while lines are rejected, and with the last question. -/
def questions (count rejected : Nat) : String :=
  String.join (List.replicate rejected (questionLine count ++ "Please answer y or n\n")) ++
    questionLine count

theorem question_eq (count : Nat) : question count = questionLine count := rfl

/-- The reply to a question whose input takes a course. -/
structure Replies (lower : List Char → List Char) (count : Nat) (rejected : List (List Char))
    (deciding : Option (List Char)) (unread : List (List Char)) (reply : Reply) : Prop where
  answer_iff : reply.answer = true ↔ ∃ line ∈ deciding, SaysYes lower line
  output_eq : reply.output = questions count rejected.length
  left_eq : reply.left = unread.flatten

theorem Course.reject {rejected unread : List (List Char)} {deciding : Option (List Char)}
    (h : Course lower lines rejected deciding unread)
    (hline : ¬ SaysYes lower line ∧ ¬ SaysNo lower line) :
    Course lower (line :: lines) (line :: rejected) deciding unread where
  lines_eq := by rw [h.lines_eq, List.cons_append, List.cons_append]
  noAnswer := List.forall_mem_cons.mpr ⟨hline, h.noAnswer⟩
  answers := h.answers
  ended := h.ended

/-- By induction on the lines: one that is no answer puts a question and a reminder before all
that follows. -/
theorem exists_course (h : LowersCase lower) (count : Nat) (hlines : Lines input lines) :
    ∃ rejected deciding unread, Course lower lines rejected deciding unread ∧
      Replies lower count rejected deciding unread (askOn count input) := by
  induction lines generalizing input with
  | nil =>
      obtain rfl : [] = input := hlines.flatten_eq
      refine ⟨[], none, [], ⟨rfl, by simp, by simp, fun _ => rfl⟩, ?_⟩
      rw [askOn]
      exact ⟨by simp, by simp [questions, question_eq, String.join], rfl⟩
  | cons line lines ih =>
      obtain ⟨hne, rest, hnext, hrest⟩ := hlines.uncons
      cases hanswer : answerOf? line with
      | none =>
          obtain ⟨rejected, deciding, unread, hcourse, hreply⟩ := ih hrest
          have hline := (answerOf?_eq_none_iff h).mp hanswer
          refine ⟨line :: rejected, deciding, unread, hcourse.reject hline, ?_⟩
          rw [askOn_of_none hne hnext hanswer]
          refine ⟨hreply.answer_iff, ?_, hreply.left_eq⟩
          rw [hreply.output_eq]
          simp [questions, question_eq, reminder, List.replicate_succ, String.append_assoc]
      | some answer =>
          have hyes : answerOf? line = some true ↔ SaysYes lower line :=
            answerOf?_eq_some_true_iff h
          have hno : ¬ answerOf? line = none ↔ ¬ (¬ SaysYes lower line ∧ ¬ SaysNo lower line) :=
            not_congr (answerOf?_eq_none_iff h)
          rw [hanswer] at hyes hno
          refine ⟨[], some line, lines, ⟨rfl, by simp, ?_, by simp⟩, ?_⟩
          · simpa [or_iff_not_and_not] using hno
          · rw [askOn_of_answer hne hnext hanswer]
            exact ⟨by simpa using hyes, by simp [questions, question_eq, String.join],
              hrest.flatten_eq.symm⟩

/-- The keys are listed once; then every line that is no answer is asked about and rejected, and
the first one that is an answer decides and is the last to be read. -/
theorem ask_until_answered (h : LowersCase lower) (keys : List String) (input : List Char) :
    ∃ lines rejected deciding unread, Lines input lines ∧
      Course lower lines rejected deciding unread ∧
      ((ask keys input).answer = true ↔ ∃ line ∈ deciding, SaysYes lower line) ∧
      input = rejected.flatten ++ deciding.toList.flatten ++ (ask keys input).left ∧
      (ask keys input).output =
        keyLines keys ++ questions keys.length rejected.length := by
  obtain ⟨lines, hlines⟩ := exists_lines input
  obtain ⟨rejected, deciding, unread, hcourse, hreply⟩ := exists_course h keys.length hlines
  refine ⟨lines, rejected, deciding, unread, hlines, hcourse, hreply.answer_iff, ?_, ?_⟩
  · have hleft : (ask keys input).left = unread.flatten := hreply.left_eq
    rw [hleft, ← hlines.flatten_eq, hcourse.lines_eq, List.flatten_append, List.flatten_append]
  · rw [ask, hreply.output_eq]
    rfl

theorem lowersCase_map : LowersCase (List.map Char.toLower) where
  ascii _ _ := rfl
  beyond text := by
    rintro ⟨c, hc, hlarge⟩
    refine ⟨c, by simpa [toLower_of_le hlarge] using List.mem_map_of_mem (f := Char.toLower) hc, ?_⟩
    intro hletter
    have hsmall := toNat_lt_of_mem_letters hletter
    omega

/-- A line that is no answer, one that is an answer in capitals between blanks, and one that is not
read. -/
theorem ask_until_answered_capitals :
    let lower := List.map Char.toLower
    let input := "maybe\n\tYES \nno".toList
    let reply := ask ["a.b", "c"] input
    LowersCase lower ∧
      (∃ lines rejected deciding unread, Lines input lines ∧
        Course lower lines rejected deciding unread ∧
        (reply.answer = true ↔ ∃ line ∈ deciding, SaysYes lower line) ∧
        input = rejected.flatten ++ deciding.toList.flatten ++ reply.left ∧
        reply.output = keyLines ["a.b", "c"] ++ questions 2 rejected.length) ∧
      reply.answer = true ∧ reply.left = ['n', 'o'] ∧
      reply.output = "\nUnused keys:\n  a.b\n  c\n" ++
        "\nDelete these 2 unused key(s) from the translation file? (y/n): " ++
        "Please answer y or n\n" ++
        "\nDelete these 2 unused key(s) from the translation file? (y/n): " := by
  refine ⟨lowersCase_map, ask_until_answered lowersCase_map ["a.b", "c"]
    "maybe\n\tYES \nno".toList, ?_, ?_, ?_⟩
  · decide +kernel
  · decide +kernel
  · decide +kernel

end LocaleTidy.Prompt
