import Mathlib.Computability.Language
import LocaleTidy.Pattern.Text

/-!
# Languages of patterns

A pattern is read as a row of items, and its language is the product of theirs. The language of
a choice is the sum of those of its alternatives. Both are read off a pattern piece by piece,
since a piece adds the same items wherever an item may begin.
-/

namespace LocaleTidy.Regex

/-! ## Words of expressions -/

def words (regex : Regex) : Language Char :=
  {word | Matches regex word}

theorem mem_words {regex : Regex} {word : List Char} :
    word ∈ regex.words ↔ Matches regex word := Iff.rfl

@[simp]
theorem words_empty : words .empty = 1 := by
  ext word
  rw [mem_words, Language.mem_one]
  constructor
  · rintro ⟨⟩
    rfl
  · rintro rfl
    exact .empty

@[simp]
theorem words_seq (first second : Regex) :
    words (.seq first second) = first.words * second.words := by
  ext word
  rw [mem_words, Language.mem_mul]
  constructor
  · intro h
    rcases h with _ | _ | _ | _ | ⟨hl, hr⟩
    exact ⟨_, hl, _, hr, rfl⟩
  · intro h
    rcases h with ⟨left, hl, right, hr, rfl⟩
    exact .seq hl hr

@[simp]
theorem words_alt (left right : Regex) :
    words (.alt left right) = left.words + right.words := by
  ext word
  rw [mem_words, Language.mem_add]
  constructor
  · intro h
    cases h with
    | left h => exact .inl h
    | right h => exact .inr h
  · intro hx
    rcases hx with h | h
    · exact .left h
    · exact .right h

theorem mem_words_one {ranges : CharClass} {word : List Char} :
    word ∈ (one ranges).words ↔ ∃ c, CharClass.has ranges c = true ∧ word = [c] := by
  rw [mem_words]
  constructor
  · rintro ⟨⟩
    exact ⟨_, ‹_›, rfl⟩
  · intro h
    rcases h with ⟨c, hc, rfl⟩
    exact .one hc

theorem mem_words_many {ranges : CharClass} {word : List Char} :
    word ∈ (many ranges).words ↔
      word ≠ [] ∧ ∀ c ∈ word, CharClass.has ranges c = true := by
  rw [mem_words]
  constructor
  · intro h
    refine ⟨by cases h <;> simp, ?_⟩
    generalize hm : many ranges = regex at h
    induction h with
    | last hc =>
        cases hm
        simpa using hc
    | more hc _ ih =>
        cases hm
        simpa using ⟨hc, ih rfl⟩
    | _ => cases hm
  · intro hx
    rcases hx with ⟨hne, hall⟩
    induction word with
    | nil => exact absurd rfl hne
    | cons c rest ih =>
        cases rest with
        | nil => exact .last (hall c (by simp))
        | cons d rest =>
            exact .more (hall c (by simp)) (ih (by simp) fun e he => hall e (by simp [he]))

theorem has_single {c d : Char} : CharClass.has (.single c) d = true ↔ d = c := by
  simp only [CharClass.has, CharClass.single, List.any_cons, List.any_nil, Bool.or_false,
    Bool.and_eq_true, decide_eq_true_eq]
  exact ⟨fun h => Char.le_antisymm h.2 h.1, fun h => h ▸ ⟨Char.le_refl d, Char.le_refl d⟩⟩

@[simp]
theorem words_single (c : Char) : (one (.single c)).words = {[c]} := by
  ext word
  rw [mem_words_one]
  simp only [has_single, exists_eq_left]
  rfl

theorem foundIn_iff {regex : Regex} {text : String} :
    regex.foundIn text = true ↔ ∃ word ∈ regex.words, word <:+: text.toList :=
  occursIn_iff regex text.toList

/-! ## Rows of items -/

def rowWords (items : List Regex) : Language Char :=
  (items.map words).prod

theorem words_foldl_seq (items : List Regex) (after : Regex) :
    (items.foldl (fun after item => seq item after) after).words =
      rowWords items.reverse * after.words := by
  induction items generalizing after with
  | nil => simp [rowWords]
  | cons item items ih =>
      rw [List.foldl_cons, ih, words_seq, ← mul_assoc, rowWords, rowWords, List.reverse_cons,
        List.map_append, List.prod_append, List.map_singleton, List.prod_singleton]

theorem words_regex (read : Alternatives) :
    read.regex.words = read.before.elim 0 words + rowWords read.items.reverse := by
  have hlast := words_foldl_seq read.items .empty
  rw [words_empty, mul_one] at hlast
  rw [Alternatives.regex]
  cases read.before with
  | none => simp [hlast]
  | some before => simp [hlast]

/-- The pattern is read as these items, wherever an item may begin. -/
def Reads (pattern : List Char) (items : List Regex) : Prop :=
  ∀ current outer, Progress.run ⟨.item, current, outer⟩ pattern =
    some ⟨.item, { current with items := items.reverse ++ current.items }, outer⟩

theorem Reads.append {first second : List Char} {left right : List Regex} (h : Reads first left)
    (k : Reads second right) : Reads (first ++ second) (left ++ right) := by
  intro current outer
  rw [Progress.run_append, h current outer, Option.bind_some, k]
  simp

end LocaleTidy.Regex

namespace LocaleTidy.Pattern

open Regex (Reads Progress rowWords words)

/-! ## Patterns and their languages -/

/-- The pattern is a row of items with this language. -/
def Denotes (pattern : String) (language : Language Char) : Prop :=
  ∃ items, Reads pattern.toList items ∧ rowWords items = language

theorem Denotes.append {first second : String} {left right : Language Char}
    (h : Denotes first left) (k : Denotes second right) :
    Denotes (first ++ second) (left * right) := by
  rcases h with ⟨items, hread, rfl⟩
  rcases k with ⟨more, kread, rfl⟩
  refine ⟨items ++ more, ?_, ?_⟩
  · rw [String.toList_append]
    exact hread.append kread
  · rw [rowWords, rowWords, rowWords, List.map_append, List.prod_append]

/-! ### Escaped texts -/

theorem isPlain_of_not_isMeta {c : Char} (h : Regex.isMeta c = false) :
    Regex.isPlain c = true := by
  simp only [Regex.isMeta, Regex.isPlain] at *
  simp_all

theorem ne_meta_of_isPlain {c : Char} (h : Regex.isPlain c = true) :
    c ≠ '\\' ∧ c ≠ '[' ∧ c ≠ '(' ∧ c ≠ ')' ∧ c ≠ '|' ∧ c ≠ '+' := by
  refine ⟨?_, ?_, ?_, ?_, ?_, ?_⟩ <;>
    · rintro rfl
      exact absurd h (by decide)

theorem reads_plain {c : Char} (h : Regex.isPlain c = true) :
    Reads [c] [.one (.single c)] := by
  intro current outer
  obtain ⟨hslash, hsquare, hopen, hclose, hbar, hplus⟩ := ne_meta_of_isPlain h
  simp [Progress.run, Progress.step, hslash, hsquare, hopen, hclose, hbar, hplus, h, Progress.add,
    Regex.Alternatives.add]

theorem reads_escaped {c : Char} (h : Regex.isMeta c = true) :
    Reads ['\\', c] [.one (.single c)] := by
  intro current outer
  simp [Progress.run, Progress.step, h, Progress.add, Regex.Alternatives.add]

theorem reads_escapeChars (text : List Char) :
    Reads (escapeChars text) (text.map fun c => .one (.single c)) := by
  induction text with
  | nil => exact fun current outer => rfl
  | cons c rest ih =>
      by_cases h : Regex.isMeta c
      · rw [escapeChars, if_pos h]
        exact (reads_escaped h).append ih
      · rw [escapeChars, if_neg h]
        exact (reads_plain (isPlain_of_not_isMeta (by simpa using h))).append ih

theorem rowWords_singles (text : List Char) :
    rowWords (text.map fun c => .one (.single c)) = {text} := by
  induction text with
  | nil => rfl
  | cons c rest ih =>
      rw [List.map_cons, rowWords, List.map_cons, List.prod_cons, ← rowWords, ih,
        Regex.words_single]
      ext word
      rw [Language.mem_mul]
      constructor
      · intro h
        rcases h with ⟨left, hl, right, hr, rfl⟩
        obtain rfl : left = [c] := hl
        obtain rfl : right = rest := hr
        rfl
      · rintro ⟨⟩
        exact ⟨[c], rfl, rest, rfl, rfl⟩

theorem denotes_escape (text : String) : Denotes (escape text) {text.toList} :=
  ⟨_, by rw [escape, String.toList_ofList]; exact reads_escapeChars text.toList,
    rowWords_singles text.toList⟩

/-! ### Alternatives -/

section Alternatives

variable {patterns : List String} {languages : List (Language Char)}

/-- What follows the first alternative adds the languages of the others. -/
theorem run_laterAlternatives (h : List.Forall₂ Denotes patterns languages)
    (current : Regex.Alternatives) :
    ∃ after : Regex.Alternatives,
      (∀ outer, Progress.run ⟨.item, current, outer⟩
        (patterns.flatMap fun pattern => '|' :: pattern.toList) = some ⟨.item, after, outer⟩) ∧
      after.regex.words = current.regex.words + languages.sum := by
  induction h generalizing current with
  | nil => exact ⟨current, fun outer => rfl, by simp⟩
  | @cons pattern language patterns languages hp _ ih =>
      rcases hp with ⟨items, hread, rfl⟩
      obtain ⟨after, hrun, hwords⟩ := ih ⟨some current.regex, items.reverse⟩
      refine ⟨after, ?_, ?_⟩
      · intro outer
        have hbar : Progress.run ⟨.item, current, outer⟩ ['|'] =
            some ⟨.item, ⟨some current.regex, []⟩, outer⟩ := rfl
        rw [List.flatMap_cons, ← List.singleton_append, List.append_assoc, Progress.run_append,
          hbar, Option.bind_some, Progress.run_append, hread, Option.bind_some, ← hrun]
        simp
      · rw [hwords, Regex.words_regex ⟨some current.regex, items.reverse⟩, List.sum_cons,
          List.reverse_reverse, ← add_assoc]
        rfl

theorem toList_intercalate_bar (pattern : String) (patterns : List String) :
    (String.intercalate "|" (pattern :: patterns)).toList =
      pattern.toList ++ patterns.flatMap fun pattern => '|' :: pattern.toList := by
  induction patterns generalizing pattern with
  | nil => simp
  | cons next patterns ih => simp [String.intercalate_cons_cons, ih]

theorem run_alternatives (hne : patterns ≠ []) (h : List.Forall₂ Denotes patterns languages) :
    ∃ after : Regex.Alternatives,
      (∀ outer, Progress.run ⟨.item, .start, outer⟩ (String.intercalate "|" patterns).toList =
        some ⟨.item, after, outer⟩) ∧ after.regex.words = languages.sum := by
  rcases h with _ | ⟨hp, hrest⟩
  · exact absurd rfl hne
  rcases hp with ⟨items, hread, rfl⟩
  obtain ⟨after, hrun, hwords⟩ := run_laterAlternatives hrest ⟨none, items.reverse⟩
  refine ⟨after, ?_, ?_⟩
  · intro outer
    rw [toList_intercalate_bar, Progress.run_append, hread, Option.bind_some, ← hrun]
    simp [Regex.Alternatives.start]
  · rw [hwords, Regex.words_regex, List.sum_cons, List.reverse_reverse]
    simp

theorem denotes_group (hne : patterns ≠ []) (h : List.Forall₂ Denotes patterns languages) :
    Denotes (group (String.intercalate "|" patterns)) languages.sum := by
  obtain ⟨after, hrun, hwords⟩ := run_alternatives hne h
  refine ⟨[after.regex], ?_, ?_⟩
  · intro current outer
    have hopen : Progress.run ⟨.item, current, outer⟩ "(?:".toList =
        some ⟨.item, .start, current :: outer⟩ := rfl
    rw [group, String.toList_append, String.toList_append, List.append_assoc,
      Progress.run_append, hopen, Option.bind_some, Progress.run_append, hrun]
    rfl
  · rw [rowWords, List.map_singleton, List.prod_singleton, hwords]

/-- A pattern of several alternatives is read as an expression for their sum. -/
theorem ofPattern?_intercalate (hne : patterns ≠ [])
    (h : List.Forall₂ Denotes patterns languages) :
    ∃ regex, Regex.ofPattern? (String.intercalate "|" patterns).toList = some regex ∧
      regex.words = languages.sum := by
  obtain ⟨after, hrun, hwords⟩ := run_alternatives hne h
  refine ⟨after.regex, ?_, hwords⟩
  rw [Regex.ofPattern?, Progress.start, hrun, Option.bind_some]
  rfl

theorem ofPattern?_anyOf (hne : patterns ≠ []) (h : List.Forall₂ Denotes patterns languages) :
    ∃ regex, Regex.ofPattern? (anyOf patterns).toList = some regex ∧
      regex.words = languages.sum := by
  refine ofPattern?_intercalate (by simpa using hne) ?_
  rw [List.forall₂_map_left_iff]
  refine h.imp fun pattern language hp => ?_
  have hone := denotes_group (List.cons_ne_nil pattern []) (.cons hp .nil)
  simpa using hone

/-- A pattern without alternatives is read as an expression for its language. -/
theorem Denotes.ofPattern? {pattern : String} {language : Language Char}
    (h : Denotes pattern language) :
    ∃ regex, Regex.ofPattern? pattern.toList = some regex ∧ regex.words = language := by
  have hone := ofPattern?_intercalate (List.cons_ne_nil pattern []) (.cons h .nil)
  simpa using hone

end Alternatives

end LocaleTidy.Pattern
