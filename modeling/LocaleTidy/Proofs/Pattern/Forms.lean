import LocaleTidy.Proofs.Pattern.Language

/-!
# What search patterns find

For each search pattern, the texts of which one has to stand in a source text for the pattern to
be found there.
-/

namespace LocaleTidy

def Shows (content text : String) : Prop :=
  text.toList <:+: content.toList

instance (content text : String) : Decidable (Shows content text) :=
  decidable_of_iff (Text.contains content text = true) (Text.occursIn_iff _ _)

def callForm (function : String) (opening : Char) (text : String) (closing : Char) : String :=
  function ++ "(" ++ opening.toString ++ text ++ closing.toString ++ ")"

/-- The marks of which the two around an argument need not be the same. -/
def quoteMarks : List Char := ['"', '\'']

/-- The calls of a function with a text between quote marks or between two backticks. -/
def callForms (function text : String) : List String :=
  (quoteMarks.flatMap fun opening =>
    quoteMarks.map fun closing => callForm function opening text closing) ++
  [callForm function '`' text '`']

def literalForm (mark : Char) (text : String) : String :=
  mark.toString ++ text ++ mark.toString

/-- The forms of a text as a literal or, between two different marks, as the argument of a
function. -/
def quotedForms (function text : String) : List String :=
  [ literalForm '"' text,
    literalForm '\'' text,
    literalForm '`' text,
    callForm function '"' text '\'',
    callForm function '\'' text '"' ]

namespace Pattern

open Regex (Reads rowWords)

variable {function text content : String} {word : List Char}

/-! ## Pieces -/

theorem mem_singleton_language {other : List Char} :
    word ∈ ({other} : Language Char) ↔ word = other := Iff.rfl

def oneOf (marks : List Char) : Language Char :=
  {word | ∃ mark ∈ marks, word = [mark]}

theorem mem_oneOf {marks : List Char} :
    word ∈ oneOf marks ↔ ∃ mark ∈ marks, word = [mark] := Iff.rfl

theorem words_oneOf (marks : List Char) :
    (Regex.one (marks.map fun mark => (mark, mark))).words = oneOf marks := by
  ext word
  have hhas : ∀ c, CharClass.has (marks.map fun mark => (mark, mark)) c = true ↔ c ∈ marks := by
    intro c
    simp only [CharClass.has, List.any_map, List.any_eq_true, Function.comp_apply,
      Bool.and_eq_true, decide_eq_true_eq]
    constructor
    · intro h
      rcases h with ⟨mark, hm, hle, hge⟩
      rwa [Char.le_antisymm hge hle]
    · exact fun hc => ⟨c, hc, Char.le_refl c, Char.le_refl c⟩
  simp only [Regex.mem_words_one, hhas, mem_oneOf]

theorem denotes_text {pattern : String} (text : List Char)
    (h : Reads pattern.toList (text.map fun c => .one (.single c))) : Denotes pattern {text} :=
  ⟨_, h, rowWords_singles text⟩

theorem denotes_oneOf {pattern : String} (marks : List Char)
    (h : Reads pattern.toList [.one (marks.map fun mark => (mark, mark))]) :
    Denotes pattern (oneOf marks) :=
  ⟨_, h, by rw [rowWords, List.map_singleton, List.prod_singleton, words_oneOf]⟩

/-! ## Calls -/

def callWords (marks : List Char) (functions : Language Char) (text : String) : Language Char :=
  functions * {['(']} * oneOf marks * {text.toList} * oneOf marks * {[')']}

theorem mem_callWords {marks : List Char} {functions : Language Char} :
    word ∈ callWords marks functions text ↔
      ∃ name : String, name.toList ∈ functions ∧ ∃ opening ∈ marks, ∃ closing ∈ marks,
        word = (callForm name opening text closing).toList := by
  simp only [callWords, Language.mem_mul, mem_singleton_language, mem_oneOf]
  constructor
  · rintro ⟨_, ⟨_, ⟨_, ⟨_, ⟨name, hn, _, rfl, rfl⟩, _, ⟨opening, ho, rfl⟩, rfl⟩, _, rfl, rfl⟩, _,
      ⟨closing, hc, rfl⟩, rfl⟩, _, rfl, rfl⟩
    exact ⟨String.ofList name, by simpa using hn, opening, ho, closing, hc, by simp [callForm]⟩
  · intro h
    rcases h with ⟨name, hn, opening, ho, closing, hc, rfl⟩
    exact ⟨_, ⟨_, ⟨_, ⟨_, ⟨name.toList, hn, _, rfl, rfl⟩, _, ⟨opening, ho, rfl⟩, rfl⟩, _, rfl, rfl⟩,
      _, ⟨closing, hc, rfl⟩, rfl⟩, _, rfl, by simp [callForm]⟩

theorem mem_callWords_singleton {marks : List Char} :
    word ∈ callWords marks {function.toList} text ↔
      ∃ opening ∈ marks, ∃ closing ∈ marks,
        word = (callForm function opening text closing).toList := by
  simp [mem_callWords, mem_singleton_language, String.toList_inj]

theorem mem_callForms {form : String} :
    form ∈ callForms function text ↔
      (∃ opening ∈ quoteMarks, ∃ closing ∈ quoteMarks,
        form = callForm function opening text closing) ∨ form = callForm function '`' text '`' := by
  simp [callForms, eq_comm]

theorem denotes_quotedCall (function text : String) :
    Denotes (quotedCall function text) (callWords quoteMarks {function.toList} text) := by
  have hmarks : Denotes "[\"']" (oneOf quoteMarks) := denotes_oneOf _ fun _ _ => rfl
  have hopen : Denotes "\\([\"']" ({['(']} * oneOf quoteMarks) :=
    Denotes.append (show Denotes "\\(" _ from denotes_text ['('] fun _ _ => rfl) hmarks
  have hclose : Denotes "[\"']\\)" (oneOf quoteMarks * {[')']}) :=
    hmarks.append (show Denotes "\\)" _ from denotes_text [')'] fun _ _ => rfl)
  have h := (((denotes_escape function).append hopen).append (denotes_escape text)).append hclose
  rwa [← mul_assoc, ← mul_assoc] at h

/-- The languages of the patterns that look for calls. -/
def callLanguages (function text : String) : List (Language Char) :=
  [ callWords quoteMarks {function.toList} text,
    {function.toList} * {['(', '`']} * {text.toList} * {['`', ')']},
    {['{']} * callWords quoteMarks {function.toList} text * {['}']},
    {['=', '{']} * callWords quoteMarks {function.toList} text * {['}']} ]

theorem denotes_calls (function text : String) :
    List.Forall₂ Denotes (calls function text) (callLanguages function text) := by
  have hcall := denotes_quotedCall function text
  refine .cons hcall (.cons ?_ (.cons ?_ (.cons ?_ .nil)))
  · exact (((denotes_escape function).append
      (denotes_text ['(', '`'] fun _ _ => rfl)).append (denotes_escape text)).append
        (denotes_text ['`', ')'] fun _ _ => rfl)
  · exact ((denotes_text ['{'] fun _ _ => rfl).append hcall).append
      (denotes_text ['}'] fun _ _ => rfl)
  · exact ((denotes_text ['=', '{'] fun _ _ => rfl).append hcall).append
      (denotes_text ['}'] fun _ _ => rfl)

/-! ## Texts in which the patterns are found -/

theorem exists_mem_sum {languages : List (Language Char)} :
    word ∈ languages.sum ↔ ∃ language ∈ languages, word ∈ language := by
  induction languages with
  | nil => simp [Language.notMem_zero]
  | cons language languages ih => simp [List.sum_cons, Language.mem_add, ih]

/-- A word of a call pattern is found exactly where a call form stands. -/
theorem exists_mem_callLanguages_iff :
    (∃ word ∈ (callLanguages function text).sum, word <:+: content.toList) ↔
      ∃ form ∈ callForms function text, Shows content form := by
  have hquoted : ∀ word ∈ callWords quoteMarks {function.toList} text,
      ∃ form ∈ callForms function text, form.toList = word := by
    intro word hw
    obtain ⟨opening, ho, closing, hc, rfl⟩ := mem_callWords_singleton.mp hw
    exact ⟨_, mem_callForms.mpr (.inl ⟨opening, ho, closing, hc, rfl⟩), rfl⟩
  constructor
  · intro h
    rcases h with ⟨word, hw, hin⟩
    obtain ⟨language, hl, hw⟩ := exists_mem_sum.mp hw
    simp only [callLanguages, List.mem_cons, List.not_mem_nil, or_false] at hl
    rcases hl with rfl | rfl | rfl | rfl
    · obtain ⟨form, hf, rfl⟩ := hquoted word hw
      exact ⟨form, hf, hin⟩
    · rcases hw with ⟨_, ⟨_, ⟨_, rfl, _, rfl, rfl⟩, _, rfl, rfl⟩, _, rfl, rfl⟩
      exact ⟨_, mem_callForms.mpr (.inr rfl), by simpa [Shows, callForm] using hin⟩
    -- The braces around a call only make a match longer.
    all_goals
      rcases hw with ⟨_, ⟨before, -, inner, hi, rfl⟩, after, -, rfl⟩
      obtain ⟨form, hf, rfl⟩ := hquoted inner hi
      have hform : form.toList <:+: before ++ form.toList ++ after := ⟨before, after, rfl⟩
      exact ⟨form, hf, hform.trans hin⟩
  · intro h
    rcases h with ⟨form, hf, hin⟩
    refine ⟨form.toList, exists_mem_sum.mpr ?_, hin⟩
    obtain ⟨opening, ho, closing, hc, rfl⟩ | rfl := mem_callForms.mp hf
    · exact ⟨callWords quoteMarks {function.toList} text, .head _,
        mem_callWords_singleton.mpr ⟨opening, ho, closing, hc, rfl⟩⟩
    · exact ⟨{function.toList} * {['(', '`']} * {text.toList} * {['`', ')']}, .tail _ (.head _),
        _, ⟨_, ⟨_, rfl, _, rfl, rfl⟩, _, rfl, rfl⟩, _, rfl, by simp [callForm]⟩

theorem shows_literalForm {mark : Char} (h : Shows content (callForm function mark text mark)) :
    Shows content (literalForm mark text) := by
  have hinner : (literalForm mark text).toList <:+: (callForm function mark text mark).toList :=
    ⟨(function ++ "(").toList, [')'], by simp [callForm, literalForm]⟩
  exact hinner.trans h

def literalWords (mark : Char) (text : String) : Language Char :=
  {[mark]} * {text.toList} * {[mark]}

theorem mem_literalWords {mark : Char} :
    word ∈ literalWords mark text ↔ word = (literalForm mark text).toList := by
  constructor
  · intro h
    rcases h with ⟨_, ⟨_, rfl, _, rfl, rfl⟩, _, rfl, rfl⟩
    simp [literalForm]
  · rintro rfl
    exact ⟨_, ⟨_, rfl, _, rfl, rfl⟩, _, rfl, by simp [literalForm]⟩

/-- The languages of the patterns that look for references. -/
def referenceLanguages (function text : String) : List (Language Char) :=
  [literalWords '"' text, literalWords '\'' text, literalWords '`' text] ++
    callLanguages function text

theorem denotes_references (function text : String) :
    List.Forall₂ Denotes (references function text) (referenceLanguages function text) := by
  have hmark : ∀ {pattern : String} (mark : Char),
      Reads pattern.toList [.one (.single mark)] →
        Denotes (pattern ++ escape text ++ pattern) (literalWords mark text) :=
    fun mark hread => ((denotes_text [mark] hread).append (denotes_escape text)).append
      (denotes_text [mark] hread)
  exact .cons (hmark '"' fun _ _ => rfl) (.cons (hmark '\'' fun _ _ => rfl)
    (.cons (hmark '`' fun _ _ => rfl) (denotes_calls function text)))

/-- A word of a reference pattern is found exactly where a quoted form stands: a call between two
equal marks holds a literal. -/
theorem exists_mem_referenceLanguages_iff :
    (∃ word ∈ (referenceLanguages function text).sum, word <:+: content.toList) ↔
      ∃ form ∈ quotedForms function text, Shows content form := by
  have hliteral : ∀ mark ∈ ['"', '\'', '`'], literalForm mark text ∈ quotedForms function text := by
    simp [quotedForms]
  constructor
  · intro h
    rcases h with ⟨word, hw, hin⟩
    obtain ⟨language, hl, hw⟩ := exists_mem_sum.mp hw
    obtain hl | hl := List.mem_append.mp hl
    · simp only [List.mem_cons, List.not_mem_nil, or_false] at hl
      rcases hl with rfl | rfl | rfl <;> obtain rfl := mem_literalWords.mp hw
      · exact ⟨_, hliteral '"' (by simp), hin⟩
      · exact ⟨_, hliteral '\'' (by simp), hin⟩
      · exact ⟨_, hliteral '`' (by simp), hin⟩
    · obtain ⟨form, hf, hshow⟩ := exists_mem_callLanguages_iff.mp
        ⟨word, exists_mem_sum.mpr ⟨language, hl, hw⟩, hin⟩
      obtain ⟨opening, ho, closing, hc, rfl⟩ | rfl := mem_callForms.mp hf
      · simp only [quoteMarks, List.mem_cons, List.not_mem_nil, or_false] at ho hc
        rcases ho with rfl | rfl <;> rcases hc with rfl | rfl
        · exact ⟨_, hliteral '"' (by simp), shows_literalForm hshow⟩
        · exact ⟨_, by simp [quotedForms], hshow⟩
        · exact ⟨_, by simp [quotedForms], hshow⟩
        · exact ⟨_, hliteral '\'' (by simp), shows_literalForm hshow⟩
      · exact ⟨_, hliteral '`' (by simp), shows_literalForm hshow⟩
  · intro h
    rcases h with ⟨form, hf, hshow⟩
    refine ⟨form.toList, exists_mem_sum.mpr ?_, hshow⟩
    have hcall : ∀ opening ∈ quoteMarks, ∀ closing ∈ quoteMarks,
        (callForm function opening text closing).toList ∈
          callWords quoteMarks {function.toList} text :=
      fun opening ho closing hc =>
        mem_callWords_singleton.mpr ⟨opening, ho, closing, hc, rfl⟩
    have hlanguage : callWords quoteMarks {function.toList} text ∈
        referenceLanguages function text := by
      simp [referenceLanguages, callLanguages]
    simp only [quotedForms, List.mem_cons, List.not_mem_nil, or_false] at hf
    rcases hf with rfl | rfl | rfl | rfl | rfl
    · exact ⟨_, by simp [referenceLanguages], mem_literalWords.mpr rfl⟩
    · exact ⟨_, by simp [referenceLanguages], mem_literalWords.mpr rfl⟩
    · exact ⟨_, by simp [referenceLanguages], mem_literalWords.mpr rfl⟩
    · exact ⟨_, hlanguage, hcall '"' (by decide) '\'' (by decide)⟩
    · exact ⟨_, hlanguage, hcall '\'' (by decide) '"' (by decide)⟩

/-! ## Declarations -/

def spaceMarks : List Char := ['\'', '"', '`']

theorem denotes_declaration {functions : List String} (hne : functions ≠ []) (space : String) :
    Denotes (declaration functions space)
      (callWords spaceMarks (functions.map fun name => {name.toList}).sum space) := by
  have hnames : Denotes (group (String.intercalate "|" (functions.map escape)))
      (functions.map fun name => {name.toList}).sum := by
    refine denotes_group (by simpa using hne) ?_
    rw [List.forall₂_map_left_iff, List.forall₂_map_right_iff, List.forall₂_same]
    exact fun name _ => denotes_escape name
  have hmarks : Denotes "['\"`]" (oneOf spaceMarks) := denotes_oneOf _ fun _ _ => rfl
  have hopen : Denotes "\\(['\"`]" ({['(']} * oneOf spaceMarks) :=
    Denotes.append (show Denotes "\\(" _ from denotes_text ['('] fun _ _ => rfl) hmarks
  have hclose : Denotes "['\"`]\\)" (oneOf spaceMarks * {[')']}) :=
    hmarks.append (show Denotes "\\)" _ from denotes_text [')'] fun _ _ => rfl)
  have h := ((hnames.append hopen).append (denotes_escape space)).append hclose
  rwa [← mul_assoc, ← mul_assoc] at h

theorem exists_mem_declaration_iff {functions : List String} {space : String} :
    (∃ word ∈ callWords spaceMarks (functions.map fun name => {name.toList}).sum space,
      word <:+: content.toList) ↔
      ∃ name ∈ functions, ∃ opening ∈ spaceMarks, ∃ closing ∈ spaceMarks,
        Shows content (callForm name opening space closing) := by
  have hname : ∀ name : String, name.toList ∈
      (functions.map fun name => ({name.toList} : Language Char)).sum ↔ name ∈ functions := by
    intro name
    simp [exists_mem_sum, mem_singleton_language, String.toList_inj]
  constructor
  · intro h
    rcases h with ⟨word, hw, hin⟩
    obtain ⟨name, hn, opening, ho, closing, hc, rfl⟩ := mem_callWords.mp hw
    exact ⟨name, (hname name).mp hn, opening, ho, closing, hc, hin⟩
  · intro h
    rcases h with ⟨name, hn, opening, ho, closing, hc, hshow⟩
    exact ⟨_, mem_callWords.mpr ⟨name, (hname name).mpr hn, opening, ho, closing, hc, rfl⟩, hshow⟩

end Pattern

end LocaleTidy
