import LocaleTidy.Pattern.Compile
import LocaleTidy.Proofs.Pattern.Forms

/-!
# Where compiled patterns are found

A pattern that is put together from escaped pieces is never malformed: its size alone can keep it
from compiling. Once it compiles, it is found exactly where one of the forms stands that it was made
for, whatever characters a key, a namespace or the name of a function has.
-/

namespace LocaleTidy.Pattern

variable {pattern : String} {language : Language Char} {Good : Regex → Prop} {limit : Nat}
  {regex : Regex}

/-- A pattern compiles to expressions with a property. It does so for every limit that is high
enough, and otherwise it is refused for its size. -/
structure CompilesTo (pattern : String) (Good : Regex → Prop) : Prop where
  exists_bound : ∃ bound, ∀ limit, bound ≤ limit → ∃ regex, compile limit pattern = .ok regex
  tooLarge : ∀ limit fault, compile limit pattern = .error fault → fault = .tooLarge limit
  good : ∀ limit regex, compile limit pattern = .ok regex → Good regex

/-- A pattern that is read compiles unless it is too large, and to nothing but what it is read
as. -/
theorem compile_of_read (hread : Regex.ofPattern? pattern.toList = some regex) (limit : Nat) :
    compile limit pattern = if regex.automatonBytes ≤ limit || regex.isDirect then .ok regex
      else .error (.tooLarge limit) := by
  rw [compile, hread]

theorem compilesTo_of_words
    (hread : ∃ regex, Regex.ofPattern? pattern.toList = some regex ∧ regex.words = language)
    (hgood : ∀ regex : Regex, regex.words = language → Good regex) : CompilesTo pattern Good := by
  obtain ⟨read, hread, hwords⟩ := hread
  have hcompile := compile_of_read hread
  refine ⟨⟨read.automatonBytes, fun limit hlimit => ⟨read, ?_⟩⟩, fun limit fault hfault => ?_,
    fun limit regex hregex => ?_⟩
  · rw [hcompile, if_pos (by simp [hlimit])]
  · rw [hcompile] at hfault
    split at hfault
    · cases hfault
    · exact (Except.error.inj hfault).symm
  · rw [hcompile] at hregex
    split at hregex
    · obtain rfl := Except.ok.inj hregex
      exact hgood read hwords
    · cases hregex

/-- Wherever a pattern compiles, it is found exactly in the contents with a property. -/
def FoundWhere (pattern : String) (Holds : String → Prop) : Prop :=
  CompilesTo pattern fun regex => ∀ content, regex.foundIn content = true ↔ Holds content

theorem foundWhere_of_words {Holds : String → Prop}
    (hread : ∃ regex, Regex.ofPattern? pattern.toList = some regex ∧ regex.words = language)
    (hshow : ∀ content : String,
      (∃ word ∈ language, word <:+: content.toList) ↔ Holds content) :
    FoundWhere pattern Holds :=
  compilesTo_of_words hread fun _ hwords content => by
    rw [Regex.foundIn_iff, hwords, hshow]

/-! ## The patterns of keys and namespaces -/

theorem foundWhere_references (function key : String) :
    FoundWhere (anyOf (references function key)) fun content =>
      ∃ form ∈ quotedForms function key, Shows content form :=
  foundWhere_of_words (ofPattern?_anyOf (List.cons_ne_nil _ _) (denotes_references function key))
    fun _ => exists_mem_referenceLanguages_iff

theorem foundWhere_calls (function key : String) :
    FoundWhere (anyOf (calls function key)) fun content =>
      ∃ form ∈ callForms function key, Shows content form :=
  foundWhere_of_words (ofPattern?_anyOf (List.cons_ne_nil _ _) (denotes_calls function key))
    fun _ => exists_mem_callLanguages_iff

theorem foundWhere_declaration {functions : List String} (hne : functions ≠ []) (space : String) :
    FoundWhere (declaration functions space) fun content =>
      ∃ name ∈ functions, ∃ opening ∈ spaceMarks, ∃ closing ∈ spaceMarks,
        Shows content (callForm name opening space closing) :=
  foundWhere_of_words (denotes_declaration hne space).ofPattern? fun _ =>
    exists_mem_declaration_iff

/-- The patterns are found exactly where the quoted forms of a key stand, its calls, or the calls
that bind a namespace, and nothing in a key, a namespace or the name of a function is read as
notation. -/
theorem found_where_forms_stand (function key space : String) {functions : List String}
    (hne : functions ≠ []) :
    FoundWhere (anyOf (references function key)) (fun content =>
        ∃ form ∈ quotedForms function key, Shows content form) ∧
      FoundWhere (anyOf (calls function key)) (fun content =>
        ∃ form ∈ callForms function key, Shows content form) ∧
      FoundWhere (declaration functions space) fun content =>
        ∃ name ∈ functions, ∃ opening ∈ spaceMarks, ∃ closing ∈ spaceMarks,
          Shows content (callForm name opening space closing) :=
  ⟨foundWhere_references function key, foundWhere_calls function key,
    foundWhere_declaration hne space⟩

/-- Characters of the notation in a namespace and in the names of functions stand for themselves. -/
theorem found_where_notation_stands :
    ∃ regex, compile defaultLimit (declaration ["a|b", "("] ".*") = .ok regex ∧
      regex.foundIn "f(('.*\")" = true ∧ regex.foundIn "a('.*')" = false := by
  have hne : ["a|b", "("] ≠ [] := List.cons_ne_nil _ _
  obtain ⟨-, -, hfound⟩ := found_where_forms_stand "t" "k" ".*" hne
  have hok : (compile defaultLimit (declaration ["a|b", "("] ".*")).isOk = true := by
    decide +kernel
  have hshown : Shows "f(('.*\")" (callForm "(" '\'' ".*" '"') := by decide
  have habsent : (["a|b", "("].all fun name => spaceMarks.all fun opening =>
      spaceMarks.all fun closing =>
        !decide (Shows "a('.*')" (callForm name opening ".*" closing))) = true := by
    decide +kernel
  simp only [List.all_eq_true, Bool.not_eq_true', decide_eq_false_iff_not] at habsent
  cases hcompile : compile defaultLimit (declaration ["a|b", "("] ".*") with
  | error fault => simp [hcompile, Except.isOk, Except.toBool] at hok
  | ok regex =>
      have hregex := hfound.good _ _ hcompile
      refine ⟨regex, rfl, (hregex _).mpr ⟨"(", by simp, '\'', by simp [spaceMarks], '"',
        by simp [spaceMarks], hshown⟩, ?_⟩
      rw [← Bool.not_eq_true, hregex]
      rintro ⟨name, hname, opening, hopening, closing, hclosing, hstands⟩
      exact habsent name hname opening hopening closing hclosing hstands

/-- Without functions the pattern does not ask for one. -/
theorem declaration_found_without_name :
    ¬ ∀ (functions : List String) (space : String),
      FoundWhere (declaration functions space) fun content =>
        ∃ name ∈ functions, ∃ opening ∈ spaceMarks, ∃ closing ∈ spaceMarks,
          Shows content (callForm name opening space closing) := by
  intro hall
  have hfound : (compile defaultLimit (declaration [] "a")).toOption.any
      (·.foundIn "('a')") = true := by
    decide +kernel
  cases hcompile : compile defaultLimit (declaration [] "a") with
  | error fault => rw [hcompile] at hfound; cases hfound
  | ok regex =>
    rw [hcompile] at hfound
    obtain ⟨name, hname, -⟩ := ((hall [] "a").good _ _ hcompile "('a')").mp hfound
    cases hname

end LocaleTidy.Pattern
