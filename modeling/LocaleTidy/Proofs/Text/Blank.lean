import Mathlib.Data.List.DropRight
import LocaleTidy.Text.Blank

/-!
# Trimmed texts

White space is told by its code points, and a trimmed text by what stands around it.
-/

namespace LocaleTidy.Text

/-- The code points with the Unicode property `White_Space`. -/
def blanks : List Nat :=
  [0x0009, 0x000a, 0x000b, 0x000c, 0x000d, 0x0020, 0x0085, 0x00a0, 0x1680, 0x2000, 0x2001, 0x2002,
    0x2003, 0x2004, 0x2005, 0x2006, 0x2007, 0x2008, 0x2009, 0x200a, 0x2028, 0x2029, 0x202f, 0x205f,
    0x3000]

theorem isBlank_iff (c : Char) : isBlank c = true ↔ c.toNat ∈ blanks := by
  simp only [isBlank, blanks, Bool.or_eq_true, Bool.and_eq_true, decide_eq_true_eq, beq_iff_eq,
    List.mem_cons, List.not_mem_nil, or_false]
  omega

/-- A word is what remains of a text without the white space at its two ends. -/
structure Trims (text word : List Char) : Prop where
  around : ∃ front back, text = front ++ word ++ back ∧ ∀ c ∈ front ++ back, c.toNat ∈ blanks
  head : ∀ c ∈ word.head?, c.toNat ∉ blanks
  last : ∀ c ∈ word.getLast?, c.toNat ∉ blanks

variable {text word : List Char}

theorem dropWhile_append_eq {p : Char → Bool} {front rest : List Char}
    (hfront : ∀ c ∈ front, p c = true) (hrest : ∀ c ∈ rest.head?, p c = false) :
    (front ++ rest).dropWhile p = rest := by
  rw [List.dropWhile_append_of_pos hfront]
  cases rest with
  | nil => rfl
  | cons c rest => rw [List.dropWhile_cons_of_neg (by simp [hrest c rfl])]

theorem isBlank_eq_false_iff (c : Char) : isBlank c = false ↔ c.toNat ∉ blanks := by
  rw [← isBlank_iff, Bool.not_eq_true]

theorem Trims.trim_eq (h : Trims text word) : trim text = word := by
  obtain ⟨front, back, rfl, hblank⟩ := h.around
  have hfront : ∀ c ∈ front, isBlank c = true := fun c hc =>
    (isBlank_iff c).mpr (hblank c (List.mem_append_left _ hc))
  have hback : ∀ c ∈ back, isBlank c = true := fun c hc =>
    (isBlank_iff c).mpr (hblank c (List.mem_append_right _ hc))
  by_cases hword : word = []
  · subst hword
    have hnone : (front ++ [] ++ back).dropWhile isBlank = [] := by
      rw [List.append_assoc, List.dropWhile_append_of_pos hfront, List.nil_append,
        List.dropWhile_eq_nil_iff.mpr hback]
    rw [trim, hnone]
    rfl
  have hleft : (front ++ (word ++ back)).dropWhile isBlank = word ++ back := by
    apply dropWhile_append_eq hfront
    intro c hc
    rw [List.head?_append_of_ne_nil _ hword] at hc
    exact (isBlank_eq_false_iff c).mpr (h.head c hc)
  have hright : (back.reverse ++ word.reverse).dropWhile isBlank = word.reverse := by
    apply dropWhile_append_eq (by simpa using hback)
    intro c hc
    rw [List.head?_reverse] at hc
    exact (isBlank_eq_false_iff c).mpr (h.last c hc)
  rw [trim, List.append_assoc, hleft, List.reverse_append, hright, List.reverse_reverse]

theorem trims_trim (text : List Char) : Trims text (trim text) := by
  have hleft := List.takeWhile_append_dropWhile (p := isBlank) (l := text)
  have hright : trim text ++ (text.dropWhile isBlank).rtakeWhile isBlank =
      text.dropWhile isBlank := List.rdropWhile_append_rtakeWhile
  refine ⟨⟨text.takeWhile isBlank, (text.dropWhile isBlank).rtakeWhile isBlank, ?_, ?_⟩, ?_, ?_⟩
  · rw [List.append_assoc, hright, hleft]
  · intro c hc
    rw [← isBlank_iff]
    rcases List.mem_append.mp hc with hc | hc
    · exact List.mem_takeWhile_imp hc
    · exact List.mem_rtakeWhile_imp hc
  · intro c hc
    have hnot := List.head?_dropWhile_not isBlank text
    rw [← hright, List.head?_append, Option.mem_def.mp hc] at hnot
    exact (isBlank_eq_false_iff c).mp (by simpa using hnot)
  · intro c hc
    have hnot := List.head?_dropWhile_not isBlank (text.dropWhile isBlank).reverse
    rw [trim, List.getLast?_reverse] at hc
    rw [Option.mem_def.mp hc] at hnot
    exact (isBlank_eq_false_iff c).mp (by simpa using hnot)

/-- Trimming a text takes the white space off its two ends and nothing else. -/
theorem trim_eq_iff : trim text = word ↔ Trims text word :=
  ⟨fun h => h ▸ trims_trim text, Trims.trim_eq⟩

end LocaleTidy.Text
