import LocaleTidy.Glob.Match
import LocaleTidy.Proofs.Outcome

/-!
# Patterns that begin with a character

A pattern that begins with a character of its own, and not with a slash, is about paths that are
relative: it matches none that begins at the root directory.
-/

namespace LocaleTidy.Glob

variable {glob : Glob} {path : Path} {position : Nat} {step : Bool} {c : Char}
  {part : GlobPart} {read parts : List GlobPart} {text rest : List Char}

/-- Reading a pattern adds parts to those that are read already. -/
theorem prefix_of_partsFrom (h : partsFrom position step read text = .ok parts) :
    read.reverse <+: parts := by
  have hadd : ∀ {part read parts}, (part :: read : List GlobPart).reverse <+: parts →
      read.reverse <+: parts := fun h =>
    (List.reverse_prefix.mpr (List.suffix_cons _ _)).trans h
  fun_induction partsFrom position step read text with
  | case1 position step read =>
      cases h
      exact List.prefix_refl _
  | case2 | case3 | case6 | case9 => cases h
  | case4 position step read more hstep =>
      -- `**` adds no part after another one
      cases h
      dsimp only [more]
      split
      · exact List.prefix_refl _
      · exact hadd (List.prefix_refl _)
  | case5 position step read more _ after _ ih =>
      have hread := ih h
      dsimp only [more] at hread
      split at hread
      · exact hread
      · exact hadd hread
  | case7 position step read rest _ _ ih => exact hadd (ih h)
  | case8 position step read rest _ _ _ ih => exact hadd (ih h)
  | case10 position step read rest part after _ _ _ _ _ ih => exact hadd (ih h)
  | case11 position step read c rest _ _ _ _ _ ih => exact hadd (ih h)

theorem partsFrom_char (h : c ∉ ['*', '?', '[']) :
    partsFrom position step read (c :: rest) =
      partsFrom (position + 1) (c = '/') (.char c :: read) rest := by
  simp only [List.mem_cons, List.not_mem_nil, or_false, not_or] at h
  rw [partsFrom]
  · simp only [h, if_false]
  · simp [h]
  · simp [h]

/-- Whether a pattern begins with a character that stands for itself and is not a slash. -/
def isAnchored (text : String) : Bool :=
  text.toList.head?.any fun c => !(['*', '?', '[', '/'].contains c)

theorem parts_of_isAnchored {text : String} (h : isAnchored text = true)
    (hparse : parse text = .ok glob) : ∃ c parts, glob.parts = .char c :: parts ∧ c ≠ '/' := by
  obtain ⟨c, hc, hplain⟩ := (Option.any_eq_true _ _).mp h
  obtain ⟨rest, hrest⟩ : ∃ rest, text.toList = c :: rest := List.head?_eq_some_iff.mp hc
  have hchar : c ∉ ['*', '?', '['] ∧ c ≠ '/' := by simpa [and_assoc] using hplain
  rw [parse, bind_eq_ok] at hparse
  obtain ⟨parts, hparts, hglob⟩ := hparse
  cases hglob
  rw [hrest, partsFrom_char hchar.1] at hparts
  obtain ⟨more, hmore⟩ := prefix_of_partsFrom hparts
  exact ⟨c, more, hmore.symm, hchar.2⟩

theorem matchesPath_of_isAnchored {text : String} (h : isAnchored text = true)
    (hparse : parse text = .ok glob) (hpath : path.isAbsolute = true) :
    glob.matchesPath path = false := by
  obtain ⟨c, parts, hparts, hslash⟩ := parts_of_isAnchored h hparse
  rw [Path.isAbsolute, String.startsWith_string_iff] at hpath
  obtain ⟨rest, hrest⟩ := hpath
  rw [matchesPath_eq, hparts, ← hrest]
  simp [partsMatch, GlobPart.takes, Ne.symm hslash]

end LocaleTidy.Glob
