import LocaleTidy.Text.Pieces

/-!
# Pieces of a text

A text is put together again from its pieces, and texts without the separator are found again in
the text that is put together from them.
-/

namespace LocaleTidy.Text

theorem pieces_eq_splitOn (sep : Char) (text : List Char) :
    pieces sep text = text.splitOn sep := by
  induction text with
  | nil => simp [pieces]
  | cons c rest ih =>
      rw [List.splitOn_cons_eq_if_modifyHead, ← ih, pieces]
      by_cases h : c = sep
      · simp [h]
      · simp only [h, if_false, beq_iff_eq]
        cases hp : pieces sep rest with
        | nil => exact absurd hp (pieces_ne_nil sep rest)
        | cons piece more => rfl

theorem pieces_append (sep : Char) (left right : List Char) :
    pieces sep (left ++ sep :: right) = pieces sep left ++ pieces sep right := by
  simp only [pieces_eq_splitOn, List.splitOn_append_cons_self]

theorem pieces_eq_singleton {sep : Char} {text : List Char} (h : sep ∉ text) :
    pieces sep text = [text] := by
  rw [pieces_eq_splitOn, List.splitOn_eq_singleton h]

theorem length_pieces (sep : Char) (text : List Char) :
    (pieces sep text).length = text.count sep + 1 := by
  induction text with
  | nil => rfl
  | cons c rest ih =>
      by_cases h : c = sep
      · simp [pieces, h, ih]
      · cases hp : pieces sep rest with
        | nil => exact absurd hp (pieces_ne_nil sep rest)
        | cons piece more => simpa [pieces, h, hp] using ih

theorem notMem_of_mem_split {sep : Char} {text piece : String} (h : piece ∈ split sep text) :
    sep ∉ piece.toList := by
  have hpieces : ∀ text : List Char, ∀ piece ∈ pieces sep text, sep ∉ piece := by
    intro text
    induction text with
    | nil => simp [pieces]
    | cons c rest ih =>
        unfold pieces
        split
        · simpa using ih
        · rename_i hc
          cases hp : pieces sep rest with
          | nil => simpa using Ne.symm hc
          | cons piece more =>
              rw [hp] at ih
              simp only [List.mem_cons, forall_eq_or_imp] at ih ⊢
              exact ⟨by simpa using ⟨Ne.symm hc, ih.1⟩, ih.2⟩
  obtain ⟨piece, hp, rfl⟩ := List.mem_map.mp h
  simpa using hpieces text.toList piece hp

theorem mem_iff_exists_pieces {sep c : Char} (h : c ≠ sep) (text : List Char) :
    c ∈ text ↔ ∃ piece ∈ pieces sep text, c ∈ piece := by
  induction text with
  | nil => simp [pieces]
  | cons d rest ih =>
      unfold pieces
      by_cases hd : d = sep
      · simp [hd, h, ih]
      · cases hp : pieces sep rest with
        | nil => exact (pieces_ne_nil sep rest hp).elim
        | cons piece more => simp [hd, ih, hp, or_assoc]

/-- A character other than the separator is in one of the pieces of a text. -/
theorem mem_iff_exists_split {sep c : Char} (h : c ≠ sep) (text : String) :
    c ∈ text.toList ↔ ∃ piece ∈ split sep text, c ∈ piece.toList := by
  rw [mem_iff_exists_pieces h, split]
  constructor
  · intro hx
    obtain ⟨piece, hpiece, hmem⟩ := hx
    exact ⟨String.ofList piece, List.mem_map_of_mem hpiece, by simpa using hmem⟩
  · intro hx
    obtain ⟨_, hmap, hmem⟩ := hx
    obtain ⟨piece, hpiece, rfl⟩ := List.mem_map.mp hmap
    exact ⟨piece, hpiece, by simpa using hmem⟩

theorem intercalate_split (sep : Char) (text : String) :
    (String.ofList [sep]).intercalate (split sep text) = text := by
  apply String.ext
  have hpieces : ((split sep text).map String.toList) = text.toList.splitOn sep := by
    simp [split, pieces_eq_splitOn, Function.comp_def]
  rw [String.toList_intercalate, hpieces]
  simp [List.intercalate_splitOn]

theorem split_intercalate {sep : Char} {texts : List String} (hne : texts ≠ [])
    (h : ∀ text ∈ texts, sep ∉ text.toList) :
    split sep ((String.ofList [sep]).intercalate texts) = texts := by
  rw [split, String.toList_intercalate, pieces_eq_splitOn, String.toList_ofList,
    List.splitOn_intercalate sep (by simpa using h) (by simpa using hne)]
  simp

end LocaleTidy.Text
