import LocaleTidy.Proofs.Key.Segments

/-!
# Parts of keys

What the parts of a key are as texts: the ends after a dot, the namespace before the last dot,
and what follows a first segment.
-/

namespace LocaleTidy.Key

/-! ## Segments -/

theorem segments_append (front back : String) :
    segments (front ++ "." ++ back) = segments front ++ segments back := by
  have htext : (front ++ "." ++ back).toList = front.toList ++ '.' :: back.toList := by simp
  simp only [segments, Text.split, htext, Text.pieces_append, List.map_append]

theorem segments_of_no_dot {text : String} (h : '.' ∉ text.toList) : segments text = [text] := by
  simp [segments, Text.split, Text.pieces_eq_singleton h]

theorem no_dot_of_mem_segments {key segment : String} (h : segment ∈ segments key) :
    '.' ∉ segment.toList :=
  Text.notMem_of_mem_split h

theorem ofSegments_cons {first : String} {rest : List String} (h : rest ≠ []) :
    ofSegments (first :: rest) = first ++ "." ++ ofSegments rest := by
  obtain ⟨next, more, rfl⟩ := List.exists_cons_of_ne_nil h
  exact String.intercalate_cons_cons

theorem ofSegments_append {front back : List String} (hf : front ≠ []) (hb : back ≠ []) :
    ofSegments (front ++ back) = ofSegments front ++ "." ++ ofSegments back := by
  induction front with
  | nil => exact absurd rfl hf
  | cons first rest ih =>
      cases rest with
      | nil => simpa [ofSegments] using ofSegments_cons hb
      | cons next rest =>
          have hlong : ofSegments (first :: (next :: rest ++ back)) =
              first ++ "." ++ ofSegments (next :: rest ++ back) := ofSegments_cons (by simp)
          rw [List.cons_append, hlong, ih (by simp), ofSegments_cons (List.cons_ne_nil next rest)]
          simp only [String.append_assoc]

/-! ## Ends -/

theorem mem_ends {α : Type} {back list : List α} :
    back ∈ ends list ↔ back ≠ [] ∧ back <:+ list := by
  induction list with
  | nil => simp [ends]
  | cons x rest ih =>
      rw [ends, List.mem_cons, ih, List.suffix_cons_iff]
      constructor
      · intro h
        rcases h with rfl | ⟨hne, hs⟩
        · exact ⟨by simp, .inl rfl⟩
        · exact ⟨hne, .inr hs⟩
      · intro h
        rcases h with ⟨hne, rfl | hs⟩
        · exact .inl rfl
        · exact .inr ⟨hne, hs⟩

theorem ends_concat {α : Type} (front : List α) (last : α) :
    ends (front ++ [last]) = (ends front).map (fun back => back ++ [last]) ++ [[last]] := by
  induction front with
  | nil => rfl
  | cons x rest ih => simp [ends, ih]

/-- The variations after the key itself: the last segment comes last, after longer ends. -/
theorem drop_variations {key first last : String} {interior : List String}
    (h : segments key = first :: (interior ++ [last])) :
    (variations key).drop 1 =
      (ends interior).map (fun back => ofSegments (back ++ [last])) ++ [last] := by
  simp [variations, h, ends, ends_concat, ofSegments]

/-- The variations after the key itself are the texts after one of its dots. -/
theorem mem_drop_variations {key text : String} :
    text ∈ (variations key).drop 1 ↔ ∃ front, key = front ++ "." ++ text := by
  obtain ⟨first, rest, hsegments⟩ := List.exists_cons_of_ne_nil (segments_ne_nil key)
  have hdrop : (variations key).drop 1 = (ends rest).map ofSegments := by
    simp [variations, hsegments, ends]
  rw [hdrop, List.mem_map]
  constructor
  · intro h
    rcases h with ⟨back, hb, rfl⟩
    obtain ⟨hne, front, rfl⟩ := mem_ends.mp hb
    refine ⟨ofSegments (first :: front), ?_⟩
    rw [← ofSegments_append (by simp) hne, List.cons_append, ← hsegments, ofSegments_segments]
  · intro h
    rcases h with ⟨front, rfl⟩
    rw [segments_append] at hsegments
    obtain ⟨before, more, hf⟩ := List.exists_cons_of_ne_nil (segments_ne_nil front)
    rw [hf, List.cons_append] at hsegments
    obtain ⟨-, rfl⟩ := List.cons.inj hsegments
    exact ⟨segments text, mem_ends.mpr ⟨segments_ne_nil text, more, rfl⟩,
      ofSegments_segments text⟩

/-! ## The namespace and the last segment -/

theorem exists_segments_concat (key : String) :
    ∃ front, segments key = front ++ [lastSegment key] := by
  obtain ⟨front, last, hsegments⟩ : ∃ front last, segments key = front ++ [last] :=
    ⟨_, _, (List.dropLast_concat_getLast (segments_ne_nil key)).symm⟩
  exact ⟨front, by simp [lastSegment, hsegments]⟩

theorem no_dot_lastSegment (key : String) : '.' ∉ (lastSegment key).toList := by
  obtain ⟨front, hsegments⟩ := exists_segments_concat key
  exact no_dot_of_mem_segments (hsegments ▸ List.mem_append_right front (List.mem_singleton_self _))

theorem namespaceOf_append {space leaf : String} (h : '.' ∉ leaf.toList) :
    namespaceOf (space ++ "." ++ leaf) = some space := by
  have hsegments : segments (space ++ "." ++ leaf) = segments space ++ [leaf] := by
    rw [segments_append, segments_of_no_dot h]
  obtain ⟨first, rest, hs⟩ := List.exists_cons_of_ne_nil (segments_ne_nil space)
  unfold namespaceOf
  rw [hsegments]
  split
  · rw [List.dropLast_concat, ofSegments_segments]
  · rename_i hno
    cases rest with
    | nil => exact absurd (by rw [hs]; rfl) (hno first leaf [])
    | cons next rest => exact absurd (by rw [hs]; rfl) (hno first next (rest ++ [leaf]))

theorem lastSegment_append {space leaf : String} (h : '.' ∉ leaf.toList) :
    lastSegment (space ++ "." ++ leaf) = leaf := by
  rw [lastSegment, segments_append, segments_of_no_dot h]
  simp

theorem namespaceOf_eq_some_iff {key space : String} :
    namespaceOf key = some space ↔
      '.' ∉ (lastSegment key).toList ∧ key = space ++ "." ++ lastSegment key := by
  constructor
  · intro h
    obtain ⟨front, hsegments⟩ := exists_segments_concat key
    have hfront : front ≠ [] := by
      rintro rfl
      simp [namespaceOf, hsegments] at h
    have hkey : key = ofSegments front ++ "." ++ lastSegment key := by
      have hjoin := ofSegments_append hfront (List.cons_ne_nil (lastSegment key) [])
      rw [← hsegments, ofSegments_segments] at hjoin
      simpa [ofSegments] using hjoin
    rw [hkey, namespaceOf_append (no_dot_lastSegment key)] at h
    obtain rfl := Option.some.inj h
    exact ⟨no_dot_lastSegment key, hkey⟩
  · intro hx
    rcases hx with ⟨hno, hkey⟩
    rw [hkey]
    exact namespaceOf_append hno

/-! ## The first segment -/

theorem withoutErrorNamespace_eq_some_iff {spaces : List String} {key rest : String} :
    withoutErrorNamespace spaces key = some rest ↔
      ∃ first ∈ spaces, '.' ∉ first.toList ∧ key = first ++ "." ++ rest := by
  constructor
  · intro h
    unfold withoutErrorNamespace at h
    split at h
    · rename_i first next more hsegments
      split at h
      · rename_i hin
        obtain rfl := Option.some.inj h
        refine ⟨first, hin, no_dot_of_mem_segments (by rw [hsegments]; simp), ?_⟩
        rw [← ofSegments_cons (by simp), ← hsegments, ofSegments_segments]
      · cases h
    · cases h
  · intro hx
    rcases hx with ⟨first, hin, hno, rfl⟩
    have hsegments : segments (first ++ "." ++ rest) = first :: segments rest := by
      rw [segments_append, segments_of_no_dot hno, List.singleton_append]
    obtain ⟨next, more, hr⟩ := List.exists_cons_of_ne_nil (segments_ne_nil rest)
    unfold withoutErrorNamespace
    rw [hsegments, hr]
    simp [hin, ← hr, ofSegments_segments]

/-! ## Interior segments -/

theorem isDynamicIndex_iff {key : String} :
    isDynamicIndex key = true ↔
      ∃ first interior last, segments key = first :: (interior ++ [last]) ∧
        ∃ segment ∈ interior, isIndexSegment segment = true := by
  obtain ⟨first, rest, hsegments⟩ := List.exists_cons_of_ne_nil (segments_ne_nil key)
  rw [isDynamicIndex, hsegments, List.drop_one, List.tail_cons, List.any_eq_true]
  constructor
  · intro h
    rcases h with ⟨segment, hs, hi⟩
    have hne : rest ≠ [] := by
      rintro rfl
      simp at hs
    exact ⟨first, rest.dropLast, rest.getLast hne, by rw [List.dropLast_concat_getLast hne],
      segment, hs, hi⟩
  · intro h
    rcases h with ⟨first', interior, last, heq, segment, hs, hi⟩
    obtain ⟨-, rfl⟩ := List.cons.inj heq
    exact ⟨segment, by rwa [List.dropLast_concat], hi⟩

end LocaleTidy.Key
