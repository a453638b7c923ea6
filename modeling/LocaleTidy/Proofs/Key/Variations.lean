import Mathlib.Data.List.Pairwise
import LocaleTidy.Proofs.Key.Parts

/-!
# The variations of a key

The variations of a key are what is left of it when its segments are taken off its front one after
the other. There is one for each segment, from the key itself to its last segment, and each is
shorter than the ones before it.
-/

namespace LocaleTidy.Key

variable {key text first rest : String} {index : Nat}

/-! ## Ends -/

theorem length_ends {α : Type} (list : List α) : (ends list).length = list.length := by
  induction list with
  | nil => rfl
  | cons x rest ih => rw [ends, List.length_cons, List.length_cons, ih]

theorem getElem_ends {α : Type} (list : List α) (h : index < (ends list).length) :
    (ends list)[index] = list.drop index := by
  induction list generalizing index with
  | nil => cases h
  | cons x rest ih =>
      cases index with
      | zero => rfl
      | succ index => exact ih (Nat.lt_of_succ_lt_succ h)

theorem pairwise_ends {α : Type} (list : List α) :
    (ends list).Pairwise fun longer shorter => ∃ front, front ≠ [] ∧ longer = front ++ shorter := by
  induction list with
  | nil => exact .nil
  | cons x rest ih =>
      refine .cons (fun shorter hshorter => ?_) ih
      obtain ⟨-, front, rfl⟩ := mem_ends.mp hshorter
      exact ⟨x :: front, by simp, rfl⟩

/-! ## Variations -/

theorem length_segments (key : String) : (segments key).length = key.toList.count '.' + 1 := by
  rw [segments, Text.split, List.length_map, Text.length_pieces]

theorem length_variations (key : String) : (variations key).length = (segments key).length := by
  rw [variations, List.length_map, length_ends]

theorem getElem_variations (h : index < (variations key).length) :
    (variations key)[index] = ofSegments ((segments key).drop index) := by
  simp only [variations, List.getElem_map, getElem_ends]

/-- A variation has the segments of the key that are left when the first ones are taken off. -/
theorem segments_getElem_variations (h : index < (variations key).length) :
    segments (variations key)[index] = (segments key).drop index := by
  have hne : (segments key).drop index ≠ [] := by
    rw [length_variations] at h
    simpa using h
  rw [getElem_variations]
  exact segments_ofSegments hne fun name hname =>
    no_dot_of_mem_segments (List.mem_of_mem_drop hname)

/-- A variation after the key itself is what follows the segments that are taken off, and a dot. -/
theorem eq_append_getElem_variations (h : index < (variations key).length) (hpos : 0 < index) :
    key = ofSegments ((segments key).take index) ++ "." ++ (variations key)[index] := by
  rw [length_variations] at h
  rw [getElem_variations, ← ofSegments_append, List.take_append_drop, ofSegments_segments]
  · simpa using ⟨Nat.ne_of_gt hpos, segments_ne_nil key⟩
  · simpa using h

theorem head?_variations (key : String) : (variations key).head? = some key := by
  have hne := segments_ne_nil key
  obtain ⟨first, rest, hsegments⟩ := List.exists_cons_of_ne_nil hne
  rw [variations, hsegments, ends, List.map_cons, List.head?_cons, ← hsegments, ofSegments_segments]

/-- Behind a key come the variations of what follows its first dot. -/
theorem variations_append (h : '.' ∉ first.toList) :
    variations (first ++ "." ++ rest) = (first ++ "." ++ rest) :: variations rest := by
  have hsegments : segments (first ++ "." ++ rest) = first :: segments rest := by
    rw [segments_append, segments_of_no_dot h, List.singleton_append]
  rw [variations, hsegments, ends, List.map_cons, ← hsegments, ofSegments_segments, variations]

theorem exists_variations_concat (key : String) :
    ∃ front, variations key = front ++ [lastSegment key] := by
  obtain ⟨front, hsegments⟩ := exists_segments_concat key
  refine ⟨(ends front).map fun back => ofSegments (back ++ [lastSegment key]), ?_⟩
  rw [variations, hsegments, ends_concat]
  simp [ofSegments]

/-- Each variation is what follows a dot in any one before it. -/
theorem pairwise_variations (key : String) :
    (variations key).Pairwise fun longer shorter => ∃ front, longer = front ++ "." ++ shorter := by
  rw [variations, List.pairwise_map]
  refine (pairwise_ends (segments key)).imp_of_mem fun {longer shorter} _ hshorter h => ?_
  obtain ⟨front, hfront, rfl⟩ := h
  exact ⟨ofSegments front, ofSegments_append hfront (mem_ends.mp hshorter).1⟩

/-- What follows a dot is shorter, in characters as well as in bytes. -/
theorem shorter_of_follows {longer shorter : String}
    (h : ∃ front, longer = front ++ "." ++ shorter) :
    shorter.length < longer.length ∧ shorter.utf8ByteSize < longer.utf8ByteSize := by
  obtain ⟨front, rfl⟩ := h
  have hdot : ".".length = 1 ∧ ".".utf8ByteSize = 1 := by decide
  simp only [String.length_append, String.utf8ByteSize_append, hdot]
  omega

/-- All variations but the last one have a dot before the last segment. -/
theorem dot_mem_of_mem_dropLast_variations (h : text ∈ (variations key).dropLast) :
    '.' ∈ text.toList := by
  obtain ⟨front, hconcat⟩ := exists_variations_concat key
  have hpairwise := pairwise_variations key
  rw [hconcat, List.dropLast_concat] at h
  rw [hconcat, List.pairwise_append] at hpairwise
  obtain ⟨before, rfl⟩ := hpairwise.2.2 text h _ (List.mem_singleton_self _)
  simp

/-- A key without its error namespace is its second variation. -/
theorem getElem?_one_of_withoutErrorNamespace {spaces : List String}
    (h : withoutErrorNamespace spaces key = some rest) : (variations key)[1]? = some rest := by
  obtain ⟨first, -, hfirst, rfl⟩ := withoutErrorNamespace_eq_some_iff.mp h
  rw [variations_append hfirst, List.getElem?_cons_succ, ← List.head?_eq_getElem?,
    head?_variations]

/-- Texts that are what is left of a key when its segments are taken off one after the other. -/
structure ShedsSegments (key : String) (texts : List String) : Prop where
  /-- There is a text for each segment, and one segment more than there are dots. -/
  length_eq : texts.length = (segments key).length ∧
    (segments key).length = key.toList.count '.' + 1
  /-- Before each text as many segments are taken off as there are texts before it. -/
  segments_eq : ∀ (index : Nat) (h : index < texts.length),
    segments texts[index] = (segments key).drop index
  /-- After the first one, a text is what follows the segments that are taken off, and a dot. -/
  follows : ∀ (index : Nat) (h : index < texts.length), 0 < index →
    key = ofSegments ((segments key).take index) ++ "." ++ texts[index]
  head : texts.head? = some key
  last : texts.getLast? = some (lastSegment key)
  nodup : texts.Nodup
  shortening : texts.Pairwise fun longer shorter =>
    shorter.length < longer.length ∧ shorter.utf8ByteSize < longer.utf8ByteSize
  /-- The last text has no dot, and all others have one. -/
  dots : '.' ∉ (lastSegment key).toList ∧ ∀ text ∈ texts.dropLast, '.' ∈ text.toList
  /-- A key without its error namespace is the second text. -/
  second : ∀ spaces rest, withoutErrorNamespace spaces key = some rest → texts[1]? = some rest

theorem shedsSegments_variations (key : String) : ShedsSegments key (variations key) := by
  have hshorter := (pairwise_variations key).imp shorter_of_follows
  have hnodup : (variations key).Nodup := by
    refine hshorter.imp fun h heq => ?_
    rw [heq] at h
    exact Nat.lt_irrefl _ h.1
  obtain ⟨front, hconcat⟩ := exists_variations_concat key
  exact {
    length_eq := ⟨length_variations key, length_segments key⟩
    segments_eq := fun index h => segments_getElem_variations h
    follows := fun index h hpos => eq_append_getElem_variations h hpos
    head := head?_variations key
    last := by rw [hconcat, List.getLast?_concat]
    nodup := hnodup
    shortening := hshorter
    dots := ⟨no_dot_lastSegment key, fun text h => dot_mem_of_mem_dropLast_variations h⟩
    second := fun spaces rest h => getElem?_one_of_withoutErrorNamespace h }

/-- A dot at the end of a key and two dots in a row leave empty segments. -/
example : variations "a..b." = ["a..b.", ".b.", "b.", ""] := by decide

end LocaleTidy.Key
