import LocaleTidy.Proofs.Key.Parts
import LocaleTidy.Proofs.Pattern.Found

/-!
# Patterns of indexed keys

The pattern of an indexed key stands for the keys that differ from it in their interior indices
alone.
-/

namespace LocaleTidy

/-- The other segment stands in the place of an interior segment: an index in that of an index,
and any other segment in its own. -/
def StandsFor (segment other : String) : Prop :=
  if Key.isIndexSegment segment then Key.isIndexSegment other = true else other = segment

instance (segment other : String) : Decidable (StandsFor segment other) :=
  inferInstanceAs (Decidable
    (if Key.isIndexSegment segment then Key.isIndexSegment other = true else other = segment))

/-- The other key differs from a key in interior indices alone. -/
def IndexVariant (key other : String) : Prop :=
  ∃ first interior last replaced, Key.segments key = first :: (interior ++ [last]) ∧
    List.Forall₂ StandsFor interior replaced ∧
    other = Key.ofSegments (first :: (replaced ++ [last]))

/-! ## Keys with other indices -/

theorem Key.no_dot_of_isIndexSegment {segment : String} (h : isIndexSegment segment = true) :
    '.' ∉ segment.toList := by
  intro hdot
  have hdigits := (Bool.and_eq_true_iff.mp h).2
  exact absurd (List.all_eq_true.mp hdigits '.' hdot) (by decide)

namespace StandsFor

variable {segment other : String}

theorem refl (segment : String) : StandsFor segment segment := by
  unfold StandsFor
  split <;> simp_all

theorem isIndexSegment_eq (h : StandsFor segment other) :
    Key.isIndexSegment other = Key.isIndexSegment segment := by
  unfold StandsFor at h
  split at h <;> simp_all

theorem no_dot (h : StandsFor segment other) (hno : '.' ∉ segment.toList) :
    '.' ∉ other.toList := by
  unfold StandsFor at h
  split at h
  · exact Key.no_dot_of_isIndexSegment h
  · rwa [h]

end StandsFor

theorem forall₂_standsFor_refl (segments : List String) :
    List.Forall₂ StandsFor segments segments :=
  List.forall₂_same.mpr fun segment _ => .refl segment

theorem forall₂_standsFor_no_dot {interior replaced : List String}
    (h : List.Forall₂ StandsFor interior replaced)
    (hno : ∀ segment ∈ interior, '.' ∉ segment.toList) :
    ∀ segment ∈ replaced, '.' ∉ segment.toList := by
  induction h with
  | nil => simp
  | cons hfirst _ ih =>
      rw [List.forall_mem_cons] at hno ⊢
      exact ⟨hfirst.no_dot hno.1, ih hno.2⟩

theorem segments_replaced {key first last : String} {interior replaced : List String}
    (h : Key.segments key = first :: (interior ++ [last]))
    (hreplaced : List.Forall₂ StandsFor interior replaced) :
    Key.segments (Key.ofSegments (first :: (replaced ++ [last]))) =
      first :: (replaced ++ [last]) := by
  have hno : ∀ segment ∈ first :: (interior ++ [last]), '.' ∉ segment.toList := by
    rw [← h]
    exact fun segment hsegment => Key.no_dot_of_mem_segments hsegment
  refine Key.segments_ofSegments (by simp) fun segment hsegment => ?_
  rcases List.mem_cons.mp hsegment with rfl | hsegment
  · exact hno _ (by simp)
  rcases List.mem_append.mp hsegment with hsegment | hsegment
  · exact forall₂_standsFor_no_dot hreplaced (fun other ho => hno other (by simp [ho])) _ hsegment
  · exact hno _ (by simp_all)

namespace IndexVariant

variable {key other : String}

theorem refl {first last : String} {interior : List String}
    (h : Key.segments key = first :: (interior ++ [last])) : IndexVariant key key :=
  ⟨first, interior, last, interior, h, forall₂_standsFor_refl interior, by
    rw [← h, Key.ofSegments_segments]⟩

theorem exists_segments (h : IndexVariant key other) :
    ∃ first interior last replaced, Key.segments key = first :: (interior ++ [last]) ∧
      List.Forall₂ StandsFor interior replaced ∧
      Key.segments other = first :: (replaced ++ [last]) := by
  obtain ⟨first, interior, last, replaced, hsegments, hreplaced, rfl⟩ := h
  exact ⟨first, interior, last, replaced, hsegments, hreplaced,
    segments_replaced hsegments hreplaced⟩

theorem isDynamicIndex_eq (h : IndexVariant key other) :
    Key.isDynamicIndex other = Key.isDynamicIndex key := by
  obtain ⟨first, interior, last, replaced, hkey, hreplaced, hother⟩ := h.exists_segments
  simp only [Key.isDynamicIndex, hkey, hother, List.drop_one, List.tail_cons, List.dropLast_concat]
  clear hkey hother
  induction hreplaced with
  | nil => rfl
  | cons hfirst _ ih => rw [List.any_cons, List.any_cons, hfirst.isIndexSegment_eq, ih]

theorem firstSegment_eq (h : IndexVariant key other) :
    Key.firstSegment other = Key.firstSegment key := by
  obtain ⟨first, interior, last, replaced, hkey, -, hother⟩ := h.exists_segments
  simp [Key.firstSegment, hkey, hother]

end IndexVariant

namespace Pattern

open Regex (Reads rowWords)

/-! ## Rows of segments -/

/-- The language of keys with a segment from each language. -/
def joined (languages : List (Language Char)) : Language Char :=
  {word | ∃ segments : List String, word = (Key.ofSegments segments).toList ∧
    List.Forall₂ (fun language segment => segment.toList ∈ language) languages segments}

theorem joined_nil : joined [] = 1 := by
  ext word
  constructor
  · intro h
    rcases h with ⟨_, rfl, ⟨⟩⟩
    rfl
  · rintro ⟨⟩
    exact ⟨[], rfl, .nil⟩

theorem joined_singleton (language : Language Char) : joined [language] = language := by
  ext word
  constructor
  · intro h
    rcases h with ⟨_, rfl, _ | ⟨hs, _ | _⟩⟩
    simpa [Key.ofSegments] using hs
  · intro hw
    exact ⟨[String.ofList word], by simp [Key.ofSegments], .cons (by simpa using hw) .nil⟩

theorem joined_cons_cons (language next : Language Char) (languages : List (Language Char)) :
    joined (language :: next :: languages) = language * {['.']} * joined (next :: languages) := by
  ext word
  constructor
  · intro h
    rcases h with ⟨_, rfl, _ | ⟨hs, hrest⟩⟩
    rcases hrest with _ | ⟨hn, hmore⟩
    refine ⟨_, ⟨_, hs, _, rfl, rfl⟩, _, ⟨_, rfl, .cons hn hmore⟩, ?_⟩
    simp [Key.ofSegments, String.intercalate_cons_cons]
  · intro h
    rcases h with ⟨_, ⟨first, hf, _, rfl, rfl⟩, _, ⟨_, rfl, _ | ⟨hn, hmore⟩⟩, rfl⟩
    refine ⟨String.ofList first :: _ :: _, ?_,
      .cons (by rwa [String.toList_ofList]) (.cons hn hmore)⟩
    simp [Key.ofSegments, String.intercalate_cons_cons]

theorem denotes_joined {patterns : List String} {languages : List (Language Char)}
    (h : List.Forall₂ Denotes patterns languages) :
    Denotes (String.intercalate "\\." patterns) (joined languages) := by
  induction h with
  | nil =>
      rw [joined_nil]
      exact ⟨[], fun _ _ => rfl, rfl⟩
  | cons hp hrest ih =>
      cases hrest with
      | nil =>
          rw [joined_singleton]
          simpa using hp
      | cons hn hmore =>
          rw [joined_cons_cons, String.intercalate_cons_cons]
          exact (hp.append (denotes_text ['.'] fun _ _ => rfl)).append ih

/-! ## Segments -/

theorem denotes_index :
    Denotes "[0-9]+" {word | Key.isIndexSegment (String.ofList word) = true} := by
  refine ⟨[.many [('0', '9')]], fun _ _ => rfl, ?_⟩
  rw [rowWords, List.map_singleton, List.prod_singleton]
  ext word
  rw [Regex.mem_words_many]
  have hdigit : ∀ c : Char, CharClass.has [('0', '9')] c = c.isDigit := fun c => by
    simp [CharClass.has, Char.isDigit, Char.le_def]
  simp only [hdigit]
  show _ ↔ Key.isIndexSegment (String.ofList word) = true
  simp [Key.isIndexSegment]

def interiorPiece (segment : String) : String :=
  if Key.isIndexSegment segment then "[0-9]+" else escape segment

def interiorWords (segment : String) : Language Char :=
  {word | StandsFor segment (String.ofList word)}

theorem denotes_interior (segment : String) :
    Denotes (interiorPiece segment) (interiorWords segment) := by
  unfold interiorPiece
  by_cases h : Key.isIndexSegment segment
  · simpa [interiorWords, StandsFor, h] using denotes_index
  · have heq : interiorWords segment = {segment.toList} := by
      ext word
      show StandsFor segment (String.ofList word) ↔ word = segment.toList
      simp [StandsFor, h, ← String.toList_inj]
    simpa [h, heq] using denotes_escape segment

theorem laterPieces_append (interior : List String) (last : String) :
    laterPieces (interior ++ [last]) = interior.map interiorPiece ++ [escape last] := by
  induction interior with
  | nil => rfl
  | cons segment interior ih =>
      obtain ⟨next, more, hmore⟩ : ∃ next more, interior ++ [last] = next :: more :=
        List.exists_cons_of_ne_nil (by simp)
      rw [List.cons_append, hmore, laterPieces, ← hmore, ih]
      · rfl
      · simp

theorem generalized_of_segments {key first last : String} {interior : List String}
    (h : Key.segments key = first :: (interior ++ [last])) :
    generalized key =
      String.intercalate "\\." (escape first :: (interior.map interiorPiece ++ [escape last])) := by
  simp only [generalized, h, laterPieces_append]

theorem interiorPiece_eq {segment other : String} (h : StandsFor segment other) :
    interiorPiece other = interiorPiece segment := by
  unfold StandsFor at h
  split at h <;> simp_all [interiorPiece]

theorem generalized_eq_of_variant {key other : String} (h : IndexVariant key other) :
    generalized other = generalized key := by
  obtain ⟨first, interior, last, replaced, hkey, hreplaced, hother⟩ := h.exists_segments
  rw [generalized_of_segments hkey, generalized_of_segments hother]
  have hpieces : replaced.map interiorPiece = interior.map interiorPiece := by
    clear hkey hother
    induction hreplaced with
    | nil => rfl
    | cons hfirst _ ih => rw [List.map_cons, List.map_cons, interiorPiece_eq hfirst, ih]
  rw [hpieces]

/-- The language of the pattern of a key with interior segments. -/
def variantLanguages (first : String) (interior : List String) (last : String) :
    List (Language Char) :=
  {first.toList} :: (interior.map interiorWords ++ [{last.toList}])

theorem denotes_generalized {key first last : String} {interior : List String}
    (h : Key.segments key = first :: (interior ++ [last])) :
    Denotes (generalized key) (joined (variantLanguages first interior last)) := by
  rw [generalized_of_segments h]
  refine denotes_joined (.cons (denotes_escape first) ?_)
  refine List.rel_append ?_ (.cons (denotes_escape last) .nil)
  rw [List.forall₂_map_left_iff, List.forall₂_map_right_iff, List.forall₂_same]
  exact fun segment _ => denotes_interior segment

theorem forall₂_append_singleton {α β : Type} {R : α → β → Prop} {front : List α} {last : α}
    {others : List β} (h : List.Forall₂ R (front ++ [last]) others) :
    ∃ replaced other, others = replaced ++ [other] ∧ List.Forall₂ R front replaced ∧
      R last other := by
  induction front generalizing others with
  | nil =>
      rcases h with _ | ⟨hlast, _ | _⟩
      exact ⟨[], _, rfl, .nil, hlast⟩
  | cons head front ih =>
      rcases h with _ | ⟨hhead, hrest⟩
      obtain ⟨replaced, other, rfl, hfront, hlast⟩ := ih hrest
      exact ⟨_ :: replaced, other, rfl, .cons hhead hfront, hlast⟩

theorem mem_variantLanguages_iff {key first last : String} {interior : List String}
    (h : Key.segments key = first :: (interior ++ [last])) {word : List Char} :
    word ∈ joined (variantLanguages first interior last) ↔
      ∃ other, IndexVariant key other ∧ word = other.toList := by
  have hinterior : ∀ interior replaced : List String,
      List.Forall₂ (fun language segment => segment.toList ∈ language)
        (interior.map interiorWords) replaced ↔ List.Forall₂ StandsFor interior replaced := by
    intro interior replaced
    have hmem : ∀ segment other : String,
        other.toList ∈ interiorWords segment ↔ StandsFor segment other := by
      intro segment other
      show StandsFor segment (String.ofList other.toList) ↔ _
      rw [String.ofList_toList]
    simp only [List.forall₂_map_left_iff, hmem]
  constructor
  · intro hx
    rcases hx with ⟨_, rfl, _ | ⟨hfirst, hrest⟩⟩
    obtain ⟨replaced, other, rfl, hreplaced, hlast⟩ := forall₂_append_singleton hrest
    rw [mem_singleton_language, String.toList_inj] at hfirst hlast
    refine ⟨_, ⟨first, interior, last, replaced, h, (hinterior _ _).mp hreplaced, rfl⟩, ?_⟩
    rw [hfirst, hlast]
  · intro hx
    rcases hx with ⟨_, ⟨first', interior', last', replaced, h', hreplaced, rfl⟩, rfl⟩
    obtain ⟨rfl, hrow⟩ := List.cons.inj (h.symm.trans h')
    obtain ⟨rfl, hlast⟩ := List.append_inj' hrow rfl
    obtain rfl := List.singleton_inj.mp hlast
    exact ⟨_, rfl, .cons rfl (List.rel_append ((hinterior _ _).mpr hreplaced) (.cons rfl .nil))⟩

theorem foundWhere_generalized {key first last : String} {interior : List String}
    (h : Key.segments key = first :: (interior ++ [last])) :
    FoundWhere (generalized key) fun content =>
      ∃ other, IndexVariant key other ∧ Shows content other := by
  refine foundWhere_of_words (denotes_generalized h).ofPattern? fun content => ?_
  constructor
  · intro hstands
    obtain ⟨word, hword, hin⟩ := hstands
    obtain ⟨other, hvariant, rfl⟩ := (mem_variantLanguages_iff h).mp hword
    exact ⟨other, hvariant, hin⟩
  · intro hshown
    obtain ⟨other, hvariant, hshow⟩ := hshown
    exact ⟨_, (mem_variantLanguages_iff h).mpr ⟨other, hvariant, rfl⟩, hshow⟩

end Pattern

end LocaleTidy
