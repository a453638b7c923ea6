import LocaleTidy.Proofs.Pattern.Indices

/-!
# Words of generalized keys

The pattern of a key matches the keys with as many segments that agree with it on each of them, but
for the indices in its interior. It differs from the escaped key exactly if there are such indices.
-/

namespace LocaleTidy

/-- The other key has as many segments as a key. An index strictly between two other segments may
be any other index, and all other segments are the same. -/
structure AgreesButIndices (key other : String) : Prop where
  length_eq : (Key.segments other).length = (Key.segments key).length
  agree : ∀ (i : Nat) (segment twin : String), (Key.segments key)[i]? = some segment →
    (Key.segments other)[i]? = some twin →
      if 0 < i ∧ i + 1 < (Key.segments key).length ∧ Key.isIndexSegment segment then
        Key.isIndexSegment twin = true
      else twin = segment

/-! ## Segments by their places -/

theorem Key.eq_singleton_or_ends (key : String) :
    Key.segments key = [key] ∨
      ∃ first interior last, Key.segments key = first :: (interior ++ [last]) := by
  obtain ⟨first, rest, hsegments⟩ := List.exists_cons_of_ne_nil (Key.segments_ne_nil key)
  rcases List.eq_nil_or_concat rest with rfl | ⟨interior, last, rfl⟩
  · left
    have hkey := Key.ofSegments_segments key
    rw [hsegments] at hkey ⊢
    simpa [Key.ofSegments] using hkey
  · exact .inr ⟨first, interior, last, by rw [hsegments, List.concat_eq_append]⟩

theorem agreesButIndices_iff_eq {key other : String} (h : Key.segments key = [key]) :
    AgreesButIndices key other ↔ other = key := by
  constructor
  · intro hagrees
    obtain ⟨only, honly⟩ : ∃ only, Key.segments other = [only] :=
      List.length_eq_one_iff.mp (by rw [hagrees.length_eq, h]; rfl)
    have hsame : only = key := by
      simpa using hagrees.agree 0 key only (by simp [h]) (by simp [honly])
    exact Key.segments_injective (by rw [honly, h, hsame])
  · rintro rfl
    exact ⟨rfl, fun i segment twin hsegment htwin => by
      rw [h] at hsegment htwin
      simp_all⟩

/-- The first of some segments, those between two others, and the last. -/
theorem getElem?_ends {first last segment : String} {interior : List String} {i : Nat} :
    (first :: (interior ++ [last]))[i]? = some segment ↔
      i = 0 ∧ first = segment ∨ (∃ j, i = j + 1 ∧ interior[j]? = some segment) ∨
        i = interior.length + 1 ∧ last = segment := by
  cases i with
  | zero => simp
  | succ i =>
      rw [List.getElem?_cons_succ]
      rcases Nat.lt_trichotomy i interior.length with hlt | rfl | hgt
      · simp [List.getElem?_append_left hlt, hlt.ne]
      · simp
      · simp [List.getElem?_append_right hgt.le, hgt.ne', Nat.sub_ne_zero_of_lt hgt, hgt.le]

/-- Keys agree but for indices if the segments in the interior of one stand for those of the
other. -/
theorem agreesButIndices_iff_variant {key other first last : String} {interior : List String}
    (h : Key.segments key = first :: (interior ++ [last])) :
    AgreesButIndices key other ↔ IndexVariant key other := by
  constructor
  · intro hagrees
    have hlength := hagrees.length_eq
    have hagree := hagrees.agree
    rcases Key.eq_singleton_or_ends other with hone | ⟨head, replaced, tail, hother⟩
    · simp [hone, h] at hlength
    have hcount : replaced.length = interior.length := by simpa [hother, h] using hlength
    simp only [h, hother, getElem?_ends, List.length_cons, List.length_append,
      List.length_nil] at hagree
    obtain rfl : head = first := by
      simpa using hagree 0 first head (.inl ⟨rfl, rfl⟩) (.inl ⟨rfl, rfl⟩)
    obtain rfl : tail = last := by
      simpa using hagree (interior.length + 1) last tail (.inr (.inr ⟨rfl, rfl⟩))
        (.inr (.inr ⟨by rw [hcount], rfl⟩))
    have hinterior : List.Forall₂ StandsFor interior replaced := by
      refine List.forall₂_iff_get.mpr ⟨hcount.symm, fun i hi hreplaced => ?_⟩
      have hplace := hagree (i + 1) interior[i] replaced[i]
        (.inr (.inl ⟨i, rfl, List.getElem?_eq_getElem hi⟩))
        (.inr (.inl ⟨i, rfl, List.getElem?_eq_getElem hreplaced⟩))
      simpa [StandsFor, hi] using hplace
    exact ⟨head, interior, tail, replaced, h, hinterior, by
      rw [← hother, Key.ofSegments_segments]⟩
  · intro hvariant
    obtain ⟨head, between, tail, replaced, hkey, hreplaced, hother⟩ := hvariant.exists_segments
    have hcount := hreplaced.length_eq
    refine ⟨by simp [hkey, hother, hcount], fun i segment twin hsegment htwin => ?_⟩
    rw [hkey, getElem?_ends] at hsegment
    rw [hother, getElem?_ends, ← hcount] at htwin
    simp only [hkey, List.length_cons, List.length_append, List.length_nil]
    rcases hsegment with ⟨rfl, rfl⟩ | ⟨j, rfl, hj⟩ | ⟨rfl, rfl⟩
    · simp_all
    · obtain ⟨hlt, rfl⟩ := List.getElem?_eq_some_iff.mp hj
      have htwin : replaced[j]? = some twin := by
        rcases htwin with ⟨hzero, _⟩ | ⟨k, hk, htwin⟩ | ⟨hend, _⟩
        · omega
        · rwa [Nat.succ_inj.mp hk]
        · omega
      obtain ⟨hplace, rfl⟩ := List.getElem?_eq_some_iff.mp htwin
      have hstands : StandsFor between[j] replaced[j] :=
        (List.forall₂_iff_get.mp hreplaced).2 j hlt hplace
      simpa [StandsFor, hlt] using hstands
    · have htwin : tail = twin := by
        rcases htwin with ⟨hzero, _⟩ | ⟨k, hk, htwin⟩ | ⟨_, htail⟩
        · omega
        · have hplace := (List.getElem?_eq_some_iff.mp htwin).1
          omega
        · exact htail
      simp [htwin]

namespace Pattern

/-! ## The language of a generalized key -/

theorem denotes_agreesButIndices (key : String) :
    Denotes (generalized key) {word | AgreesButIndices key (String.ofList word)} := by
  rcases Key.eq_singleton_or_ends key with hone | ⟨first, interior, last, hsegments⟩
  · have hwords : ({word | AgreesButIndices key (String.ofList word)} : Language Char) =
        {key.toList} := by
      ext word
      show AgreesButIndices key (String.ofList word) ↔ word = key.toList
      rw [agreesButIndices_iff_eq hone, ← String.toList_inj, String.toList_ofList]
    have hpattern : generalized key = escape key := by simp [generalized, hone, laterPieces]
    rw [hwords, hpattern]
    exact denotes_escape key
  · have hwords : ({word | AgreesButIndices key (String.ofList word)} : Language Char) =
        joined (variantLanguages first interior last) := by
      ext word
      show AgreesButIndices key (String.ofList word) ↔ _
      refine (agreesButIndices_iff_variant hsegments).trans
        (Iff.trans ?_ (mem_variantLanguages_iff hsegments).symm)
      constructor
      · intro hvariant
        exact ⟨_, hvariant, by simp⟩
      · rintro ⟨other, hvariant, rfl⟩
        rwa [String.ofList_toList]
    rw [hwords]
    exact denotes_generalized hsegments

/-! ## Keys without indices -/

theorem escapeChars_append (front back : List Char) :
    escapeChars (front ++ back) = escapeChars front ++ escapeChars back := by
  induction front with
  | nil => rfl
  | cons c rest ih =>
      rw [List.cons_append, escapeChars, escapeChars, ih]
      split <;> rfl

theorem escape_append (front back : String) :
    escape (front ++ back) = escape front ++ escape back := by
  simp [escape, escapeChars_append]

theorem escape_ofSegments (names : List String) :
    escape (Key.ofSegments names) = String.intercalate "\\." (names.map escape) := by
  induction names with
  | nil => rfl
  | cons name rest ih =>
      cases rest with
      | nil => simp [Key.ofSegments]
      | cons next more =>
          rw [Key.ofSegments_cons (List.cons_ne_nil next more), escape_append, escape_append, ih,
            List.map_cons, List.map_cons, List.map_cons, String.intercalate_cons_cons]
          rfl

theorem Denotes.unique {pattern : String} {language other : Language Char}
    (h : Denotes pattern language) (k : Denotes pattern other) : language = other := by
  obtain ⟨regex, hread, rfl⟩ := h.ofPattern?
  obtain ⟨again, hagain, rfl⟩ := k.ofPattern?
  rw [Option.some.inj (hread.symm.trans hagain)]

def longerIndex (segment : String) : String :=
  if Key.isIndexSegment segment then segment ++ "0" else segment

theorem standsFor_longerIndex (segment : String) : StandsFor segment (longerIndex segment) := by
  unfold StandsFor longerIndex
  split
  · rename_i hindex
    simp only [Key.isIndexSegment, Bool.and_eq_true, Bool.not_eq_true', String.toList_append,
      List.all_append] at hindex ⊢
    exact ⟨by simp, hindex.2, by decide⟩
  · rfl

theorem exists_variant_ne {key : String} (h : Key.isDynamicIndex key = true) :
    ∃ other, AgreesButIndices key other ∧ other ≠ key := by
  obtain ⟨first, interior, last, hsegments, segment, hmem, hindex⟩ := Key.isDynamicIndex_iff.mp h
  have hreplaced : List.Forall₂ StandsFor interior (interior.map longerIndex) := by
    rw [List.forall₂_map_right_iff, List.forall₂_same]
    exact fun segment _ => standsFor_longerIndex segment
  refine ⟨_, (agreesButIndices_iff_variant hsegments).mpr
    ⟨first, interior, last, _, hsegments, hreplaced, rfl⟩, fun hsame => ?_⟩
  have hother := segments_replaced hsegments hreplaced
  rw [hsame, hsegments, List.cons.injEq, List.append_cancel_right_eq] at hother
  have hlonger := List.map_inj_left.mp ((List.map_id interior).trans hother.2) segment hmem
  simp [longerIndex, hindex, ← String.toList_inj] at hlonger

theorem isDynamicIndex_iff_generalized_ne (key : String) :
    Key.isDynamicIndex key = true ↔ generalized key ≠ escape key := by
  constructor
  · intro hindex hsame
    have hwords := (denotes_agreesButIndices key).unique (hsame ▸ denotes_escape key)
    obtain ⟨other, hagrees, hne⟩ := exists_variant_ne hindex
    have hmem : other.toList ∈ ({key.toList} : Language Char) := by
      rw [← hwords]
      show AgreesButIndices key (String.ofList other.toList)
      rwa [String.ofList_toList]
    exact hne (String.toList_inj.mp hmem)
  · intro hne
    by_contra hindex
    apply hne
    rcases Key.eq_singleton_or_ends key with hone | ⟨first, interior, last, hsegments⟩
    · simp [generalized, hone, laterPieces]
    · have hpieces : interior.map interiorPiece = interior.map escape := by
        refine List.map_congr_left fun segment hsegment => ?_
        have hplain : ¬ Key.isIndexSegment segment = true := fun hdigits =>
          hindex (Key.isDynamicIndex_iff.mpr ⟨first, interior, last, hsegments, segment, hsegment,
            hdigits⟩)
        rw [interiorPiece, if_neg hplain]
      rw [generalized_of_segments hsegments, hpieces, ← Key.ofSegments_segments key,
        escape_ofSegments, hsegments]
      simp

/-- The pattern of a key matches the keys that agree with it but for indices in its interior, and it
is that of the key itself if and only if no index is there. -/
theorem generalized_matches_variants (key : String) :
    CompilesTo (generalized key) (fun regex =>
        ∀ text : String, Regex.Matches regex text.toList ↔ AgreesButIndices key text) ∧
      (Key.isDynamicIndex key = true ↔ generalized key ≠ escape key) := by
  refine ⟨compilesTo_of_words (denotes_agreesButIndices key).ofPattern? ?_,
    isDynamicIndex_iff_generalized_ne key⟩
  intro regex hwords text
  rw [← Regex.mem_words, hwords]
  show AgreesButIndices key (String.ofList text.toList) ↔ _
  rw [String.ofList_toList]

end Pattern

end LocaleTidy
