import LocaleTidy.Proofs.Usage.Exclusion

/-!
# Looking for the last segment alone

The fallback adds one search to the chain: that for the last segment alone, after those for longer
ends of the key. It does not change what is found without it, but where only an error key is found,
the same text is found as an end of the key.
-/

namespace LocaleTidy

/-! ## The chain in three parts -/

namespace UsageOptions

def withFallback (options : UsageOptions) (fallback : Bool) : UsageOptions :=
  { options with bareLeafFallback := fallback }

/-- The searches for a key before those for its ends. -/
def earlySearches (key : String) : List (Strategy × Query) :=
  (if Key.isDynamicIndex key then [(.dynamicIndex, .indexed key)] else []) ++
  [(.fullKey, .reference key)] ++
  (((Key.namespaceOf key).filter (!·.isEmpty)).map fun space =>
    (.inNamespace space, .namespaced key space)).toList

def endSearches (texts : List String) : List (Strategy × Query) :=
  texts.map fun text => (.variation text, .reference text)

/-- The search for a key without its error namespace, if it has one. -/
def errorSearches (spaces : List String) (key : String) : List (Strategy × Query) :=
  ((Key.withoutErrorNamespace spaces key).map fun text => (.errorKey text, .reference text)).toList

variable {options : UsageOptions} {key first last : String} {interior : List String}

theorem chain_eq (options : UsageOptions) (key : String) :
    options.chain key = earlySearches key ++ endSearches (options.laterVariations key) ++
      errorSearches options.errorNamespaces key := rfl

/-! ## Ends of a key -/

theorem laterVariations_of_single (h : Key.segments key = [first]) :
    options.laterVariations key = [] := by
  simp [laterVariations, Key.variations, h, Key.ends]

theorem laterVariations_on (h : Key.segments key = first :: (interior ++ [last])) :
    (options.withFallback true).laterVariations key =
      (Key.ends interior).map (fun back => Key.ofSegments (back ++ [last])) ++ [last] := by
  rw [laterVariations, Key.drop_variations h, List.filter_eq_self]
  intro text _
  rfl

theorem laterVariations_off (h : Key.segments key = first :: (interior ++ [last])) :
    (options.withFallback false).laterVariations key =
      (Key.ends interior).map fun back => Key.ofSegments (back ++ [last]) := by
  have hlast : '.' ∉ last.toList := Key.no_dot_of_mem_segments (by rw [h]; simp)
  have hlong : ∀ back ∈ Key.ends interior, '.' ∈ (Key.ofSegments (back ++ [last])).toList := by
    intro back hback
    rw [Key.ofSegments_append (Key.mem_ends.mp hback).1 (by simp)]
    simp
  rw [laterVariations, Key.drop_variations h, List.filter_append, List.filter_eq_self.mpr]
  · simp [withFallback, hlast]
  · intro text htext
    obtain ⟨back, hback, rfl⟩ := List.mem_map.mp htext
    simpa [withFallback] using hlong back hback

end UsageOptions

open UsageOptions

namespace Corpus

variable {corpus : Corpus} {options : UsageOptions} {key first last text : String}
  {interior : List String} {searches : List (Strategy × Query)} {evidence : Evidence}

/-! ## Evidence of a part -/

theorem firstEvidence_append (corpus : Corpus) (options : SearchOptions)
    (front back : List (Strategy × Query)) :
    (corpus.firstEvidence options (front ++ back)).1 =
      (corpus.firstEvidence options front).1.or (corpus.firstEvidence options back).1 := by
  induction front with
  | nil => rfl
  | cons search front ih =>
      rcases search with ⟨strategy, query⟩
      rw [List.cons_append, firstEvidence, firstEvidence]
      cases query.run corpus options with
      | found file => rfl
      | notFound => exact ih
      | failed problem => exact ih

theorem firstEvidence_singleton {options : SearchOptions} {strategy : Strategy} {query : Query} :
    (corpus.firstEvidence options [(strategy, query)]).1 = some evidence ↔
      evidence.strategy = strategy ∧ query.run corpus options = .found evidence.file := by
  rcases evidence with ⟨other, path⟩
  rw [firstEvidence]
  cases query.run corpus options with
  | found file => simp [eq_comm]
  | notFound => simp [firstEvidence]
  | failed problem => simp [firstEvidence]

/-- The same text is looked for as an end of the key and as an error key. -/
theorem firstEvidence_errorKey {options : SearchOptions}
    (h : (corpus.firstEvidence options [(.errorKey text, .reference text)]).1 = some evidence) :
    evidence.strategy = .errorKey text ∧
      (corpus.firstEvidence options [(.variation text, .reference text)]).1 =
        some ⟨.variation text, evidence.file⟩ := by
  obtain ⟨hstrategy, hrun⟩ := firstEvidence_singleton.mp h
  exact ⟨hstrategy, firstEvidence_singleton.mpr ⟨rfl, hrun⟩⟩

/-- If the first of some ends is found, something is found before the others. -/
theorem exists_of_endSearches_cons {texts : List String}
    (h : (corpus.firstEvidence options.search (endSearches [text])).1 = some evidence) :
    ∃ found, (corpus.firstEvidence options.search
      (searches ++ endSearches (text :: texts))).1 = some found := by
  have hsplit : endSearches (text :: texts) = endSearches [text] ++ endSearches texts := rfl
  rw [hsplit, firstEvidence_append, firstEvidence_append, h, Option.some_or]
  cases (corpus.firstEvidence options.search searches).1 with
  | none => exact ⟨evidence, rfl⟩
  | some found => exact ⟨found, rfl⟩

/-- Before error keys are looked for, no evidence is that of one. -/
theorem strategy_ne_errorKey {texts : List String}
    (h : (corpus.firstEvidence options.search
      (earlySearches key ++ endSearches texts)).1 = some evidence) (text : String) :
    evidence.strategy ≠ .errorKey text := by
  obtain ⟨query, hmem, -⟩ := exists_query_of_firstEvidence h
  intro hstrategy
  rw [hstrategy] at hmem
  simp only [earlySearches, endSearches, List.mem_append, List.mem_map, List.mem_singleton,
    Option.mem_toList, Option.map_eq_some_iff, Prod.mk.injEq, reduceCtorEq, false_and, and_false,
    exists_false, or_false] at hmem
  split at hmem <;> simp at hmem

/-! ## The two chains -/

theorem evidence_withFallback (corpus : Corpus) (options : UsageOptions) (fallback : Bool)
    (key : String) :
    (corpus.decide (options.withFallback fallback) key).evidence =
      (corpus.firstEvidence options.search (earlySearches key ++
        endSearches ((options.withFallback fallback).laterVariations key))).1.or
      (corpus.firstEvidence options.search (errorSearches options.errorNamespaces key)).1 := by
  rw [evidence_decide, chain_eq, firstEvidence_append]
  simp only [withFallback]

/-- The evidence of an error key is what the same text gives as an end of the key. -/
theorem exists_of_errorSearches (h : Key.segments key = first :: (interior ++ [last]))
    (herror : (corpus.firstEvidence options.search
      (errorSearches options.errorNamespaces key)).1 = some evidence) :
    evidence.strategy = .errorKey (Key.ofSegments (interior ++ [last])) ∧
      (corpus.firstEvidence options.search
        (endSearches [Key.ofSegments (interior ++ [last])])).1 =
          some ⟨.variation (Key.ofSegments (interior ++ [last])), evidence.file⟩ := by
  have hrest : Key.withoutErrorNamespace options.errorNamespaces key =
      if first ∈ options.errorNamespaces then some (Key.ofSegments (interior ++ [last]))
      else none := by
    unfold Key.withoutErrorNamespace
    rw [h]
    cases interior <;> rfl
  rw [errorSearches, hrest] at herror
  split at herror
  · exact firstEvidence_errorKey herror
  · cases herror

/-- What the searches find with the fallback turned off and turned on: early evidence, that of the
last segment if it is looked for, and that of an error key. Where there is no early evidence, that
of an error key comes with that of the last segment. -/
structure Parts (key : String) (off on early bare error : Option Evidence) : Prop where
  off_eq : off = early.or error
  on_eq : on = (early.or bare).or error
  early_ne : ∀ evidence, early = some evidence → ∀ text, evidence.strategy ≠ .errorKey text
  bare_strategy : ∀ evidence, bare = some evidence →
    evidence.strategy = .variation (Key.lastSegment key)
  error_bare : early = none → ∀ evidence, error = some evidence →
    (Key.segments key).length = 2 ∧ evidence.strategy = .errorKey (Key.lastSegment key) ∧
      bare = some ⟨.variation (Key.lastSegment key), evidence.file⟩

theorem exists_parts_of_single (h : Key.segments key = [first]) :
    ∃ early bare error, Parts key (corpus.decide (options.withFallback false) key).evidence
      (corpus.decide (options.withFallback true) key).evidence early bare error := by
  have herror : errorSearches options.errorNamespaces key = [] := by
    simp [errorSearches, Key.withoutErrorNamespace, h]
  refine ⟨(corpus.firstEvidence options.search (earlySearches key ++ endSearches [])).1, none, none,
    ?_, ?_, fun evidence => strategy_ne_errorKey, by simp, by simp⟩
  · rw [evidence_withFallback, laterVariations_of_single h, herror]
    rfl
  · rw [evidence_withFallback, laterVariations_of_single h, herror, Option.or_none]
    rfl

theorem evidence_off (h : Key.segments key = first :: (interior ++ [last])) :
    (corpus.decide (options.withFallback false) key).evidence =
      (corpus.firstEvidence options.search (earlySearches key ++
        endSearches ((Key.ends interior).map fun back => Key.ofSegments (back ++ [last])))).1.or
      (corpus.firstEvidence options.search (errorSearches options.errorNamespaces key)).1 := by
  rw [evidence_withFallback, laterVariations_off h]

theorem evidence_on (h : Key.segments key = first :: (interior ++ [last])) :
    (corpus.decide (options.withFallback true) key).evidence =
      ((corpus.firstEvidence options.search (earlySearches key ++
        endSearches ((Key.ends interior).map fun back => Key.ofSegments (back ++ [last])))).1.or
      (corpus.firstEvidence options.search (endSearches [last])).1).or
      (corpus.firstEvidence options.search (errorSearches options.errorNamespaces key)).1 := by
  have hends : ∀ texts, endSearches (texts ++ [last]) = endSearches texts ++ endSearches [last] :=
    fun texts => List.map_append
  rw [evidence_withFallback, laterVariations_on h, hends, ← List.append_assoc, firstEvidence_append]

/-- The error key is the first of the ends. If it is not the last one, it is looked for early. -/
theorem interior_eq_nil (h : Key.segments key = first :: (interior ++ [last]))
    (hearly : (corpus.firstEvidence options.search (earlySearches key ++
      endSearches ((Key.ends interior).map fun back => Key.ofSegments (back ++ [last])))).1 = none)
    (herror : (corpus.firstEvidence options.search
      (errorSearches options.errorNamespaces key)).1 = some evidence) :
    interior = [] := by
  obtain ⟨-, hend⟩ := exists_of_errorSearches h herror
  cases interior with
  | nil => rfl
  | cons next more =>
      obtain ⟨found, hfound⟩ := exists_of_endSearches_cons hend
      cases hearly.symm.trans hfound

/-- A key of several segments has its last segment as the last one of its ends. -/
theorem exists_parts_of_concat (h : Key.segments key = first :: (interior ++ [last])) :
    ∃ early bare error, Parts key (corpus.decide (options.withFallback false) key).evidence
      (corpus.decide (options.withFallback true) key).evidence early bare error := by
  have hlast : Key.lastSegment key = last := by
    rw [Key.lastSegment, h, ← List.cons_append, List.getLastD_concat]
  refine ⟨_, _, _, evidence_off h, evidence_on h, fun evidence => strategy_ne_errorKey, ?_, ?_⟩
  · intro evidence hbare
    rw [hlast]
    exact (firstEvidence_singleton.mp hbare).1
  · intro hearly evidence herror
    obtain rfl := interior_eq_nil h hearly herror
    obtain ⟨hstrategy, hbare⟩ := exists_of_errorSearches h herror
    have htext : Key.ofSegments ([] ++ [last]) = last := by simp [Key.ofSegments]
    rw [htext] at hstrategy hbare
    rw [hlast]
    exact ⟨by simp [h], hstrategy, hbare⟩

theorem exists_parts (corpus : Corpus) (options : UsageOptions) (key : String) :
    ∃ early bare error, Parts key (corpus.decide (options.withFallback false) key).evidence
      (corpus.decide (options.withFallback true) key).evidence early bare error := by
  obtain ⟨first, rest, hsegments⟩ := List.exists_cons_of_ne_nil (Key.segments_ne_nil key)
  rcases List.eq_nil_or_concat rest with rfl | ⟨interior, last, rfl⟩
  · exact exists_parts_of_single hsegments
  · exact exists_parts_of_concat (by rw [hsegments, List.concat_eq_append])

/-! ## What the fallback adds -/

/-- What turning the fallback on does to the evidence for a key. -/
structure AddsLastSegment (key : String) (off on : Option Evidence) : Prop where
  /-- Evidence that is not that of an error key stays. -/
  kept : ∀ evidence, off = some evidence → (∀ text, evidence.strategy ≠ .errorKey text) →
    on = some evidence
  /-- Only keys of two segments have evidence as error keys. It becomes that of an end. -/
  renamed : ∀ text file, off = some ⟨.errorKey text, file⟩ →
    (Key.segments key).length = 2 ∧ on = some ⟨.variation text, file⟩
  /-- Where there was no evidence, the last segment alone may be found. -/
  added : off = none →
    on = none ∨ ∃ file, on = some ⟨.variation (Key.lastSegment key), file⟩
  /-- With the fallback, an error key is never evidence. -/
  never : ∀ text file, on ≠ some ⟨.errorKey text, file⟩

/-- The fallback adds evidence of the last segment, and changes no other evidence but that of
error keys, which the last segment then stands for. -/
theorem addsLastSegment_decide (corpus : Corpus) (options : UsageOptions) (key : String) :
    AddsLastSegment key (corpus.decide (options.withFallback false) key).evidence
      (corpus.decide (options.withFallback true) key).evidence := by
  obtain ⟨early, bare, error, hparts⟩ := corpus.exists_parts options key
  rw [hparts.off_eq, hparts.on_eq]
  cases hearly : early with
  | some evidence =>
      have hne := hparts.early_ne evidence hearly
      refine ⟨fun _ h _ => h, ?_, by simp, ?_⟩
      · rintro text file ⟨⟩
        exact (hne text rfl).elim
      · rintro text file ⟨⟩
        exact hne text rfl
  | none =>
      simp only [Option.none_or]
      cases herror : error with
      | none =>
          rw [Option.or_none]
          refine ⟨by simp, by simp, fun _ => ?_, ?_⟩
          · cases hbare : bare with
            | none => exact .inl rfl
            | some evidence =>
                exact .inr ⟨evidence.file, by rw [← hparts.bare_strategy evidence hbare]⟩
          · intro text file hbare
            cases hparts.bare_strategy _ hbare
      | some evidence =>
          obtain ⟨hlength, hstrategy, hbare⟩ := hparts.error_bare hearly evidence herror
          rw [hbare, Option.some_or]
          refine ⟨?_, ?_, by simp, by simp⟩
          · rintro _ ⟨⟩ hne
            exact (hne _ hstrategy).elim
          · rintro text file ⟨⟩
            obtain rfl := Strategy.errorKey.inj hstrategy
            exact ⟨hlength, rfl⟩

end Corpus

end LocaleTidy
