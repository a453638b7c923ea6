import LocaleTidy.Proofs.Usage.Exclusion

/-!
# Keys that differ in their indices

The search for an indexed key looks for the key with any indices in its interior. So it ends the
same for all keys that differ in these alone, and since a quoted key shows the key itself, it comes
upon a file no later than the search for the key as it is.
-/

namespace LocaleTidy

variable {corpus : Corpus} {options : SearchOptions} {query : Query} {file : SourceFile}
  {front : List SourceFile} {accepts : String → Bool}

/-! ## The first file -/

/-- The search ends with a file that shows what is looked for, behind files that count and do not
show it. -/
structure Query.FirstFound (query : Query) (corpus : Corpus) (options : SearchOptions)
    (front : List SourceFile) (file : SourceFile) : Prop where
  outcome : query.run corpus options = .found file.path
  inOrder : front ++ [file] <+: corpus.evidenceFiles
  shown : query.ShownIn options file
  notBefore : ∀ other ∈ front, ¬ query.ShownIn options other

/-- The search goes through the files that count and accepts those that show what is looked for. -/
structure Query.Scans (query : Query) (corpus : Corpus) (options : SearchOptions)
    (accepts : String → Bool) : Prop where
  run_eq : query.run corpus options = firstMatch corpus.evidenceFiles accepts
  accepts_iff : ∀ file ∈ corpus.evidenceFiles,
    (accepts file.content = true ↔ query.ShownIn options file)

theorem firstMatch_of_notBefore {back : List SourceFile}
    (hbefore : ∀ other ∈ front, accepts other.content = false)
    (haccepts : accepts file.content = true) :
    firstMatch (front ++ file :: back) accepts = .found file.path := by
  have hfind : (front ++ file :: back).find? (fun file => accepts file.content) = some file :=
    List.find?_eq_some_iff_append.mpr
      ⟨haccepts, front, back, rfl, fun other ho => by simp [hbefore other ho]⟩
  rw [firstMatch, hfind]

/-- A file that shows what is looked for is the first one or comes after it. -/
theorem Query.Scans.exists_firstFound (h : query.Scans corpus options accepts)
    (hin : front ++ [file] <+: corpus.evidenceFiles) (hshown : query.ShownIn options file) :
    ∃ earlier other, query.FirstFound corpus options earlier other ∧
      earlier ++ [other] <+: front ++ [file] := by
  have hmem : ∀ other ∈ front ++ [file], other ∈ corpus.evidenceFiles :=
    fun other ho => hin.subset ho
  have hsome : ((front ++ [file]).find? fun file => accepts file.content).isSome = true := by
    rw [List.find?_isSome]
    exact ⟨file, by simp, (h.accepts_iff file (hmem file (by simp))).mpr hshown⟩
  obtain ⟨other, hother⟩ := Option.isSome_iff_exists.mp hsome
  obtain ⟨haccepts, earlier, later, hsplit, hbefore⟩ := List.find?_eq_some_iff_append.mp hother
  have hwithin : earlier ++ [other] <+: front ++ [file] := ⟨later, by simp [hsplit]⟩
  have hshows : ∀ before ∈ earlier ++ [other],
      (accepts before.content = true ↔ query.ShownIn options before) :=
    fun before hb => h.accepts_iff before (hmem before (hwithin.subset hb))
  refine ⟨earlier, other, ⟨?_, hwithin.trans hin, ?_, ?_⟩, hwithin⟩
  · obtain ⟨back, hback⟩ := hwithin.trans hin
    rw [h.run_eq, ← hback, List.append_assoc, List.singleton_append]
    exact firstMatch_of_notBefore (fun before hb => by simpa using hbefore before hb) haccepts
  · exact (hshows other (by simp)).mp haccepts
  · intro before hb
    rw [← hshows before (by simp [hb])]
    simpa using hbefore before hb

theorem Query.Scans.exists_of_found (h : query.Scans corpus options accepts) {path : Path}
    (hfound : query.run corpus options = .found path) :
    ∃ front file, query.FirstFound corpus options front file ∧ file.path = path := by
  obtain ⟨file, hmem, haccepts⟩ := firstMatch_isFound_iff.mp ⟨path, h.run_eq ▸ hfound⟩
  obtain ⟨front, back, hsplit⟩ := List.append_of_mem hmem
  have hin : front ++ [file] <+: corpus.evidenceFiles := ⟨back, by simp [hsplit]⟩
  obtain ⟨earlier, other, hfirst, -⟩ :=
    h.exists_firstFound hin ((h.accepts_iff file hmem).mp haccepts)
  exact ⟨earlier, other, hfirst, SearchOutcome.found.inj (hfirst.outcome.symm.trans hfound)⟩

/-! ## References and indexed keys -/

namespace Corpus

theorem scans_reference {text : String} (hcompile : (options.compile
      (Pattern.anyOf (Pattern.references options.function text))).isOk = true) :
    ∃ accepts, (Query.reference text).Scans corpus options accepts := by
  obtain ⟨regex, hregex, hfound⟩ := compile_references hcompile
  refine ⟨regex.foundIn, ?_, fun file hfile => ?_⟩
  · rw [Query.run, findReference, searchPattern, hregex]
  · rw [hfound, Query.ShownIn, and_iff_right (mem_evidenceFiles.mp hfile).2]

theorem scans_indexed {key : String} (hindex : Key.isDynamicIndex key = true)
    (hcompile : (options.compile (Pattern.generalized key)).isOk = true) :
    ∃ accepts, (Query.indexed key).Scans corpus options accepts := by
  obtain ⟨regex, hregex, hfound⟩ := compile_generalized hindex hcompile
  refine ⟨regex.foundIn, ?_, fun file hfile => ?_⟩
  · rw [Query.run, findIndexed, hregex]
  · rw [hfound, Query.ShownIn, and_iff_right (mem_evidenceFiles.mp hfile).2]

theorem shows_of_mem_quotedForms {function text form content : String}
    (hform : form ∈ quotedForms function text) (hshow : Shows content form) :
    Shows content text := by
  have hliteral : ∀ mark, text.toList <:+: (literalForm mark text).toList :=
    fun mark => ⟨[mark], [mark], by simp [literalForm]⟩
  have hcall : ∀ opening closing,
      text.toList <:+: (callForm function opening text closing).toList :=
    fun opening closing =>
      ⟨(function ++ "(" ++ opening.toString).toList, [closing, ')'], by simp [callForm]⟩
  have hinside : text.toList <:+: form.toList := by
    simp only [quotedForms, List.mem_cons, List.not_mem_nil, or_false] at hform
    rcases hform with rfl | rfl | rfl | rfl | rfl
    · exact hliteral _
    · exact hliteral _
    · exact hliteral _
    · exact hcall _ _
    · exact hcall _ _
  exact hinside.trans hshow

/-- A file that refers to a dynamic key shows the key with the indices it has. -/
theorem shownIn_indexed {key : String} (hindex : Key.isDynamicIndex key = true)
    (h : (Query.reference key).ShownIn options file) :
    (Query.indexed key).ShownIn options file := by
  obtain ⟨hcounts, form, hform, hshow⟩ := h
  obtain ⟨first, interior, last, hsegments, -⟩ := Key.isDynamicIndex_iff.mp hindex
  exact ⟨hcounts, key, .refl hsegments, shows_of_mem_quotedForms hform hshow⟩

/-- Keys that differ in interior indices alone are looked for in the same way. -/
theorem findIndexed_of_variant {key other : String} (h : IndexVariant key other) :
    corpus.findIndexed options other = corpus.findIndexed options key := by
  rw [findIndexed, findIndexed, Pattern.generalized_eq_of_variant h, h.firstSegment_eq]

theorem scans_reference_of_found {text : String} {path : Path}
    (h : corpus.findReference options text = .found path) :
    ∃ accepts, (Query.reference text).Scans corpus options accepts := by
  refine scans_reference (isOk_compile_iff.mpr fun problem hproblem => ?_)
  rw [findReference, searchPattern_eq_failed.mpr hproblem] at h
  cases h

/-! ## Verdicts -/

theorem evidence_dynamicIndex_iff {options : UsageOptions} {key : String} {path : Path} :
    (corpus.decide options key).evidence = some ⟨.dynamicIndex, path⟩ ↔
      Key.isDynamicIndex key = true ∧ corpus.findIndexed options.search key = .found path := by
  constructor
  · intro h
    obtain ⟨query, hmem, hfound⟩ := exists_query_of_evidence h
    cases UsageOptions.mem_chain.mp hmem with
    | dynamicIndex hindex => exact ⟨hindex, hfound⟩
  · intro h
    obtain ⟨hindex, hfound⟩ := h
    rw [evidence_decide, UsageOptions.chain, if_pos hindex]
    simp only [List.cons_append, firstEvidence, Query.run, hfound]

/-- What the search for a dynamic key has to do with the searches for other keys and for the key
as it is. -/
structure IndexSearch (corpus : Corpus) (options : UsageOptions) (key : String) : Prop where
  /-- Keys that differ in interior indices alone are found together, in the same file. -/
  siblings : ∀ other, IndexVariant key other →
    Key.isDynamicIndex other = true ∧
      corpus.findIndexed options.search other = corpus.findIndexed options.search key ∧
      ∀ path, (corpus.decide options other).evidence = some ⟨.dynamicIndex, path⟩ ↔
        (corpus.decide options key).evidence = some ⟨.dynamicIndex, path⟩
  /-- Where a file refers to the key as it is, that file or one before it is found first. -/
  dominates : (options.search.compile (Pattern.generalized key)).isOk = true →
    ∀ path, corpus.findReference options.search key = .found path →
      ∃ front file, file.path = path ∧
        (Query.reference key).FirstFound corpus options.search front file ∧
        ∃ earlier other, (Query.indexed key).FirstFound corpus options.search earlier other ∧
          earlier ++ [other] <+: front ++ [file]
  /-- So the key as it is never becomes the evidence. -/
  notFull : (options.search.compile (Pattern.generalized key)).isOk = true →
    ∀ path, (corpus.decide options key).evidence ≠ some ⟨.fullKey, path⟩

theorem exists_earlier_of_reference {key : String} {path : Path}
    (hindex : Key.isDynamicIndex key = true)
    (hcompile : (options.compile (Pattern.generalized key)).isOk = true)
    (h : corpus.findReference options key = .found path) :
    ∃ front file, file.path = path ∧ (Query.reference key).FirstFound corpus options front file ∧
      ∃ earlier other, (Query.indexed key).FirstFound corpus options earlier other ∧
        earlier ++ [other] <+: front ++ [file] := by
  obtain ⟨_, hreference⟩ := scans_reference_of_found h
  obtain ⟨_, hindexed⟩ := @scans_indexed corpus options key hindex hcompile
  obtain ⟨front, file, hfirst, hpath⟩ := hreference.exists_of_found h
  exact ⟨front, file, hpath, hfirst,
    hindexed.exists_firstFound hfirst.inOrder (shownIn_indexed hindex hfirst.shown)⟩

/-- A dynamic key is found along with its siblings, and no later than it would be found as it
is. -/
theorem indexSearch_of_isDynamicIndex (corpus : Corpus) (options : UsageOptions) {key : String}
    (hindex : Key.isDynamicIndex key = true) : IndexSearch corpus options key where
  siblings := by
    intro other hvariant
    have hsame : corpus.findIndexed options.search other = corpus.findIndexed options.search key :=
      findIndexed_of_variant hvariant
    refine ⟨hvariant.isDynamicIndex_eq.trans hindex, hsame, fun path => ?_⟩
    rw [evidence_dynamicIndex_iff, evidence_dynamicIndex_iff, hvariant.isDynamicIndex_eq, hsame]
  dominates := fun hcompile path => exists_earlier_of_reference hindex hcompile
  notFull := by
    intro hcompile path hevidence
    obtain ⟨query, hmem, hfound⟩ := exists_query_of_evidence hevidence
    cases UsageOptions.mem_chain.mp hmem with
    | fullKey =>
        obtain ⟨_, _, _, _, earlier, other, hfirst, _⟩ :=
          exists_earlier_of_reference hindex hcompile hfound
        have hindexed := evidence_dynamicIndex_iff.mpr ⟨hindex, hfirst.outcome⟩
        rw [hevidence] at hindexed
        cases hindexed

/-- A key with two indices is quoted in the second file. In the first one it stands with other
indices, one of them with a zero in front, and that is where its sibling is found as well. -/
theorem indexSearch_rows :
    let options : UsageOptions := ⟨⟨"t", [], Pattern.defaultLimit⟩, [], false⟩
    let corpus : Corpus :=
      .ofFiles [⟨⟨"a.ts"⟩, "r.12.03.+", false⟩, ⟨⟨"b.ts"⟩, "t('r.0.7.+')", false⟩]
    Key.isDynamicIndex "r.0.7.+" = true ∧
      corpus.findReference options.search "r.0.7.+" = .found ⟨"b.ts"⟩ ∧
      (corpus.decide options "r.0.7.+").evidence = some ⟨.dynamicIndex, ⟨"a.ts"⟩⟩ ∧
      (corpus.decide options "r.5.007.+").evidence = some ⟨.dynamicIndex, ⟨"a.ts"⟩⟩ := by
  intro options corpus
  have hindex : Key.isDynamicIndex "r.0.7.+" = true := by decide +kernel
  have hvariant : IndexVariant "r.0.7.+" "r.5.007.+" :=
    ⟨"r", ["0", "7"], "+", ["5", "007"], by decide +kernel,
      .cons (by decide +kernel) (.cons (by decide +kernel) .nil), by decide +kernel⟩
  have hkey : (corpus.decide options "r.0.7.+").evidence =
      some ⟨.dynamicIndex, ⟨"a.ts"⟩⟩ := by decide +kernel
  have hsearch := indexSearch_of_isDynamicIndex corpus options hindex
  exact ⟨hindex, by decide +kernel, hkey, ((hsearch.siblings _ hvariant).2.2 _).mpr hkey⟩

end Corpus

end LocaleTidy
