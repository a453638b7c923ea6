import Mathlib.Data.List.Forall2
import LocaleTidy.Proofs.Usage.Decision

/-!
# More source, laxer options

A key that is used stays used when files are added to the source, when their texts grow and when
files that did not count come to count. It stays used as well when more functions bind a namespace,
when more first segments may be left out, and when the last segment alone is looked for.
-/

namespace LocaleTidy

/-- The second file holds the text of the first one, and counts wherever that does. -/
structure SourceFile.Extends (file larger : SourceFile) : Prop where
  counts : file.excluded = false → larger.excluded = false
  content : ∃ front back, larger.content = front ++ file.content ++ back

/-- The files of the first corpus are extended in the second, in their order and with others
anywhere between them. -/
def Corpus.Grows (corpus larger : Corpus) : Prop :=
  List.SublistForall₂ SourceFile.Extends corpus.files larger.files

/-- The second options look for whatever the first ones look for. -/
structure UsageOptions.Loosens (options looser : UsageOptions) : Prop where
  function : looser.search.function = options.search.function
  namespaceFunctions : options.search.namespaceFunctions ⊆ looser.search.namespaceFunctions
  errorNamespaces : options.errorNamespaces ⊆ looser.errorNamespaces
  bareLeafFallback : options.bareLeafFallback = true → looser.bareLeafFallback = true

variable {corpus larger : Corpus} {options looser : UsageOptions} {file other : SourceFile}
  {query : Query} {key : String}

theorem SourceFile.Extends.shows (h : file.Extends other) {text : String}
    (hshow : Shows file.content text) : Shows other.content text := by
  obtain ⟨front, back, hcontent⟩ := h.content
  have hpart : file.content.toList <:+: other.content.toList :=
    ⟨front.toList, back.toList, by simp [hcontent]⟩
  exact hshow.trans hpart

/-- Every file of a corpus that grows is extended by some file. -/
theorem Corpus.Grows.exists_extends (h : corpus.Grows larger) (hfile : file ∈ corpus.files) :
    ∃ other ∈ larger.files, file.Extends other := by
  unfold Corpus.Grows at h
  generalize corpus.files = files, larger.files = others at h hfile ⊢
  induction h with
  | nil => cases hfile
  | cons hfirst _ ih =>
      rcases List.mem_cons.mp hfile with rfl | hrest
      · exact ⟨_, List.mem_cons_self, hfirst⟩
      · obtain ⟨other, hother, hextends⟩ := ih hrest
        exact ⟨other, List.mem_cons_of_mem _ hother, hextends⟩
  | cons_right _ ih =>
      obtain ⟨other, hother, hextends⟩ := ih hfile
      exact ⟨other, List.mem_cons_of_mem _ hother, hextends⟩

namespace UsageOptions.Loosens

variable (hl : options.Loosens looser)

include hl

theorem mem_queries (h : query ∈ options.queries key) : query ∈ looser.queries key := by
  rw [Corpus.mem_queries] at h ⊢
  rcases h with hindex | hfull | hspace | ⟨back, hback, rfl⟩ | ⟨rest, hrest, rfl⟩
  · exact .inl hindex
  · exact .inr (.inl hfull)
  · exact .inr (.inr (.inl hspace))
  · rw [Corpus.mem_laterVariations] at hback
    refine .inr (.inr (.inr (.inl ⟨back, Corpus.mem_laterVariations.mpr ⟨hback.1, ?_⟩, rfl⟩)))
    exact hback.2.imp_left hl.bareLeafFallback
  · obtain ⟨first, hfirst, hkey⟩ := Key.withoutErrorNamespace_eq_some_iff.mp hrest
    exact .inr (.inr (.inr (.inr ⟨rest,
      Key.withoutErrorNamespace_eq_some_iff.mpr ⟨first, hl.errorNamespaces hfirst, hkey⟩, rfl⟩)))

theorem shownIn (he : file.Extends other) (h : query.ShownIn options.search file) :
    query.ShownIn looser.search other := by
  cases query with
  | indexed key =>
      obtain ⟨hcounts, variant, hvariant, hshow⟩ := h
      exact ⟨he.counts hcounts, variant, hvariant, he.shows hshow⟩
  | reference text =>
      obtain ⟨hcounts, form, hform, hshow⟩ := h
      exact ⟨he.counts hcounts, form, hl.function ▸ hform, he.shows hshow⟩
  | namespaced key space =>
      obtain ⟨⟨name, hname, opening, hopening, closing, hclosing, hbinds⟩, form, hform, hshow⟩ := h
      exact ⟨⟨name, hl.namespaceFunctions hname, opening, hopening, closing, hclosing,
        he.shows hbinds⟩, form, hl.function ▸ hform, he.shows hshow⟩

end UsageOptions.Loosens

namespace Corpus

/-- Where every pattern compiles, a key is used if some search for it is shown what it looks
for. -/
theorem isUsed_decide_iff
    (hcompile : ∀ pattern ∈ options.patterns key, (options.search.compile pattern).isOk = true) :
    (corpus.decide options key).isUsed = true ↔
      ∃ query ∈ options.queries key, ∃ file ∈ corpus.files,
        query.ShownIn options.search file := by
  have hused : (corpus.decide options key).isUsed =
      (corpus.firstEvidence options.search (options.chain key)).1.isSome := by
    simp only [decide, Verdict.isUsed]
  rw [hused, firstEvidence_isSome_iff, ← UsageOptions.queries]
  apply exists_congr
  intro query
  apply and_congr_right
  intro hquery
  exact run_isFound_iff hquery fun pattern hpattern =>
    hcompile pattern (List.mem_flatMap.mpr ⟨query, hquery, hpattern⟩)

/-- A used key stays used when the source grows and the options become laxer. -/
theorem isUsed_decide_of_grows
    (hcompile : ∀ pattern ∈ options.patterns key, (options.search.compile pattern).isOk = true)
    (hlooser : ∀ pattern ∈ looser.patterns key, (looser.search.compile pattern).isOk = true)
    (hg : corpus.Grows larger) (hl : options.Loosens looser)
    (hused : (corpus.decide options key).isUsed = true) :
    (larger.decide looser key).isUsed = true := by
  obtain ⟨query, hquery, file, hfile, hshown⟩ := (isUsed_decide_iff hcompile).mp hused
  obtain ⟨other, hother, hextends⟩ := hg.exists_extends hfile
  exact (isUsed_decide_iff hlooser).mpr
    ⟨query, hl.mem_queries hquery, other, hother, hl.shownIn hextends hshown⟩

/-- A call beside the binding of its namespace is found as well in a longer text, in a file that
counts by then, behind another file and by options that bind with a second function. -/
theorem isUsed_decide_bound :
    let corpus : Corpus := .ofFiles [⟨⟨"b.ts"⟩, "u('a'); t('b')", true⟩]
    let larger : Corpus :=
      .ofFiles [⟨⟨"a.ts"⟩, "", false⟩, ⟨⟨"b.ts"⟩, "// u('a'); t('b'); v('a')", false⟩]
    corpus.Grows larger ∧
      (larger.decide ⟨⟨"t", ["v", "u"], Pattern.defaultLimit⟩, [], true⟩ "a.b").isUsed = true := by
  intro corpus larger
  have hgrows : corpus.Grows larger :=
    .cons_right (.cons ⟨fun _ => rfl, "// ", "; v('a')", by decide⟩ .nil)
  have hloosens : UsageOptions.Loosens ⟨⟨"t", ["u"], Pattern.defaultLimit⟩, [], false⟩
      ⟨⟨"t", ["v", "u"], Pattern.defaultLimit⟩, [], true⟩ :=
    ⟨rfl, by simp, by simp, by simp⟩
  refine ⟨hgrows, isUsed_decide_of_grows ?_ ?_ hgrows hloosens ?_⟩
  · decide +kernel
  · decide +kernel
  · decide +kernel

end Corpus

end LocaleTidy
