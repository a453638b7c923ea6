import LocaleTidy.Proofs.Clean.Safety

/-!
# Unused keys that a clean-up leaves

A clean-up erases by segments what the keys were listed by. What it leaves has an unused key
again if and only if some leaf with an unused key is on no path that it follows.
-/

namespace LocaleTidy.Catalog

/-- Every leaf whose key is one of some keys is reached by erasing them. -/
def Addressed (catalog : Catalog) (keys : List String) : Prop :=
  ∀ leaf ∈ catalog.leaves, keyAt leaf.1 ∈ keys → ∃ key ∈ keys, Key.segments key <+: leaf.1

theorem addressed_of_plainNames {catalog : Catalog} (hp : PlainNames catalog.toJson)
    (keys : List String) : catalog.Addressed keys := by
  intro leaf hl hk
  obtain ⟨hne, hplain⟩ := isPlain_of_mem_memberLeaves catalog.members hp leaf hl
  exact ⟨_, hk, by simp [segments_keyAt hne hplain]⟩

variable {catalog : Catalog} (corpus : Corpus) (options : UsageOptions)

/-- After the unused keys are erased, no key is unused if and only if each leaf with an unused
key was reached. -/
theorem unusedKeys_eraseAll_eq_nil_iff (hu : catalog.toJson.UniqueNames) :
    corpus.unusedKeys options
        (catalog.eraseAll (corpus.unusedKeys options catalog.keys)).2.keys = [] ↔
      catalog.Addressed (corpus.unusedKeys options catalog.keys) := by
  have hmem : ∀ leaf ∈ catalog.leaves, (keyAt leaf.1 ∈ corpus.unusedKeys options catalog.keys ↔
      (corpus.decide options (keyAt leaf.1)).isUsed = false) := by
    intro leaf hl
    have hkey : keyAt leaf.1 ∈ catalog.keys := by
      rw [keys_eq]
      exact List.mem_map_of_mem hl
    rw [corpus.mem_unusedKeys, and_iff_right hkey]
  rw [corpus.unusedKeys_eq options (keys _), List.filter_eq_nil_iff, keys_eq,
    leaves_eraseAll _ hu]
  constructor
  · intro h leaf hl hk
    apply Classical.byContradiction
    intro hfree
    have hleft := h (keyAt leaf.1) (List.mem_map_of_mem (List.mem_filter.mpr
      ⟨hl, by simpa [← Bool.not_eq_true, covers_isNamed] using hfree⟩))
    simp [(hmem leaf hl).mp hk] at hleft
  · intro h key hk
    obtain ⟨leaf, hin, rfl⟩ := List.mem_map.mp hk
    obtain ⟨hl, hfree⟩ := List.mem_filter.mp hin
    intro hunused
    have hcovered := covers_isNamed.mpr (h leaf hl ((hmem leaf hl).mpr (by simpa using hunused)))
    simp [hcovered] at hfree

end LocaleTidy.Catalog
