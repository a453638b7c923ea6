import LocaleTidy.Proofs.Catalog.ErasingLeaves
import LocaleTidy.Proofs.Catalog.RoundTrip
import LocaleTidy.Proofs.Usage.Classification

/-!
# Leaves that a clean-up keeps

A key is erased by following its segments, and these may lead past the leaf that the key was made
for: to another leaf, or to an object with used leaves in it. Whether a leaf is kept depends on
the segments of the unused keys alone.
-/

namespace LocaleTidy.Catalog

/-- A leaf is kept if and only if no segments of an erased key are the beginning of its path. -/
theorem at?_eraseAll_iff {catalog : Catalog} (hu : catalog.toJson.UniqueNames)
    (keys : List String) {path : List String} {value : Json}
    (hl : (path, value) ∈ catalog.leaves) :
    (catalog.eraseAll keys).2.toJson.at? path = some value ↔
      ∀ key ∈ keys, ¬ Key.segments key <+: path := by
  have hleaf : value.isObject = false := ((mem_leaves hu).mp hl).2
  have hkept : (path, value) ∈ (catalog.eraseAll keys).2.leaves ↔
      (catalog.eraseAll keys).2.toJson.at? path = some value := by
    rw [mem_leaves (uniqueNames_eraseAll keys hu)]
    exact and_iff_left hleaf
  rw [← hkept, leaves_eraseAll keys hu, List.mem_filter, and_iff_right hl, Bool.not_eq_true',
    Bool.eq_false_iff, ne_eq, covers_isNamed]
  simp

variable {text : String} {catalog : Catalog} {corpus : Corpus} {options : UsageOptions}
  {path : List String} {value : Json}

/-- A leaf whose key is used is kept if and only if no segments of an unused key are the
beginning of its path. In a catalog of plain names every such leaf is kept. -/
theorem used_leaf_kept_iff (hparse : parse text = .ok catalog)
    (hl : (path, value) ∈ catalog.leaves)
    (hused : (corpus.decide options (keyAt path)).isUsed = true) :
    ((catalog.eraseAll (corpus.unusedKeys options catalog.keys)).2.toJson.at? path = some value ↔
      ∀ key ∈ corpus.unusedKeys options catalog.keys, ¬ Key.segments key <+: path) ∧
    (PlainNames catalog.toJson →
      (catalog.eraseAll (corpus.unusedKeys options catalog.keys)).2.toJson.at? path =
        some value) := by
  have hu := (readable_of_parse hparse).unique
  have hiff := at?_eraseAll_iff hu (corpus.unusedKeys options catalog.keys) hl
  refine ⟨hiff, fun hp => hiff.mpr ?_⟩
  intro key hkey hpre
  have hlisted : ∀ key ∈ corpus.unusedKeys options catalog.keys, key ∈ catalog.keys :=
    fun key hk => ((corpus.mem_unusedKeys options catalog.keys).mp hk).1
  have hgone : keyAt path ∈ corpus.unusedKeys options catalog.keys :=
    (covers_iff_of_mem_leaves hu hp hlisted hl).mp (covers_isNamed.mpr ⟨key, hkey, hpre⟩)
  have hunused := ((corpus.mem_unusedKeys options catalog.keys).mp hgone).2
  rw [hused] at hunused
  cases hunused

/-- A used leaf beside an unused one in an object, with nothing else on its path. -/
theorem used_leaf_kept_beside :
    let catalog : Catalog := ⟨[("a", .object [("b", .string "x"), ("c", .string "y")])]⟩
    let unused := (Corpus.ofFiles [⟨⟨"src/app.ts"⟩, "'a.b'", false⟩]).unusedKeys
      ⟨⟨"t", [], Pattern.defaultLimit⟩, [], false⟩ catalog.keys
    ((catalog.eraseAll unused).2.toJson.at? ["a", "b"] = some (.string "x") ↔
        ∀ key ∈ unused, ¬ Key.segments key <+: ["a", "b"]) ∧
      (catalog.eraseAll unused).2.toJson.at? ["a", "b"] = some (.string "x") := by
  intro catalog unused
  have hread : Json.Readable Json.maxDepth catalog.toJson := by
    constructor <;> simp [catalog, toJson, Json.maxDepth, Json.UniqueNames, Json.UniqueInMembers,
      Json.Writable, Json.WritableMembers, Json.Untagged, Json.UntaggedMembers, Json.numberTag]
  have hused : ((Corpus.ofFiles [⟨⟨"src/app.ts"⟩, "'a.b'", false⟩]).decide
      ⟨⟨"t", [], Pattern.defaultLimit⟩, [], false⟩ (keyAt ["a", "b"])).isUsed = true := by
    decide +kernel
  have hkept := used_leaf_kept_iff (parse_toText hread)
    (show (["a", "b"], Json.string "x") ∈ catalog.leaves by
      simp [catalog, leaves, memberLeaves, valueLeaves]) hused
  exact ⟨hkept.1, hkept.2 (by simp [catalog, toJson, PlainNames, PlainMembers, IsPlain])⟩

/-- The unused key of one leaf leads to an object, and the used leaf in that object is lost. -/
theorem used_leaf_lost :
    ¬ ∀ (text : String) (catalog : Catalog) (corpus : Corpus) (options : UsageOptions)
        (path : List String) (value : Json), parse text = .ok catalog →
      (path, value) ∈ catalog.leaves → (corpus.decide options (keyAt path)).isUsed = true →
      (catalog.eraseAll (corpus.unusedKeys options catalog.keys)).2.toJson.at? path =
        some value := by
  intro hkept
  have hread : Json.Readable Json.maxDepth (toJson ⟨[("a.b", .string "x"),
      ("a", .object [("b", .object [("c", .string "y")])])]⟩) := by
    constructor <;> simp [toJson, Json.maxDepth, Json.UniqueNames, Json.UniqueInMembers,
      Json.Writable, Json.WritableMembers, Json.Untagged, Json.UntaggedMembers, Json.numberTag]
  have hused : ((Corpus.ofFiles [⟨⟨"src/app.ts"⟩, "'a.b.c'", false⟩]).decide
      ⟨⟨"t", [], Pattern.defaultLimit⟩, [], false⟩ "a.b.c").isUsed = true := by
    decide +kernel
  have hunused : ((Corpus.ofFiles [⟨⟨"src/app.ts"⟩, "'a.b.c'", false⟩]).decide
      ⟨⟨"t", [], Pattern.defaultLimit⟩, [], false⟩ "a.b").isUsed = false := by
    decide +kernel
  have hkeys : Catalog.keys ⟨[("a.b", .string "x"),
      ("a", .object [("b", .object [("c", .string "y")])])]⟩ = ["a.b", "a.b.c"] := by
    decide
  have hthere := hkept _ _ _ _ ["a", "b", "c"] (.string "y") (parse_toText hread)
    (by simp [leaves, memberLeaves, valueLeaves]) hused
  rw [Corpus.unusedKeys_eq, hkeys, List.filter_cons_of_pos (by simp [hunused]),
    List.filter_cons_of_neg (by simp [hused]), List.filter_nil] at hthere
  have hlost : ((eraseAll ["a.b"] ⟨[("a.b", .string "x"), ("a", .object
      [("b", .object [("c", .string "y")])])]⟩).2.toJson.at? ["a", "b", "c"]).isNone := by
    decide
  rw [hthere] at hlost
  cases hlost

end LocaleTidy.Catalog
