import LocaleTidy.Proofs.Catalog.Erasing

/-!
# Erasing the keys of leaves

Where all names are plain, different leaves have different keys, and no key leads through another
one's leaf. Erasing keys of the catalog then takes out exactly their leaves.
-/

namespace LocaleTidy.Catalog

/-! ## A catalog without some of its leaves -/

mutual

/-- A value without its leaves whose paths are `gone`; of a leaf that is gone nothing is left. -/
def valueWithout (gone : List String → Bool) : Json → Option Json
  | .object members => some (.object (membersWithout gone members))
  | leaf => if gone [] then none else some leaf

def membersWithout (gone : List String → Bool) : List (String × Json) → List (String × Json)
  | [] => []
  | (name, value) :: rest =>
      match valueWithout (fun path => gone (name :: path)) value with
      | none => membersWithout gone rest
      | some value => (name, value) :: membersWithout gone rest

end

/-- The catalog without the leaves that have one of some keys. All objects stay, even those that
have no member left. -/
def withoutLeaves (keys : List String) (catalog : Catalog) : Catalog :=
  ⟨membersWithout (fun path => keyAt path ∈ keys) catalog.members⟩

mutual

theorem valueWithout_eq {gone leafGone : List String → Bool} :
    ∀ value : Json, value.UniqueNames →
      (∀ path inner, value.at? path = some inner →
        gone path = (!inner.isObject && leafGone path)) →
      valueWithout leafGone value = if gone [] then none else some (dropValue gone value)
  | .object members, hu, h => by
      have hroot : gone [] = false := by simpa [Json.isObject] using h [] _ rfl
      have hmembers : membersWithout leafGone members = dropMembers gone members := by
        apply membersWithout_eq members hu
        intro member hm path inner ha
        apply h (member.1 :: path) inner
        rwa [Json.at?_cons_object, hu.get?_of_mem hm, Option.bind_some]
      simp [valueWithout, dropValue, hmembers, hroot]
  | .null, _, h | .bool _, _, h | .number _, _, h | .string _, _, h | .array _, _, h => by
      have hroot := h [] _ rfl
      simp only [Json.isObject, Bool.not_false, Bool.true_and] at hroot
      simp [valueWithout, dropValue, hroot]

/-- If the paths that are gone lead to leaves, it is leaves that are taken out. -/
theorem membersWithout_eq {gone leafGone : List String → Bool} :
    ∀ members : List (String × Json), Json.UniqueInMembers members →
      (∀ member ∈ members, ∀ path inner, member.2.at? path = some inner →
        gone (member.1 :: path) = (!inner.isObject && leafGone (member.1 :: path))) →
      membersWithout leafGone members = dropMembers gone members
  | [], _, _ => rfl
  | (name, value) :: members, ⟨_, hv, hm⟩, h => by
      have hvalue := valueWithout_eq value hv (h (name, value) (by simp))
      have hrest := membersWithout_eq members hm fun member hin => h member (by simp [hin])
      by_cases hg : gone [name] <;> simp [membersWithout, dropMembers, hvalue, hrest, hg]

end

/-! ## Keys of leaves in a plain catalog -/

section Plain

variable {catalog : Catalog} {keys : List String}

theorem exists_leaf_of_mem_keys (hp : PlainNames catalog.toJson) {key : String}
    (hk : key ∈ catalog.keys) :
    ∃ leaf ∈ catalog.leaves, leaf.1 = Key.segments key ∧ keyAt leaf.1 = key := by
  rw [keys_eq] at hk
  obtain ⟨leaf, hl, rfl⟩ := List.mem_map.mp hk
  obtain ⟨hne, hplain⟩ := isPlain_of_mem_memberLeaves catalog.members hp leaf hl
  exact ⟨leaf, hl, (segments_keyAt hne hplain).symm, rfl⟩

theorem at?_segments_of_mem_keys (hu : catalog.toJson.UniqueNames)
    (hp : PlainNames catalog.toJson) {key : String} (hk : key ∈ catalog.keys) :
    ∃ leaf, catalog.toJson.at? (Key.segments key) = some leaf ∧ leaf.isObject = false := by
  obtain ⟨⟨path, leaf⟩, hl, rfl, -⟩ := exists_leaf_of_mem_keys hp hk
  exact ⟨leaf, (mem_leaves hu).mp hl⟩

/-- A leaf is named by keys of the catalog if and only if its own key is one of them. -/
theorem isNamed_iff_of_mem_leaves (hp : PlainNames catalog.toJson)
    (hk : ∀ key ∈ keys, key ∈ catalog.keys) {leaf : List String × Json}
    (hl : leaf ∈ catalog.leaves) : isNamed keys leaf.1 = true ↔ keyAt leaf.1 ∈ keys := by
  simp only [isNamed, List.any_eq_true, beq_iff_eq]
  constructor
  · intro h
    rcases h with ⟨key, hin, hs⟩
    obtain ⟨other, -, ho, rfl⟩ := exists_leaf_of_mem_keys hp (hk key hin)
    rwa [hs, ← ho]
  · intro hin
    obtain ⟨hne, hplain⟩ := isPlain_of_mem_memberLeaves catalog.members hp leaf hl
    exact ⟨_, hin, (segments_keyAt hne hplain).symm⟩

/-- No leaf lies below another one. -/
theorem eq_of_prefix_of_leaf {value first second : Json} {path other : List String}
    (hf : value.at? path = some first) (hl : first.isObject = false)
    (hs : value.at? other = some second) (h : path <+: other) : path = other := by
  rcases h with ⟨rest, rfl⟩
  rw [Json.at?_append, hf, Option.bind_some] at hs
  cases rest with
  | nil => simp
  | cons name rest => simp [Json.at?_cons_of_not_object hl] at hs

theorem covers_iff_of_mem_leaves (hu : catalog.toJson.UniqueNames)
    (hp : PlainNames catalog.toJson) (hk : ∀ key ∈ keys, key ∈ catalog.keys)
    {leaf : List String × Json} (hl : leaf ∈ catalog.leaves) :
    covers (isNamed keys) leaf.1 = true ↔ keyAt leaf.1 ∈ keys := by
  rw [covers_isNamed, ← isNamed_iff_of_mem_leaves hp hk hl]
  simp only [isNamed, List.any_eq_true, beq_iff_eq]
  constructor
  · intro h
    rcases h with ⟨key, hin, hpre⟩
    obtain ⟨first, hf, hno⟩ := at?_segments_of_mem_keys hu hp (hk key hin)
    have heq := eq_of_prefix_of_leaf hf hno ((mem_leaves hu).mp hl).1 hpre
    exact ⟨key, hin, heq.symm⟩
  · intro h
    rcases h with ⟨key, hin, heq⟩
    exact ⟨key, hin, heq ▸ List.prefix_refl _⟩

theorem leaves_eraseAll_plain (hu : catalog.toJson.UniqueNames) (hp : PlainNames catalog.toJson)
    (hk : ∀ key ∈ keys, key ∈ catalog.keys) :
    (catalog.eraseAll keys).2.leaves = catalog.leaves.filter fun leaf => keyAt leaf.1 ∉ keys := by
  rw [leaves_eraseAll keys hu]
  apply List.filter_congr
  intro leaf hl
  rw [Bool.eq_iff_iff, Bool.not_eq_true', Bool.eq_false_iff, ne_eq,
    covers_iff_of_mem_leaves hu hp hk hl]
  simp

theorem keys_eraseAll_plain (hu : catalog.toJson.UniqueNames) (hp : PlainNames catalog.toJson)
    (hk : ∀ key ∈ keys, key ∈ catalog.keys) :
    (catalog.eraseAll keys).2.keys = catalog.keys.filter fun key => key ∉ keys := by
  rw [keys_eq, keys_eq, leaves_eraseAll_plain hu hp hk, List.filter_map]
  rfl

theorem eraseAll_snd_eq (hu : catalog.toJson.UniqueNames) (hp : PlainNames catalog.toJson)
    (hk : ∀ key ∈ keys, key ∈ catalog.keys) :
    (catalog.eraseAll keys).2 = (catalog.withoutLeaves keys).pruneEmpty := by
  rw [eraseAll_snd keys hu, pruneEmpty, withoutLeaves]
  congr 2
  symm
  apply membersWithout_eq catalog.members hu
  intro member hm path inner ha
  have hat : catalog.toJson.at? (member.1 :: path) = some inner := by
    rw [toJson, Json.at?_cons_object, Json.UniqueInMembers.get?_of_mem hu hm, Option.bind_some, ha]
  cases hobject : inner.isObject with
  | true =>
      simp only [isNamed, Bool.not_true, Bool.false_and, List.any_eq_false, beq_iff_eq]
      intro key hin heq
      obtain ⟨leaf, hleaf, hno⟩ := at?_segments_of_mem_keys hu hp (hk key hin)
      rw [← heq, hat] at hleaf
      simp [← Option.some.inj hleaf, hobject] at hno
  | false =>
      have hl : (member.1 :: path, inner) ∈ catalog.leaves := (mem_leaves hu).mpr ⟨hat, hobject⟩
      have hiff := isNamed_iff_of_mem_leaves hp hk hl
      rw [Bool.eq_iff_iff, hiff]
      simp

end Plain

/-! ## The keys that were there -/

theorem at?_erase?_of_ne {key other : String} {catalog result : Catalog} {leaf : Json}
    (hu : catalog.toJson.UniqueNames) (h : catalog.erase? key = some result)
    (hkey : ∀ value, catalog.toJson.at? (Key.segments key) = some value → value.isObject = false)
    (hne : other ≠ key) (ha : catalog.toJson.at? (Key.segments other) = some leaf)
    (hl : leaf.isObject = false) : result.toJson.at? (Key.segments other) = some leaf := by
  have hstep := erase?_eq_some h
  have hleaves : memberLeaves result.members = (memberLeaves catalog.members).filter fun leaf =>
      !covers (· == Key.segments key) leaf.1 := by
    rw [← memberLeaves_pruneMembers, hstep.pruneMembers_eq hu, memberLeaves_pruneMembers,
      memberLeaves_dropMembers]
  have hthere : catalog.toJson.at? (Key.segments key) ≠ none := by
    rw [ne_eq, ← erase?_eq_none_iff, h]
    simp
  obtain ⟨value, hvalue⟩ := Option.ne_none_iff_exists'.mp hthere
  have hfree : covers (· == Key.segments key) (Key.segments other) = false := by
    rw [Bool.eq_false_iff, ne_eq, covers_iff]
    intro hx
    rcases hx with ⟨start, -, hpre, hs⟩
    obtain rfl := eq_of_beq hs
    exact hne (Key.segments_injective
      (eq_of_prefix_of_leaf hvalue (hkey value hvalue) ha hpre)).symm
  apply ((mem_leaves (hstep.uniqueInMembers hu)).mp _).1
  rw [leaves, hleaves, List.mem_filter]
  exact ⟨(mem_leaves hu).mpr ⟨ha, hl⟩, by simp [hfree]⟩

/-- Erasing a leaf takes its key away and leaves every other key that leads to no object. -/
theorem at?_erase? {catalog result : Catalog} {key other : String}
    (hu : catalog.toJson.UniqueNames) (h : catalog.erase? key = some result)
    (hkey : ∀ value, catalog.toJson.at? (Key.segments key) = some value → value.isObject = false)
    (hother : ∀ value, catalog.toJson.at? (Key.segments other) = some value →
      value.isObject = false) :
    result.toJson.at? (Key.segments other) =
      if other = key then none else catalog.toJson.at? (Key.segments other) := by
  have hstep := erase?_eq_some h
  by_cases hne : other = key
  · rw [if_pos hne, hne]
    exact hstep.at?_self hu
  rw [if_neg hne]
  cases ha : catalog.toJson.at? (Key.segments other) with
  | none => exact hstep.at?_eq_none hu ha
  | some leaf => exact at?_erase?_of_ne hu h hkey hne ha (hother leaf ha)

/-- Of keys that lead to no object, those that lead to a leaf are reported, each once. -/
theorem eraseEach_fst {keys : List String} {catalog : Catalog} (hu : catalog.toJson.UniqueNames)
    (hk : ∀ key ∈ keys, ∀ value, catalog.toJson.at? (Key.segments key) = some value →
      value.isObject = false) :
    (eraseEach keys catalog).1 =
      (keys.filter fun key => (catalog.toJson.at? (Key.segments key)).isSome).eraseDups := by
  induction keys generalizing catalog with
  | nil => simp [eraseEach]
  | cons key rest ih =>
      cases h : catalog.erase? key with
      | none =>
          rw [eraseEach_cons_of_none h, ih hu fun other ho => hk other (by simp [ho])]
          simp [erase?_eq_none_iff.mp h]
      | some result =>
          have hsome : (catalog.toJson.at? (Key.segments key)).isSome = true := by
            rw [Option.isSome_iff_ne_none, ne_eq, ← erase?_eq_none_iff, h]
            simp
          have hleft : ∀ other ∈ rest, result.toJson.at? (Key.segments other) =
              if other = key then none else catalog.toJson.at? (Key.segments other) :=
            fun other ho => at?_erase? hu h (hk key (by simp)) (hk other (by simp [ho]))
          have hrest : ∀ other ∈ rest, ∀ value,
              result.toJson.at? (Key.segments other) = some value → value.isObject = false := by
            intro other ho value hv
            rw [hleft other ho] at hv
            split at hv
            · simp at hv
            · exact hk other (by simp [ho]) value hv
          rw [eraseEach_cons_of_some h, ih ((erase?_eq_some h).uniqueInMembers hu) hrest,
            List.filter_cons, if_pos hsome, List.eraseDups_cons, List.filter_filter]
          have hfilter : rest.filter (fun other =>
                (result.toJson.at? (Key.segments other)).isSome) =
              rest.filter (fun other =>
                !other == key && (catalog.toJson.at? (Key.segments other)).isSome) := by
            apply List.filter_congr
            intro other ho
            rw [hleft other ho]
            by_cases hne : other = key <;> simp [hne]
          rw [hfilter]

/-! ## Erasing keys of the catalog -/

/-- What erasing keys does that all belong to leaves: exactly these leaves are taken out, and
then the empty objects. Every other leaf stays at its path and in its place, and each key is
reported once. -/
structure ErasesLeaves (catalog : Catalog) (keys : List String)
    (result : List String × Catalog) : Prop where
  tree : result.2 = (catalog.withoutLeaves keys).pruneEmpty
  noEmpty : NoEmptyInside result.2.toJson
  leaves_eq : result.2.leaves = catalog.leaves.filter fun leaf => keyAt leaf.1 ∉ keys
  keys_eq : result.2.keys = catalog.keys.filter fun key => key ∉ keys
  erased : result.1 = keys.eraseDups

theorem eraseAll_erasesLeaves (catalog : Catalog) (keys : List String)
    (hu : catalog.toJson.UniqueNames) (hp : PlainNames catalog.toJson)
    (hk : ∀ key ∈ keys, key ∈ catalog.keys) :
    ErasesLeaves catalog keys (catalog.eraseAll keys) := by
  refine ⟨eraseAll_snd_eq hu hp hk, ?_, leaves_eraseAll_plain hu hp hk,
    keys_eraseAll_plain hu hp hk, ?_⟩
  · rw [eraseAll_snd keys hu]
    exact noEmptyMember_pruneMembers _
  · have hobject : ∀ key ∈ keys, ∀ value,
        catalog.toJson.at? (Key.segments key) = some value → value.isObject = false := by
      intro key hin value hv
      obtain ⟨leaf, hl, hno⟩ := at?_segments_of_mem_keys hu hp (hk key hin)
      rw [hl] at hv
      exact Option.some.inj hv ▸ hno
    have hall : keys.filter (fun key => (catalog.toJson.at? (Key.segments key)).isSome) = keys := by
      apply List.filter_eq_self.mpr
      intro key hin
      obtain ⟨leaf, hl, -⟩ := at?_segments_of_mem_keys hu hp (hk key hin)
      simp [hl]
    exact (eraseEach_fst hu hobject).trans (by rw [hall])

/-- Of two leaves in one object and one beside it, two are erased, and one of them is asked for
twice. -/
theorem eraseAll_nested :
    ErasesLeaves
      ⟨[("a", .object [("b", .string "x"), ("c", .object [("d", .null)])]), ("e", .object []),
        ("f", .array [])]⟩
      ["a.c.d", "f", "a.c.d"]
      (["a.c.d", "f"], ⟨[("a", .object [("b", .string "x")])]⟩) :=
  eraseAll_erasesLeaves
    ⟨[("a", .object [("b", .string "x"), ("c", .object [("d", .null)])]), ("e", .object []),
      ("f", .array [])]⟩
    ["a.c.d", "f", "a.c.d"]
    (by simp [toJson, Json.UniqueNames, Json.UniqueInMembers, Json.UniqueInItems])
    (by simp [toJson, PlainNames, PlainMembers, IsPlain])
    (by decide)

end LocaleTidy.Catalog
