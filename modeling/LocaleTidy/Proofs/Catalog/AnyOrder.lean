import LocaleTidy.Proofs.Catalog.Changes

/-!
# Changes in any order

Catalogs are changed by erasing keys and by pruning. Up to empty objects, what a run of changes
leaves depends only on which keys it names: not on their order, on how often they are named, or on
how they are spread over the changes.
-/

namespace LocaleTidy.Catalog

open Json (UniqueNames UniqueInMembers)

variable {catalog : Catalog}

/-! ## The keys of a change -/

def Change.keys : Change → List String
  | .erase key => [key]
  | .eraseAll keys => keys
  | .prune => []

/-! ## One change -/

theorem Change.apply_erase (key : String) (catalog : Catalog) :
    (Change.erase key).apply catalog = (eraseEach [key] catalog).2 := by
  rw [apply]
  cases h : catalog.erase? key with
  | none => rw [eraseEach_cons_of_none h, eraseEach, Option.getD_none]
  | some result => rw [eraseEach_cons_of_some h, eraseEach, Option.getD_some]

/-- Up to empty objects, a change takes out what the segments of its keys lead to. -/
theorem Change.pruneMembers_apply (hu : catalog.toJson.UniqueNames) (change : Change) :
    pruneMembers (change.apply catalog).members =
      pruneMembers (dropMembers (isNamed change.keys) catalog.members) := by
  cases change with
  | erase key =>
      rw [apply_erase, keys]
      exact pruneMembers_eraseEach [key] hu
  | eraseAll named => rw [apply, eraseAll_snd named hu, pruneMembers_pruneMembers, keys]
  | prune =>
      rw [apply, pruneEmpty, pruneMembers_pruneMembers, keys, isNamed_nil, dropMembers_nothing]

/-! ## Runs of changes -/

theorem uniqueNames_changed (hu : catalog.toJson.UniqueNames) (changes : List Change) :
    (catalog.changed changes).toJson.UniqueNames := by
  induction changes generalizing catalog with
  | nil => exact hu
  | cons change changes ih => exact ih (change.uniqueNames_apply hu)

/-- Up to empty objects, a run of changes takes out what the segments of all its keys lead to. -/
theorem pruneMembers_changed (hu : catalog.toJson.UniqueNames) (changes : List Change) :
    pruneMembers (catalog.changed changes).members =
      pruneMembers (dropMembers (isNamed (changes.flatMap Change.keys)) catalog.members) := by
  induction changes generalizing catalog with
  | nil => rw [List.flatMap_nil, isNamed_nil, dropMembers_nothing, changed, List.foldl_nil]
  | cons change changes ih =>
      calc
        pruneMembers (catalog.changed (change :: changes)).members
          = pruneMembers (dropMembers (isNamed (changes.flatMap Change.keys))
              (change.apply catalog).members) := ih (change.uniqueNames_apply hu)
        _ = pruneMembers (dropMembers (isNamed (changes.flatMap Change.keys))
              (dropMembers (isNamed change.keys) catalog.members)) := by
            rw [← pruneMembers_drop_prune, change.pruneMembers_apply hu, pruneMembers_drop_prune]
        _ = pruneMembers (dropMembers (isNamed ((change :: changes).flatMap Change.keys))
              catalog.members) := by
            rw [dropMembers_dropMembers, List.flatMap_cons, isNamed_append]

/-- A run of changes before some keys are erased leaves as much as if its own keys were erased
along with them. -/
theorem eraseAll_changed (hu : catalog.toJson.UniqueNames) (changes : List Change)
    (keys : List String) :
    ((catalog.changed changes).eraseAll keys).2 =
      (catalog.eraseAll (changes.flatMap Change.keys ++ keys)).2 := by
  rw [eraseAll_snd keys (uniqueNames_changed hu changes), eraseAll_snd _ hu, isNamed_append,
    ← dropMembers_dropMembers, ← pruneMembers_drop_prune, pruneMembers_changed hu,
    pruneMembers_drop_prune]

/-! ## Erasing sets of keys -/

theorem eraseAll_congr (hu : catalog.toJson.UniqueNames) {keys other : List String}
    (h : ∀ key, key ∈ other ↔ key ∈ keys) :
    (catalog.eraseAll other).2 = (catalog.eraseAll keys).2 := by
  rw [eraseAll_snd other hu, eraseAll_snd keys hu, isNamed_congr h]

/-- What erasing keys leaves depends on the set of the keys alone. Their order does not matter,
nor how often they are named, nor whether some are erased in a second call. -/
theorem eraseAll_in_any_order (hu : catalog.toJson.UniqueNames) (keys more : List String) :
    (∀ other : List String, (∀ key, key ∈ other ↔ key ∈ keys) →
      (catalog.eraseAll other).2 = (catalog.eraseAll keys).2) ∧
    ((catalog.eraseAll keys).2.eraseAll more).2 = (catalog.eraseAll (keys ++ more)).2 ∧
    ((catalog.eraseAll keys).2.eraseAll keys).2 = (catalog.eraseAll keys).2 := by
  have htwice : ∀ later : List String, ((catalog.eraseAll keys).2.eraseAll later).2 =
      (catalog.eraseAll (keys ++ later)).2 := by
    intro later
    simpa [changed, Change.apply, Change.keys] using eraseAll_changed hu [.eraseAll keys] later
  refine ⟨fun other h => eraseAll_congr hu h, htwice more, ?_⟩
  rw [htwice keys]
  exact eraseAll_congr hu (by simp)

/-- A path and a start of it are both named, and another one runs through a leaf. One object is
empty from the beginning, and one has a name without letters. -/
theorem eraseAll_in_any_order_nested :
    let catalog : Catalog :=
      ⟨[("a", .object [("b", .object [("c", .string "x")]), ("e", .object [])]),
        ("", .object [("", .null)]), ("a.b", .array [.object []]), ("d", .bool true)]⟩
    let left : Catalog := ⟨[("a.b", .array [.object []]), ("d", .bool true)]⟩
    catalog.toJson.UniqueNames ∧
      (catalog.eraseAll ["a.b", "a.b.c", ".", "d.x"]).2 = left ∧
      (catalog.eraseAll [".", "d.x", "a.b.c", "a.b", "."]).2 = left ∧
      ((catalog.eraseAll ["a.b", "a.b.c", ".", "d.x"]).2.eraseAll ["d"]).2 =
        ⟨[("a.b", .array [.object []])]⟩ := by
  intro catalog left
  have hu : catalog.toJson.UniqueNames := by
    simp [catalog, toJson, UniqueNames, UniqueInMembers, Json.UniqueInItems]
  obtain ⟨hsame, htwice, -⟩ :=
    eraseAll_in_any_order hu ["a.b", "a.b.c", ".", "d.x"] ["d"]
  have hleft : (catalog.eraseAll ["a.b", "a.b.c", ".", "d.x"]).2 = left := rfl
  have hset : ∀ key, key ∈ [".", "d.x", "a.b.c", "a.b", "."] ↔
      key ∈ ["a.b", "a.b.c", ".", "d.x"] := by grind
  exact ⟨hu, hleft, (hsame _ hset).trans hleft, htwice⟩

end LocaleTidy.Catalog
