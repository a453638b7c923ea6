import LocaleTidy.Proofs.Catalog.Pruning

/-!
# Empty objects

Pruning takes out objects that hold no leaf, and nothing else. It goes as far as it can: of all
ways to take out such objects it is the only one that leaves no object empty below the root.
-/

namespace LocaleTidy.Catalog

/-! ## Objects without leaves -/

/-- The members that are left when some objects without leaves are taken out, from among them or
from inside the objects that stay. What is no object stays as it is. -/
inductive Thinned : Json.Members → Json.Members → Prop where
  | nil : Thinned [] []
  | leaf {name : String} {value : Json} {members left : Json.Members}
      (h : value.isObject = false) (rest : Thinned members left) :
      Thinned ((name, value) :: members) ((name, value) :: left)
  | object {name : String} {inner innerLeft members left : Json.Members}
      (inside : Thinned inner innerLeft) (rest : Thinned members left) :
      Thinned ((name, .object inner) :: members) ((name, .object innerLeft) :: left)
  | gone {name : String} {inner members left : Json.Members}
      (h : memberLeaves inner = []) (rest : Thinned members left) :
      Thinned ((name, .object inner) :: members) left

variable {value : Json} {members left : Json.Members}

theorem valueLeaves_ne_nil (h : value.isObject = false) : valueLeaves value ≠ [] := by
  cases value <;> simp_all [valueLeaves, Json.isObject]

mutual

/-- Where no object inside a value is empty, only the empty object has no leaf. -/
theorem eq_of_valueLeaves_eq_nil :
    ∀ value : Json, NoEmptyInside value → valueLeaves value = [] → value = .object []
  | .object members, hn, h => by rw [eq_nil_of_memberLeaves_eq_nil members hn h]
  | .null, _, h | .bool _, _, h | .number _, _, h | .string _, _, h | .array _, _, h =>
      absurd h (valueLeaves_ne_nil rfl)

theorem eq_nil_of_memberLeaves_eq_nil :
    ∀ members : List (String × Json), NoEmptyMember members → memberLeaves members = [] →
      members = []
  | [], _, _ => rfl
  | (_, value) :: _, ⟨hne, hinside, _⟩, h => by
      have hvalue : valueLeaves value = [] := by
        have hfirst := (List.append_eq_nil_iff.mp h).1
        simpa using hfirst
      exact absurd (eq_of_valueLeaves_eq_nil value hinside hvalue) hne

end

theorem pruneMembers_eq_nil_iff : pruneMembers members = [] ↔ memberLeaves members = [] := by
  rw [← memberLeaves_pruneMembers]
  constructor
  · intro h
    rw [h, memberLeaves]
  · exact eq_nil_of_memberLeaves_eq_nil _ (noEmptyMember_pruneMembers members)

/-! ## Pruning thins -/

mutual

theorem thinned_pruneInside : ∀ (value : Json) {inner : Json.Members}, value = .object inner →
    Thinned inner (pruneMembers inner)
  | .object members, _, rfl => thinned_pruneMembers members

theorem thinned_pruneMembers :
    ∀ members : List (String × Json), Thinned members (pruneMembers members)
  | [] => .nil
  | (name, value) :: members => by
      have hrest := thinned_pruneMembers members
      cases hvalue : value with
      | object inner =>
          have hinside := thinned_pruneInside value hvalue
          by_cases he : pruneMembers inner = []
          · rw [pruneMembers_cons_of_empty (by rw [pruneValue, he])]
            exact .gone (pruneMembers_eq_nil_iff.mp he) hrest
          · rw [pruneMembers_cons_of_ne (by simpa [pruneValue] using he)]
            exact .object hinside hrest
      | null | bool _ | number _ | string _ | array _ =>
          rw [pruneMembers_cons_of_ne (by simp [pruneValue])]
          exact .leaf rfl hrest

end

/-- There is one way only to take out objects without leaves until no object is empty. -/
theorem Thinned.eq_pruneMembers (h : Thinned members left) (hn : NoEmptyMember left) :
    left = pruneMembers members := by
  induction h with
  | nil => rfl
  | @leaf name value members left h rest ih =>
      have hsame : pruneValue value = value := by
        cases value <;> simp_all [pruneValue, Json.isObject]
      have hne : value ≠ .object [] := by
        rintro rfl
        cases h
      rw [pruneMembers_cons_of_ne (by rwa [hsame]), hsame, ← ih hn.2.2]
  | @object name inner innerLeft members left inside rest ihInside ih =>
      obtain rfl := ihInside hn.2.1
      rw [pruneMembers_cons_of_ne (by rw [pruneValue]; exact hn.1), pruneValue, ← ih hn.2.2]
  | gone h rest ih =>
      rw [pruneMembers_cons_of_empty (by rw [pruneValue, pruneMembers_eq_nil_iff.mpr h]), ← ih hn]

/-! ## Arrays -/

mutual

/-- A value with other items in the arrays that are reached through objects. -/
def mapArrays (items : List Json → List Json) : Json → Json
  | .object members => .object (mapArraysIn items members)
  | .array old => .array (items old)
  | value => value

def mapArraysIn (items : List Json → List Json) : List (String × Json) → List (String × Json)
  | [] => []
  | (name, value) :: rest => (name, mapArrays items value) :: mapArraysIn items rest

end

theorem mapArrays_eq_empty_iff {items : List Json → List Json} :
    mapArrays items value = .object [] ↔ value = .object [] := by
  cases value with
  | object members => cases members <;> simp [mapArrays, mapArraysIn]
  | null | bool _ | number _ | string _ | array _ => simp [mapArrays]

mutual

theorem pruneValue_mapArrays (items : List Json → List Json) :
    ∀ value : Json, pruneValue (mapArrays items value) = mapArrays items (pruneValue value)
  | .object members => by
      simp only [mapArrays, pruneValue, pruneMembers_mapArraysIn items members]
  | .null | .bool _ | .number _ | .string _ | .array _ => rfl

/-- It makes no difference to pruning what is in an array. -/
theorem pruneMembers_mapArraysIn (items : List Json → List Json) :
    ∀ members : List (String × Json),
      pruneMembers (mapArraysIn items members) = mapArraysIn items (pruneMembers members)
  | [] => rfl
  | (name, value) :: members => by
      have hvalue := pruneValue_mapArrays items value
      have hrest := pruneMembers_mapArraysIn items members
      by_cases he : pruneValue value = .object []
      · rw [mapArraysIn, pruneMembers_cons_of_empty he,
          pruneMembers_cons_of_empty (hvalue.trans (mapArrays_eq_empty_iff.mpr he)), hrest]
      · have hne : pruneValue (mapArrays items value) ≠ .object [] := by
          rwa [hvalue, ne_eq, mapArrays_eq_empty_iff]
        rw [mapArraysIn, pruneMembers_cons_of_ne he, pruneMembers_cons_of_ne hne, hvalue, hrest,
          mapArraysIn]

end

/-! ## Whole catalogs -/

/-- A catalog without its empty objects. -/
structure PrunesTo (catalog pruned : Catalog) : Prop where
  keys_eq : pruned.keys = catalog.keys
  /-- Every leaf is where it was, with its value, and the leaves are in the same order. -/
  leaves_eq : pruned.leaves = catalog.leaves
  noEmpty : NoEmptyInside pruned.toJson
  thinned : Thinned catalog.members pruned.members
  /-- Only the root can end as an empty object, and it does if there is no leaf at all. -/
  root : pruned.toJson = .object [] ↔ catalog.leaves = []
  /-- What an array holds stays in it and decides nothing. -/
  arrays : ∀ items, pruneEmpty ⟨mapArraysIn items catalog.members⟩ =
    ⟨mapArraysIn items pruned.members⟩
  again : pruned.pruneEmpty = pruned
  /-- Nothing else takes out objects without leaves and leaves no object empty. -/
  only : ∀ left, Thinned catalog.members left → NoEmptyMember left → left = pruned.members

theorem prunesTo_pruneEmpty (catalog : Catalog) : PrunesTo catalog catalog.pruneEmpty where
  keys_eq := by
    rw [keys_eq, keys_eq, leaves, leaves, pruneEmpty, memberLeaves_pruneMembers]
  leaves_eq := memberLeaves_pruneMembers catalog.members
  noEmpty := noEmptyMember_pruneMembers catalog.members
  thinned := thinned_pruneMembers catalog.members
  root := by
    rw [toJson, pruneEmpty, Json.object.injEq, pruneMembers_eq_nil_iff, leaves]
  arrays items := congrArg Catalog.mk (pruneMembers_mapArraysIn items catalog.members)
  again := congrArg Catalog.mk (pruneMembers_pruneMembers catalog.members)
  only _ h hn := h.eq_pruneMembers hn

end LocaleTidy.Catalog
