import LocaleTidy.Proofs.Catalog.Changes

/-!
# Erasing one key

Erasing a key takes out the member that its segments lead to. From there emptiness goes up: an
object on the way goes exactly if all its members have gone. Everything else stays in its place.
-/

namespace LocaleTidy.Catalog

open Json (UniqueNames UniqueInMembers)

variable {members before after inner : Json.Members} {name : String} {path rest : List String}
  {value : Json} {gone : List String → Bool} {catalog : Catalog}

/-! ## Paths that go together -/

/-- The paths that are gone once the member at the end of a path is taken out: the path itself
and, of the objects on the way to it, exactly those that this leaves without a member. -/
structure Vacates (value : Json) (path : List String) (gone : List String → Bool) : Prop where
  onTheWay : ∀ start, gone start = true → start ≠ [] ∧ start <+: path
  reached : gone path = true
  emptied : ∀ start, start ≠ [] → start <+: path → start ≠ path →
    (gone start = true ↔
      ∀ other inner, value.at? (start ++ [other]) = some inner → gone (start ++ [other]) = true)

theorem Vacates.gone_nil (h : Vacates value path gone) : gone [] = false := by
  cases hg : gone [] with
  | false => rfl
  | true => exact ((h.onTheWay [] hg).1 rfl).elim

/-- The paths that are gone below one member, and whether it goes itself. -/
def goneBelow (name : String) (self : Bool) (gone : List String → Bool) : List String → Bool
  | [] => false
  | first :: more => first == name && if more = [] then self else gone more

theorem goneBelow_self (self : Bool) : goneBelow name self gone [name] = self := by
  simp [goneBelow]

theorem goneBelow_below (self : Bool) (hne : rest ≠ []) :
    goneBelow name self gone (name :: rest) = gone rest := by
  simp [goneBelow, hne]

theorem Vacates.single (members : Json.Members) (name : String) :
    Vacates (.object members) [name] (goneBelow name true fun _ => false) where
  onTheWay := by
    intro start hg
    cases start with
    | nil => simp [goneBelow] at hg
    | cons first more => simp_all [goneBelow]
  reached := goneBelow_self true
  emptied := by
    intro start hne hp hshort
    cases start with
    | nil => exact (hne rfl).elim
    | cons first more =>
        obtain ⟨rfl, hmore⟩ := List.cons_prefix_cons.mp hp
        exact (hshort (by rw [List.prefix_nil.mp hmore])).elim

/-- One step up: the object on the way goes if and only if all its members have gone. -/
theorem Vacates.below (h : Vacates (.object inner) rest gone) (hne : rest ≠ []) {self : Bool}
    (hget : members.get? name = some (.object inner))
    (hself : self = true ↔ ∀ other ∈ inner.map Prod.fst, gone [other] = true) :
    Vacates (.object members) (name :: rest) (goneBelow name self gone) where
  onTheWay := by
    intro start hg
    cases start with
    | nil => simp [goneBelow] at hg
    | cons first more =>
        simp only [goneBelow, Bool.and_eq_true, beq_iff_eq] at hg
        obtain ⟨rfl, hg⟩ := hg
        refine ⟨by simp, List.cons_prefix_cons.mpr ⟨rfl, ?_⟩⟩
        by_cases hmore : more = []
        · simp [hmore]
        · exact (h.onTheWay more (by simpa [hmore] using hg)).2
  reached := by
    rw [goneBelow_below self hne]
    exact h.reached
  emptied := by
    intro start hstart hp hshort
    cases start with
    | nil => exact (hstart rfl).elim
    | cons first more =>
        obtain ⟨rfl, hmore⟩ := List.cons_prefix_cons.mp hp
        have hat : ∀ other, (Json.object members).at? (first :: more ++ [other]) =
            (Json.object inner).at? (more ++ [other]) := by
          intro other
          rw [List.cons_append, Json.at?_cons_object, hget, Option.bind_some]
        have hbelow : ∀ other, goneBelow first self gone (first :: more ++ [other]) =
            gone (more ++ [other]) := fun other => goneBelow_below self (by simp)
        simp only [hat, hbelow]
        by_cases hnil : more = []
        · subst hnil
          rw [goneBelow_self, hself]
          simp only [List.nil_append, ← Json.isSome_at?_singleton, Option.isSome_iff_exists,
            forall_exists_index]
        · rw [goneBelow_below self hnil]
          exact h.emptied more hnil hmore fun heq => hshort (by rw [heq])

/-! ## What is left -/

theorem dropMembers_goneBelow (hb : name ∉ before.map Prod.fst) (ha : name ∉ after.map Prod.fst)
    {self : Bool} (hnil : gone [] = false) :
    dropMembers (goneBelow name self gone) (before ++ (name, value) :: after) =
      before ++ (if self then [] else [(name, dropValue gone value)]) ++ after := by
  rw [dropMembers_only hb ha fun other ho path => by simp [goneBelow, ho], goneBelow_self]
  cases self with
  | true => rfl
  | false =>
      have hbelow : (fun path => goneBelow name false gone (name :: path)) = gone := by
        funext path
        by_cases hp : path = []
        · rw [hp, goneBelow_self, hnil]
        · rw [goneBelow_below false hp]
      rw [hbelow]

theorem dropMembers_eq_nil_iff :
    dropMembers gone members = [] ↔ ∀ other ∈ members.map Prod.fst, gone [other] = true := by
  induction members with
  | nil => simp [dropMembers]
  | cons member members ih =>
      rcases member with ⟨name, value⟩
      by_cases h : gone [name] <;> simp [dropMembers, h, ih]

/-- What erasing a path leaves is the tree without the paths that go together. -/
theorem Erased.exists_vacates {result : Json.Members} (h : Erased path members result)
    (hu : UniqueInMembers members) :
    ∃ gone, Vacates (.object members) path gone ∧ result = dropMembers gone members := by
  induction h with
  | @last before after name value h =>
      obtain ⟨hb, ha, -, -⟩ := hu.split
      refine ⟨goneBelow name true fun _ => false, .single _ name, ?_⟩
      rw [dropMembers_goneBelow hb ha rfl]
      simp
  | @emptied before after inner name rest h hin ih =>
      obtain ⟨hb, ha, hv, -⟩ := hu.split
      obtain ⟨gone, hgone, hnone⟩ := ih hv
      refine ⟨goneBelow name true gone, hgone.below hin.ne_nil
        (Json.Members.get?_append_cons_self h) ?_, ?_⟩
      · simpa using dropMembers_eq_nil_iff.mp hnone.symm
      · rw [dropMembers_goneBelow hb ha hgone.gone_nil]
        simp
  | @inside before after inner new name rest h hin hne ih =>
      obtain ⟨hb, ha, hv, -⟩ := hu.split
      obtain ⟨gone, hgone, rfl⟩ := ih hv
      refine ⟨goneBelow name false gone, hgone.below hin.ne_nil
        (Json.Members.get?_append_cons_self h) ?_, ?_⟩
      · simpa using (not_congr dropMembers_eq_nil_iff).mp hne
      · rw [dropMembers_goneBelow hb ha hgone.gone_nil]
        simp [dropValue]

theorem Erased.noEmptyMember {result : Json.Members} (h : Erased path members result)
    (hn : NoEmptyMember members) : NoEmptyMember result := by
  induction path generalizing members result with
  | nil => exact (h.ne_nil rfl).elim
  | cons name rest ih =>
      rw [noEmptyMember_iff] at hn ⊢
      intro member hm
      rcases h.mem hm with hold | ⟨inner, new, hold, rfl, hne, hin⟩
      · exact hn member hold
      · have hinner : NoEmptyMember inner := (hn _ hold).2
        exact ⟨by simpa using hne, ih hin hinner⟩

/-! ## One key -/

/-- What is left of a catalog after a key is erased, whether it was there or not. -/
structure ErasesKey (key : String) (catalog left : Catalog) : Prop where
  /-- The key is erased exactly if its segments lead to a member. -/
  erased_iff : (catalog.erase? key).isSome = true ↔
    ∃ value, catalog.toJson.at? (Key.segments key) = some value
  unchanged : catalog.erase? key = none → left = catalog
  /-- Otherwise the member goes, with the objects on the way to it that this leaves empty. -/
  changed : (catalog.erase? key).isSome = true →
    ∃ gone, Vacates catalog.toJson (Key.segments key) gone ∧
      left.members = dropMembers gone catalog.members
  again : left.erase? key = none
  noEmpty : NoEmptyInside catalog.toJson → NoEmptyInside left.toJson

/-- Erasing a key takes out the member that its segments lead to and the objects that this leaves
empty, and nothing else. -/
theorem erasesKey_apply (hu : catalog.toJson.UniqueNames) (key : String) :
    ErasesKey key catalog ((Change.erase key).apply catalog) := by
  have hfound : (catalog.erase? key).isSome = true ↔
      ∃ value, catalog.toJson.at? (Key.segments key) = some value := by
    rw [Option.isSome_iff_ne_none, ne_eq, erase?_eq_none_iff, ← ne_eq, Option.ne_none_iff_exists']
  cases h : catalog.erase? key with
  | none =>
      have hleft : (Change.erase key).apply catalog = catalog := by rw [Change.apply, h]; rfl
      rw [hleft]
      exact ⟨hfound, fun _ => rfl, by simp [h], h, id⟩
  | some result =>
      have hleft : (Change.erase key).apply catalog = result := by rw [Change.apply, h]; rfl
      have hstep := erase?_eq_some h
      rw [hleft]
      exact {
        erased_iff := hfound
        unchanged := by simp [h]
        changed := fun _ => hstep.exists_vacates hu
        again := erase?_eq_none_iff.mpr (hstep.at?_self hu)
        noEmpty := hstep.noEmptyMember }

/-- Two objects on the way go, and a third one stays for the sake of an object that was empty
before. -/
theorem erasesKey_nested :
    let catalog : Catalog :=
      ⟨[("r", .object [("a", .object [("b", .object [("c", .null)])]), ("e", .object [])]),
        ("s", .array [.object []])]⟩
    catalog.toJson.UniqueNames ∧
      ErasesKey "r.a.b.c" catalog
        ⟨[("r", .object [("e", .object [])]), ("s", .array [.object []])]⟩ := by
  intro catalog
  have hu : catalog.toJson.UniqueNames := by
    simp [catalog, toJson, UniqueNames, UniqueInMembers, Json.UniqueInItems]
  exact ⟨hu, erasesKey_apply hu "r.a.b.c"⟩

end LocaleTidy.Catalog
