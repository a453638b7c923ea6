import LocaleTidy.Proofs.Catalog.Leaves

/-!
# Taking members out and pruning

Members are taken out of a tree by the paths that lead to them, and pruning takes out the empty
objects that this leaves or that were there before. Neither touches any other leaf, and it does
not matter whether a tree is pruned before members are taken out of it or only afterwards.
-/

namespace LocaleTidy.Catalog

open Json (UniqueNames UniqueInMembers)

/-! ## Taking members out -/

mutual

/-- A value without the members whose paths are `gone`. -/
def dropValue (gone : List String → Bool) : Json → Json
  | .object members => .object (dropMembers gone members)
  | value => value

def dropMembers (gone : List String → Bool) : List (String × Json) → List (String × Json)
  | [] => []
  | (name, value) :: rest =>
      if gone [name] then dropMembers gone rest
      else (name, dropValue (fun path => gone (name :: path)) value) :: dropMembers gone rest

end

/-- Whether a path goes through a member that is gone, or to one. -/
def covers (gone : List String → Bool) : List String → Bool
  | [] => false
  | name :: rest => gone [name] || covers (fun path => gone (name :: path)) rest

theorem covers_iff {gone : List String → Bool} {path : List String} :
    covers gone path = true ↔ ∃ start, start ≠ [] ∧ start <+: path ∧ gone start = true := by
  induction path generalizing gone with
  | nil =>
      simp only [covers, Bool.false_eq_true, false_iff]
      intro hx
      rcases hx with ⟨start, hne, hp, -⟩
      exact hne (List.prefix_nil.mp hp)
  | cons name rest ih =>
      simp only [covers, Bool.or_eq_true, ih]
      constructor
      · intro hx
        rcases hx with h | ⟨start, -, hp, hg⟩
        · exact ⟨[name], by simp, by simp, h⟩
        · exact ⟨name :: start, by simp, by simpa using hp, hg⟩
      · intro hx
        rcases hx with ⟨start, hne, hp, hg⟩
        cases start with
        | nil => exact absurd rfl hne
        | cons other start =>
            obtain ⟨rfl, hr⟩ := List.cons_prefix_cons.mp hp
            by_cases hs : start = []
            · exact .inl (by simpa [hs] using hg)
            · exact .inr ⟨start, hs, hr, hg⟩

theorem dropMembers_append (gone : List String → Bool) (before after : Json.Members) :
    dropMembers gone (before ++ after) = dropMembers gone before ++ dropMembers gone after := by
  induction before with
  | nil => rfl
  | cons member rest ih =>
      rcases member with ⟨name, value⟩
      by_cases h : gone [name] <;> simp [dropMembers, h, ih]

mutual

theorem dropValue_nothing : ∀ value : Json, dropValue (fun _ => false) value = value
  | .object members => by rw [dropValue, dropMembers_nothing members]
  | .null | .bool _ | .number _ | .string _ | .array _ => rfl

theorem dropMembers_nothing :
    ∀ members : List (String × Json), dropMembers (fun _ => false) members = members
  | [] => rfl
  | (name, value) :: members => by
      simp [dropMembers, dropValue_nothing value, dropMembers_nothing members]

end

theorem dropMembers_eq_self {gone : List String → Bool} {members : Json.Members}
    (h : ∀ name ∈ members.map Prod.fst, ∀ path, gone (name :: path) = false) :
    dropMembers gone members = members := by
  induction members with
  | nil => rfl
  | cons member rest ih =>
      rcases member with ⟨name, value⟩
      have hname : (fun path => gone (name :: path)) = fun _ => false :=
        funext (h name (by simp))
      rw [dropMembers, h name (by simp), hname, dropValue_nothing,
        ih fun other ho => h other (by simp [ho])]
      simp

mutual

theorem dropValue_dropValue (first second : List String → Bool) :
    ∀ value : Json, dropValue second (dropValue first value) =
      dropValue (fun path => first path || second path) value
  | .object members => by simp only [dropValue, dropMembers_dropMembers first second members]
  | .null | .bool _ | .number _ | .string _ | .array _ => rfl

theorem dropMembers_dropMembers (first second : List String → Bool) :
    ∀ members : List (String × Json), dropMembers second (dropMembers first members) =
      dropMembers (fun path => first path || second path) members
  | [] => rfl
  | (name, value) :: members => by
      have hrest := dropMembers_dropMembers first second members
      have hvalue := dropValue_dropValue (fun path => first (name :: path))
        (fun path => second (name :: path)) value
      by_cases hf : first [name]
      · simp [dropMembers, hf, hrest]
      · by_cases hs : second [name] <;> simp [dropMembers, hf, hs, hrest, hvalue]

end

/-! ## Pruning -/

theorem pruneMembers_cons_of_empty {value : Json} (h : pruneValue value = .object [])
    (name : String) (rest : Json.Members) :
    pruneMembers ((name, value) :: rest) = pruneMembers rest := by
  simp [pruneMembers, h]

theorem pruneMembers_cons_of_ne {value : Json} (h : pruneValue value ≠ .object [])
    (name : String) (rest : Json.Members) :
    pruneMembers ((name, value) :: rest) = (name, pruneValue value) :: pruneMembers rest := by
  rw [pruneMembers]
  split
  · contradiction
  · rfl

theorem pruneMembers_append (before after : Json.Members) :
    pruneMembers (before ++ after) = pruneMembers before ++ pruneMembers after := by
  induction before with
  | nil => rfl
  | cons member rest ih =>
      rcases member with ⟨name, value⟩
      by_cases h : pruneValue value = .object []
      · simp only [List.cons_append, pruneMembers_cons_of_empty h, ih]
      · simp only [List.cons_append, pruneMembers_cons_of_ne h, ih]

/-- What pruning makes of an object depends only on what it makes of its members. -/
theorem pruneMembers_cons_congr {first second : Json} (h : pruneValue first = pruneValue second)
    (name : String) (rest : Json.Members) :
    pruneMembers ((name, first) :: rest) = pruneMembers ((name, second) :: rest) := by
  simp only [pruneMembers, h]

mutual

theorem pruneValue_drop_prune (gone : List String → Bool) :
    ∀ value : Json, pruneValue (dropValue gone (pruneValue value)) =
      pruneValue (dropValue gone value)
  | .object members => by
      simp only [pruneValue, dropValue, pruneMembers_drop_prune gone members]
  | .null | .bool _ | .number _ | .string _ | .array _ => rfl

/-- It does not matter whether members are pruned before some are taken out. -/
theorem pruneMembers_drop_prune (gone : List String → Bool) :
    ∀ members : List (String × Json), pruneMembers (dropMembers gone (pruneMembers members)) =
      pruneMembers (dropMembers gone members)
  | [] => rfl
  | (name, value) :: members => by
      have hrest := pruneMembers_drop_prune gone members
      have hvalue := pruneValue_drop_prune (fun path => gone (name :: path)) value
      by_cases he : pruneValue value = .object []
      · rw [pruneMembers_cons_of_empty he, hrest]
        by_cases hg : gone [name]
        · simp [dropMembers, hg]
        · rw [he] at hvalue
          simp only [dropMembers, hg, Bool.false_eq_true, if_false]
          rw [pruneMembers_cons_of_empty hvalue.symm]
      · rw [pruneMembers_cons_of_ne he]
        by_cases hg : gone [name]
        · simp [dropMembers, hg, hrest]
        · simp only [dropMembers, hg, Bool.false_eq_true, if_false]
          rw [pruneMembers_cons_congr hvalue, ← List.singleton_append, pruneMembers_append,
            hrest, ← pruneMembers_append, List.singleton_append]

end

theorem pruneMembers_pruneMembers (members : Json.Members) :
    pruneMembers (pruneMembers members) = pruneMembers members := by
  simpa [dropMembers_nothing] using pruneMembers_drop_prune (fun _ => false) members

/-! ## Leaves -/

mutual

theorem valueLeaves_pruneValue : ∀ value : Json, valueLeaves (pruneValue value) = valueLeaves value
  | .object members => by simp only [pruneValue, valueLeaves, memberLeaves_pruneMembers members]
  | .null | .bool _ | .number _ | .string _ | .array _ => rfl

theorem memberLeaves_pruneMembers :
    ∀ members : List (String × Json), memberLeaves (pruneMembers members) = memberLeaves members
  | [] => rfl
  | (name, value) :: members => by
      have hvalue := valueLeaves_pruneValue value
      have hrest := memberLeaves_pruneMembers members
      by_cases he : pruneValue value = .object []
      · rw [he, valueLeaves, memberLeaves] at hvalue
        rw [pruneMembers_cons_of_empty he, hrest, memberLeaves, ← hvalue]
        rfl
      · rw [pruneMembers_cons_of_ne he, memberLeaves, memberLeaves, hvalue, hrest]

end

mutual

theorem valueLeaves_dropValue (gone : List String → Bool) :
    ∀ value : Json, valueLeaves (dropValue gone value) =
      (valueLeaves value).filter fun leaf => !covers gone leaf.1
  | .object members => by
      simp only [dropValue, valueLeaves, memberLeaves_dropMembers gone members]
  | .null | .bool _ | .number _ | .string _ | .array _ => rfl

/-- The leaves that are left are those whose paths go through no member that is gone. -/
theorem memberLeaves_dropMembers (gone : List String → Bool) :
    ∀ members : List (String × Json), memberLeaves (dropMembers gone members) =
      (memberLeaves members).filter fun leaf => !covers gone leaf.1
  | [] => rfl
  | (name, value) :: members => by
      have hrest := memberLeaves_dropMembers gone members
      by_cases hg : gone [name]
      · have hnone :
            (valueLeaves value).filter (fun leaf => !covers gone (name :: leaf.1)) = [] := by
          simp [covers, hg]
        simp only [dropMembers, hg, if_true, memberLeaves, List.filter_append, List.filter_map,
          Function.comp_def, hrest, hnone, List.map_nil, List.nil_append]
      · have hvalue := valueLeaves_dropValue (fun path => gone (name :: path)) value
        simp only [dropMembers, hg, Bool.false_eq_true, if_false, memberLeaves, hvalue, hrest,
          List.filter_append, List.filter_map, Function.comp_def, covers, Bool.false_or]

end

/-! ## Names -/

theorem names_pruneMembers (members : Json.Members) :
    ((pruneMembers members).map Prod.fst).Sublist (members.map Prod.fst) := by
  induction members with
  | nil => exact .slnil
  | cons member rest ih =>
      rcases member with ⟨name, value⟩
      by_cases he : pruneValue value = .object []
      · simpa [pruneMembers_cons_of_empty he] using ih.cons name
      · simpa [pruneMembers_cons_of_ne he] using ih

mutual

theorem uniqueNames_pruneValue : ∀ value : Json, value.UniqueNames → (pruneValue value).UniqueNames
  | .object members, h => uniqueInMembers_pruneMembers members h
  | .null, h | .bool _, h | .number _, h | .string _, h | .array _, h => h

theorem uniqueInMembers_pruneMembers :
    ∀ members : List (String × Json), UniqueInMembers members →
      UniqueInMembers (pruneMembers members)
  | [], h => h
  | (name, value) :: members, ⟨hn, hv, hm⟩ => by
      have hrest := uniqueInMembers_pruneMembers members hm
      by_cases he : pruneValue value = .object []
      · rwa [pruneMembers_cons_of_empty he]
      · rw [pruneMembers_cons_of_ne he]
        exact ⟨fun hin => hn ((names_pruneMembers members).subset hin),
          uniqueNames_pruneValue value hv, hrest⟩

end

/-! ## Empty objects -/

mutual

/-- No object in the value is empty that is reached through objects, but for the value itself. -/
def NoEmptyInside : Json → Prop
  | .object members => NoEmptyMember members
  | _ => True

def NoEmptyMember : List (String × Json) → Prop
  | [] => True
  | (_, value) :: rest => value ≠ .object [] ∧ NoEmptyInside value ∧ NoEmptyMember rest

end

theorem noEmptyMember_iff {members : Json.Members} :
    NoEmptyMember members ↔
      ∀ member ∈ members, member.2 ≠ .object [] ∧ NoEmptyInside member.2 := by
  induction members with
  | nil => simp [NoEmptyMember]
  | cons member rest ih => simp [NoEmptyMember, ih, and_assoc]

mutual

theorem noEmptyInside_pruneValue : ∀ value : Json, NoEmptyInside (pruneValue value)
  | .object members => noEmptyMember_pruneMembers members
  | .null | .bool _ | .number _ | .string _ | .array _ => trivial

theorem noEmptyMember_pruneMembers :
    ∀ members : List (String × Json), NoEmptyMember (pruneMembers members)
  | [] => trivial
  | (name, value) :: members => by
      have hrest := noEmptyMember_pruneMembers members
      by_cases he : pruneValue value = .object []
      · rwa [pruneMembers_cons_of_empty he]
      · rw [pruneMembers_cons_of_ne he]
        exact ⟨he, noEmptyInside_pruneValue value, hrest⟩

end

end LocaleTidy.Catalog
