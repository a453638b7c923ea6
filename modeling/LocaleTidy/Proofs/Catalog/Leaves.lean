import LocaleTidy.Catalog.Basic
import LocaleTidy.Proofs.Json.Members
import LocaleTidy.Proofs.Key.Segments

/-!
# Leaves of a catalog

A leaf is a value that is not an object, together with the path of names that leads to it. The
keys of a catalog are the texts of the paths to its leaves; where no name is empty or has a dot,
the path can be read off the key again.
-/

namespace LocaleTidy

namespace Json

/-- What a path of names leads to, through objects. -/
def at? : Json → List String → Option Json
  | value, [] => some value
  | .object members, name :: rest =>
      (Members.get? name members).bind fun value => value.at? rest
  | _, _ :: _ => none

theorem at?_cons_object (members : Members) (name : String) (rest : List String) :
    (object members).at? (name :: rest) =
      (members.get? name).bind fun value => value.at? rest := rfl

theorem at?_cons_of_not_object {value : Json} (h : value.isObject = false) (name : String)
    (rest : List String) : value.at? (name :: rest) = none := by
  cases value <;> simp_all [at?, isObject]

theorem isSome_at?_singleton {members : Members} {name : String} :
    ((object members).at? [name]).isSome = true ↔ name ∈ members.map Prod.fst := by
  have hget : (object members).at? [name] = members.get? name := by
    rw [at?_cons_object]
    cases members.get? name <;> rfl
  rw [hget, Option.isSome_iff_ne_none, ne_eq, Members.get?_eq_none_iff, Decidable.not_not]

theorem at?_append (value : Json) (path rest : List String) :
    value.at? (path ++ rest) = (value.at? path).bind fun inner => inner.at? rest := by
  induction path generalizing value with
  | nil => simp [at?]
  | cons name path ih =>
      cases value with
      | object members =>
          rw [List.cons_append, at?_cons_object, at?_cons_object]
          cases Members.get? name members with
          | none => rfl
          | some inner => exact ih inner
      | _ => rfl

end Json

namespace Catalog

/-! ## Leaves -/

mutual

/-- The leaves of a value, each with the path that leads to it. -/
def valueLeaves : Json → List (List String × Json)
  | .object members => memberLeaves members
  | value => [([], value)]

def memberLeaves : List (String × Json) → List (List String × Json)
  | [] => []
  | (name, value) :: rest =>
      (valueLeaves value).map (fun leaf => (name :: leaf.1, leaf.2)) ++ memberLeaves rest

end

/-- The leaves of a catalog, in the order of the document. -/
def leaves (catalog : Catalog) : List (List String × Json) :=
  memberLeaves catalog.members

/-! A value is a leaf at a path if and only if the path leads to it and it is no object. -/

mutual

theorem mem_valueLeaves {path : List String} {leaf : Json} :
    ∀ value : Json, value.UniqueNames →
      ((path, leaf) ∈ valueLeaves value ↔ value.at? path = some leaf ∧ leaf.isObject = false)
  | .object members, h => by
      rw [valueLeaves, mem_memberLeaves members (by simpa [Json.UniqueNames] using h)]
      constructor
      · intro hx
        rcases hx with ⟨name, rest, rfl, ha, hl⟩
        exact ⟨by rw [Json.at?_cons_object, ha], hl⟩
      · intro hx
        rcases hx with ⟨ha, hl⟩
        cases path with
        | nil =>
            obtain rfl : Json.object members = leaf := by simpa [Json.at?] using ha
            simp [Json.isObject] at hl
        | cons name rest => exact ⟨name, rest, rfl, by rwa [Json.at?_cons_object] at ha, hl⟩
  | .null, _ | .bool _, _ | .number _, _ | .string _, _ | .array _, _ => by
      cases path with
      | nil => simp only [valueLeaves, Json.at?, List.mem_singleton, Prod.mk.injEq, true_and,
          Option.some.injEq]; constructor <;> rintro h <;> simp_all [Json.isObject]
      | cons name rest => simp [valueLeaves, Json.at?]

theorem mem_memberLeaves {path : List String} {leaf : Json} :
    ∀ members : List (String × Json), Json.UniqueInMembers members →
      ((path, leaf) ∈ memberLeaves members ↔
        ∃ name rest, path = name :: rest ∧
          ((Json.Members.get? name members).bind fun value => value.at? rest) = some leaf ∧
          leaf.isObject = false)
  | [], _ => by simp [memberLeaves, Json.Members.get?]
  | (name, value) :: members, ⟨hn, hv, hm⟩ => by
      have hnone := Json.Members.get?_eq_none_iff.mpr hn
      simp only [memberLeaves, List.mem_append, List.mem_map, Prod.mk.injEq, Prod.exists,
        mem_memberLeaves members hm]
      constructor
      · intro hx
        rcases hx with ⟨rest, other, hin, rfl, rfl⟩ | ⟨other, rest, rfl, ha, hl⟩
        · obtain ⟨ha, hl⟩ := (mem_valueLeaves value hv).mp hin
          exact ⟨name, rest, rfl, by simpa [Json.Members.get?] using ha, hl⟩
        · have hne : name ≠ other := by
            rintro rfl
            simp [hnone] at ha
          exact ⟨other, rest, rfl, by simpa [Json.Members.get?, hne] using ha, hl⟩
      · intro hx
        rcases hx with ⟨other, rest, rfl, ha, hl⟩
        by_cases h : name = other
        · subst h
          refine .inl ⟨rest, leaf, (mem_valueLeaves value hv).mpr ⟨?_, hl⟩, rfl, rfl⟩
          simpa [Json.Members.get?] using ha
        · exact .inr ⟨other, rest, rfl, by simpa [Json.Members.get?, h] using ha, hl⟩

end

theorem mem_leaves {catalog : Catalog} (h : catalog.toJson.UniqueNames) {path : List String}
    {leaf : Json} :
    (path, leaf) ∈ catalog.leaves ↔
      catalog.toJson.at? path = some leaf ∧ leaf.isObject = false := by
  have hmem : (path, leaf) ∈ valueLeaves catalog.toJson ↔
      catalog.toJson.at? path = some leaf ∧ leaf.isObject = false :=
    mem_valueLeaves catalog.toJson h
  rwa [toJson, valueLeaves] at hmem

/-! ## Keys of leaves -/

def keyAt (path : List String) : String :=
  path.foldl extend ""

mutual

theorem leafKeys_eq (start : String) :
    ∀ value : Json,
      leafKeys start value = (valueLeaves value).map fun leaf => leaf.1.foldl extend start
  | .object members => by rw [leafKeys, valueLeaves, memberKeys_eq start members]
  | .null | .bool _ | .number _ | .string _ | .array _ => rfl

theorem memberKeys_eq (start : String) :
    ∀ members : List (String × Json),
      memberKeys start members = (memberLeaves members).map fun leaf => leaf.1.foldl extend start
  | [] => rfl
  | (name, value) :: members => by
      rw [memberKeys, memberLeaves, List.map_append, List.map_map, leafKeys_eq _ value,
        memberKeys_eq start members]
      rfl

end

theorem keys_eq (catalog : Catalog) : catalog.keys = catalog.leaves.map fun leaf => keyAt leaf.1 :=
  memberKeys_eq "" catalog.members

/-! ## Plain names -/

/-- A name that is not empty and has no dot. -/
def IsPlain (name : String) : Prop :=
  name ≠ "" ∧ '.' ∉ name.toList

mutual

/-- Every name in the value that is reached through objects is plain. -/
def PlainNames : Json → Prop
  | .object members => PlainMembers members
  | _ => True

def PlainMembers : List (String × Json) → Prop
  | [] => True
  | (name, value) :: rest => IsPlain name ∧ PlainNames value ∧ PlainMembers rest

end

mutual

theorem isPlain_of_mem_valueLeaves :
    ∀ value : Json, PlainNames value → ∀ leaf ∈ valueLeaves value, ∀ name ∈ leaf.1, IsPlain name
  | .object members, h => by
      rw [valueLeaves]
      exact fun leaf hl => (isPlain_of_mem_memberLeaves members h leaf hl).2
  | .null, _ | .bool _, _ | .number _, _ | .string _, _ | .array _, _ => by
      simp [valueLeaves]

theorem isPlain_of_mem_memberLeaves :
    ∀ members : List (String × Json), PlainMembers members →
      ∀ leaf ∈ memberLeaves members, leaf.1 ≠ [] ∧ ∀ name ∈ leaf.1, IsPlain name
  | [], _ => by simp [memberLeaves]
  | (name, value) :: members, ⟨hn, hv, hm⟩ => by
      simp only [memberLeaves, List.mem_append, List.mem_map]
      rintro leaf (⟨inner, hi, rfl⟩ | hl)
      · refine ⟨by simp, ?_⟩
        rintro other ho
        rcases List.mem_cons.mp ho with rfl | ho
        · exact hn
        · exact isPlain_of_mem_valueLeaves value hv inner hi other ho
      · exact isPlain_of_mem_memberLeaves members hm leaf hl

end

theorem foldl_extend {start : String} (h : start ≠ "") (names : List String) :
    names.foldl extend start = Key.ofSegments (start :: names) := by
  induction names generalizing start with
  | nil => simp [Key.ofSegments]
  | cons name rest ih =>
      have hne : extend start name = start ++ "." ++ name := by simp [extend, h]
      have hlong : start ++ "." ++ name ≠ "" := by simp [h]
      rw [List.foldl_cons, hne, ih hlong]
      cases rest with
      | nil => simp [Key.ofSegments, String.intercalate_cons_cons]
      | cons next rest =>
          simp [Key.ofSegments, String.intercalate_cons_cons, String.append_assoc]

/-- The key at a path of names that are not empty has these names as its segments. -/
theorem keyAt_eq_ofSegments {path : List String} (hne : path ≠ []) (h : ∀ name ∈ path, name ≠ "") :
    keyAt path = Key.ofSegments path := by
  cases path with
  | nil => exact absurd rfl hne
  | cons name rest =>
      have hstart : extend "" name = name := by simp [extend]
      rw [keyAt, List.foldl_cons, hstart, foldl_extend (h name (by simp))]

theorem segments_keyAt {path : List String} (hne : path ≠ []) (h : ∀ name ∈ path, IsPlain name) :
    Key.segments (keyAt path) = path := by
  rw [keyAt_eq_ofSegments hne fun name hn => (h name hn).1,
    Key.segments_ofSegments hne fun name hn => (h name hn).2]

end Catalog

end LocaleTidy
