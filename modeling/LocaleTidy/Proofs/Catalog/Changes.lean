import LocaleTidy.Proofs.Catalog.RoundTrip

/-!
# Catalogs changed in memory

A catalog that was read is changed by erasing keys and by pruning, in any order and any number of
times. Every change keeps the names in each object different, the numbers numbers and the brackets
within the limit. What the catalog is written as denotes it again unless an object has come to
begin with the name that marks a number.
-/

namespace LocaleTidy

namespace Json

/-! ## Names that are nowhere -/

mutual

/-- No object in the value, be it in an array, has a member of the given name. -/
def Avoids (name : String) : Json → Prop
  | .array items => ItemsAvoid name items
  | .object members => MembersAvoid name members
  | _ => True

def ItemsAvoid (name : String) : List Json → Prop
  | [] => True
  | item :: rest => item.Avoids name ∧ ItemsAvoid name rest

def MembersAvoid (name : String) : List (String × Json) → Prop
  | [] => True
  | (other, value) :: rest => other ≠ name ∧ value.Avoids name ∧ MembersAvoid name rest

end

mutual

theorem untagged_of_avoids : ∀ value : Json, value.Avoids numberTag → value.Untagged
  | .array items, h => untaggedItems_of_avoid items h
  | .object [], _ => ⟨by simp, trivial⟩
  | .object ((name, value) :: members), h =>
      ⟨by simpa using h.1, untaggedMembers_of_avoid ((name, value) :: members) h⟩
  | .null, _ | .bool _, _ | .number _, _ | .string _, _ => trivial

theorem untaggedItems_of_avoid :
    ∀ items : List Json, ItemsAvoid numberTag items → UntaggedItems items
  | [], _ => trivial
  | item :: items, h => ⟨untagged_of_avoids item h.1, untaggedItems_of_avoid items h.2⟩

theorem untaggedMembers_of_avoid :
    ∀ members : List (String × Json), MembersAvoid numberTag members → UntaggedMembers members
  | [], _ => trivial
  | (_, value) :: members, h =>
      ⟨untagged_of_avoids value h.2.1, untaggedMembers_of_avoid members h.2.2⟩

end

theorem writable_object_iff {depth : Nat} {members : Members} :
    (object members).Writable depth ↔
      ∃ inner, depth = inner + 1 ∧ WritableMembers inner members := by
  cases depth with
  | zero => simp [Writable]
  | succ inner => simp [Writable]

end Json

namespace Catalog

open Json (UniqueNames Writable WritableMembers)

/-! ## Changes -/

inductive Change where
  /-- One key is erased, if it is there. -/
  | erase (key : String)
  /-- Some keys are erased, and then all empty objects. -/
  | eraseAll (keys : List String)
  /-- All empty objects are erased. -/
  | prune
  deriving DecidableEq, Repr

def Change.apply (change : Change) (catalog : Catalog) : Catalog :=
  match change with
  | .erase key => (catalog.erase? key).getD catalog
  | .eraseAll keys => (catalog.eraseAll keys).2
  | .prune => catalog.pruneEmpty

def changed (catalog : Catalog) (changes : List Change) : Catalog :=
  changes.foldl (fun catalog change => change.apply catalog) catalog

/-! ## What every change keeps -/

/-- What a text can denote, were it not for the name that marks a number. -/
structure Storable (catalog : Catalog) : Prop where
  unique : catalog.toJson.UniqueNames
  writable : catalog.toJson.Writable Json.maxDepth

theorem storable_of_parse {text : String} {catalog : Catalog} (h : parse text = .ok catalog) :
    catalog.Storable :=
  ⟨(readable_of_parse h).unique, (readable_of_parse h).writable⟩

theorem Erased.writableMembers {path : List String} {members result : Json.Members}
    (h : Erased path members result) {depth : Nat} (hw : WritableMembers depth members) :
    WritableMembers depth result := by
  induction path generalizing members result depth with
  | nil => exact (h.ne_nil rfl).elim
  | cons name rest ih =>
      rw [Json.writableMembers_iff] at hw ⊢
      intro member hm
      rcases h.mem hm with hold | ⟨inner, new, hold, rfl, -, hin⟩
      · exact hw member hold
      · obtain ⟨inside, rfl, hinner⟩ := Json.writable_object_iff.mp (hw _ hold)
        exact Json.writable_object_iff.mpr ⟨inside, rfl, ih hin hinner⟩

theorem Change.uniqueNames_apply {catalog : Catalog} (hu : catalog.toJson.UniqueNames)
    (change : Change) : (change.apply catalog).toJson.UniqueNames := by
  cases change with
  | erase key =>
      rw [apply]
      cases hkey : catalog.erase? key with
      | none => exact hu
      | some result => exact (erase?_eq_some hkey).uniqueInMembers hu
  | eraseAll keys => exact uniqueNames_eraseAll keys hu
  | prune => exact uniqueInMembers_pruneMembers _ hu

theorem Storable.apply {catalog : Catalog} (h : catalog.Storable) (change : Change) :
    (change.apply catalog).Storable := by
  refine ⟨change.uniqueNames_apply h.unique, ?_⟩
  cases change with
  | erase key =>
      rw [Change.apply]
      cases hkey : catalog.erase? key with
      | none => exact h.writable
      | some result =>
          obtain ⟨inner, hdepth, hinner⟩ := Json.writable_object_iff.mp h.writable
          exact Json.writable_object_iff.mpr
            ⟨inner, hdepth, (erase?_eq_some hkey).writableMembers hinner⟩
  | eraseAll keys => exact writable_eraseAll keys h.unique h.writable
  | prune => exact writable_pruneValue _ _ h.writable

theorem Storable.changed {catalog : Catalog} (h : catalog.Storable) (changes : List Change) :
    (catalog.changed changes).Storable := by
  induction changes generalizing catalog with
  | nil => exact h
  | cons change changes ih => exact ih (h.apply change)

/-! ## Names that mark numbers -/

mutual

/-- No name in the value that is reached through objects is the one that marks a number. -/
def Unmarked : Json → Prop
  | .object members => UnmarkedMembers members
  | _ => True

def UnmarkedMembers : List (String × Json) → Prop
  | [] => True
  | (name, value) :: rest => name ≠ Json.numberTag ∧ Unmarked value ∧ UnmarkedMembers rest

end

theorem ne_numberTag_of_unmarkedMembers {members : Json.Members} (h : UnmarkedMembers members) :
    ∀ name ∈ members.map Prod.fst, name ≠ Json.numberTag := by
  induction members with
  | nil => simp
  | cons member rest ih =>
      rcases member with ⟨name, value⟩
      simpa using ⟨h.1, by simpa using ih h.2.2⟩

theorem names_dropMembers (gone : List String → Bool) (members : Json.Members) :
    ((dropMembers gone members).map Prod.fst).Sublist (members.map Prod.fst) := by
  induction members with
  | nil => exact .slnil
  | cons member rest ih =>
      rcases member with ⟨name, value⟩
      by_cases hg : gone [name]
      · simpa [dropMembers, hg] using ih.cons name
      · simpa [dropMembers, hg] using ih

mutual

theorem untagged_pruneValue_dropValue (gone : List String → Bool) :
    ∀ value : Json, Unmarked value → value.Untagged →
      (pruneValue (dropValue gone value)).Untagged
  | .object members, hm, ht => by
      refine ⟨?_, untaggedMembers_pruneMembers_dropMembers gone members hm ht.2⟩
      intro member hfirst
      apply ne_numberTag_of_unmarkedMembers hm
      have hnames := (names_pruneMembers (dropMembers gone members)).trans
        (names_dropMembers gone members)
      exact hnames.subset (List.mem_map_of_mem (List.mem_of_mem_head? hfirst))
  | .null, _, h | .bool _, _, h | .number _, _, h | .string _, _, h | .array _, _, h => h

theorem untaggedMembers_pruneMembers_dropMembers (gone : List String → Bool) :
    ∀ members : List (String × Json), UnmarkedMembers members → Json.UntaggedMembers members →
      Json.UntaggedMembers (pruneMembers (dropMembers gone members))
  | [], _, _ => trivial
  | (name, value) :: members, hm, ht => by
      have hrest := untaggedMembers_pruneMembers_dropMembers gone members hm.2.2 ht.2
      by_cases hg : gone [name]
      · simpa [dropMembers, hg] using hrest
      simp only [dropMembers, hg, Bool.false_eq_true, if_false]
      by_cases hempty : pruneValue (dropValue (fun path => gone (name :: path)) value) = .object []
      · rwa [pruneMembers_cons_of_empty hempty]
      · rw [pruneMembers_cons_of_ne hempty]
        exact ⟨untagged_pruneValue_dropValue _ value hm.2.1 ht.1, hrest⟩

end

/-- Where no name marks a number, no object comes to begin with one that does. -/
theorem untagged_eraseAll (keys : List String) {catalog : Catalog}
    (hu : catalog.toJson.UniqueNames) (hm : Unmarked catalog.toJson)
    (ht : catalog.toJson.Untagged) : (catalog.eraseAll keys).2.toJson.Untagged := by
  rw [eraseAll_snd keys hu]
  exact untagged_pruneValue_dropValue (isNamed keys) _ hm ht

/-! ## Reading it again -/

theorem Storable.parse_toText_iff {catalog : Catalog} (h : catalog.Storable) :
    parse catalog.toText = .ok catalog ↔ catalog.toJson.Untagged :=
  ⟨fun hparse => (readable_of_parse hparse).untagged,
    fun htag => parse_toText ⟨h.unique, h.writable, htag⟩⟩

/-- A catalog that was read and then changed is read again as it was written, if and only if no
object in it begins with the name that marks a number. Where no object at all has a member of
that name, this is always so. -/
theorem parse_toText_changed {text : String} {start : Catalog} (hparse : parse text = .ok start)
    (changes : List Change) :
    (parse (start.changed changes).toText = .ok (start.changed changes) ↔
      (start.changed changes).toJson.Untagged) ∧
    ((start.changed changes).toJson.Avoids Json.numberTag →
      parse (start.changed changes).toText = .ok (start.changed changes)) := by
  have hiff := ((storable_of_parse hparse).changed changes).parse_toText_iff
  exact ⟨hiff, fun havoids => hiff.mpr (Json.untagged_of_avoids _ havoids)⟩

/-- Two of three members go one after the other, with the object that is empty then. The array
with a nested one, the text of control characters and the number with an exponent are read
again. -/
theorem parse_toText_changed_twice :
    let start : Catalog := ⟨[("a", .object [("b", .object [("c", .null)])]),
      ("d", .array [.array [.number "1e+500", .string "\x00\"\n"], .object [("e", .bool true)]]),
      ("f", .string "é")]⟩
    let left : Catalog := ⟨[("d", .array [.array [.number "1e+500", .string "\x00\"\n"],
      .object [("e", .bool true)]])]⟩
    start.changed [.erase "a.b.c", .prune, .eraseAll ["f", "x"]] = left ∧
      parse left.toText = .ok left := by
  intro start left
  have hnumber : Json.IsNumber "1e+500".toList :=
    Json.isNumber_of_numberText (show Json.numberText "1E500".toList = .ok (_, []) from rfl)
  have hread : Json.Readable Json.maxDepth start.toJson := by
    constructor
    · simp [start, toJson, UniqueNames, Json.UniqueInMembers, Json.UniqueInItems]
    · simpa [start, toJson, Json.maxDepth, Writable, WritableMembers, Json.WritableItems]
        using hnumber
    · simp [start, toJson, Json.Untagged, Json.UntaggedMembers, Json.UntaggedItems,
        Json.numberTag]
  have hleft : start.changed [.erase "a.b.c", .prune, .eraseAll ["f", "x"]] = left := rfl
  refine ⟨hleft, ?_⟩
  have hagain := (parse_toText_changed (parse_toText hread)
    [.erase "a.b.c", .prune, .eraseAll ["f", "x"]]).2
  rw [hleft] at hagain
  exact hagain (by simp [left, toJson, Json.Avoids, Json.MembersAvoid, Json.ItemsAvoid,
    Json.numberTag])

end Catalog

end LocaleTidy
