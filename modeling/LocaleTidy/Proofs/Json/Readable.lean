import LocaleTidy.Json.Reader
import LocaleTidy.Proofs.Json.Members
import LocaleTidy.Proofs.Json.Number
import LocaleTidy.Proofs.Outcome

/-!
# What reading gives

Every value that a text denotes has members of different names in each object, numbers that are
numbers, brackets that nest within the limit, and no object that begins with the name that
marks a number. The facts pass through the readers of arrays and objects as invariants of what
has been gathered so far.
-/

namespace LocaleTidy.Json

/-! ## Values that can be written down -/

mutual

/-- The brackets of a value nest at most `depth` deep, and its numbers are numbers. -/
def Writable : Nat → Json → Prop
  | _, .number text => IsNumber text.toList
  | 0, .array _ => False
  | depth + 1, .array items => WritableItems depth items
  | 0, .object _ => False
  | depth + 1, .object members => WritableMembers depth members
  | _, _ => True

def WritableItems : Nat → List Json → Prop
  | _, [] => True
  | depth, item :: rest => item.Writable depth ∧ WritableItems depth rest

def WritableMembers : Nat → List (String × Json) → Prop
  | _, [] => True
  | depth, (_, value) :: rest => value.Writable depth ∧ WritableMembers depth rest

end

mutual

/-- No object in the value begins with the name that marks a number. -/
def Untagged : Json → Prop
  | .array items => UntaggedItems items
  | .object members => (∀ member ∈ members.head?, member.1 ≠ numberTag) ∧ UntaggedMembers members
  | _ => True

def UntaggedItems : List Json → Prop
  | [] => True
  | item :: rest => item.Untagged ∧ UntaggedItems rest

def UntaggedMembers : List (String × Json) → Prop
  | [] => True
  | (_, value) :: rest => value.Untagged ∧ UntaggedMembers rest

end

/-- What a text with brackets at most `depth` deep can denote. -/
structure Readable (depth : Nat) (value : Json) : Prop where
  unique : value.UniqueNames
  writable : value.Writable depth
  untagged : value.Untagged

/-! ### Arrays and objects -/

theorem uniqueInItems_iff {items : List Json} :
    UniqueInItems items ↔ ∀ item ∈ items, item.UniqueNames := by
  induction items with
  | nil => simp [UniqueInItems]
  | cons item rest ih => simp [UniqueInItems, ih]

theorem writableItems_iff {depth : Nat} {items : List Json} :
    WritableItems depth items ↔ ∀ item ∈ items, item.Writable depth := by
  induction items with
  | nil => simp [WritableItems]
  | cons item rest ih => simp [WritableItems, ih]

theorem writableMembers_iff {depth : Nat} {members : Members} :
    WritableMembers depth members ↔ ∀ member ∈ members, member.2.Writable depth := by
  induction members with
  | nil => simp [WritableMembers]
  | cons member rest ih => simp [WritableMembers, ih]

theorem untaggedItems_iff {items : List Json} :
    UntaggedItems items ↔ ∀ item ∈ items, item.Untagged := by
  induction items with
  | nil => simp [UntaggedItems]
  | cons item rest ih => simp [UntaggedItems, ih]

theorem untaggedMembers_iff {members : Members} :
    UntaggedMembers members ↔ ∀ member ∈ members, member.2.Untagged := by
  induction members with
  | nil => simp [UntaggedMembers]
  | cons member rest ih => simp [UntaggedMembers, ih]

variable {depth : Nat}

theorem readable_array {items : List Json} (h : ∀ item ∈ items, Readable depth item) :
    Readable (depth + 1) (.array items) where
  unique := uniqueInItems_iff.mpr fun item hi => (h item hi).unique
  writable := writableItems_iff.mpr fun item hi => (h item hi).writable
  untagged := untaggedItems_iff.mpr fun item hi => (h item hi).untagged

/-- Members gathered from a text: no name comes twice, and the first is not the mark. -/
structure Gathered (depth : Nat) (members : Members) : Prop where
  nodup : (members.map Prod.fst).Nodup
  first : ∀ member ∈ members.head?, member.1 ≠ numberTag
  values : ∀ member ∈ members, Readable depth member.2

theorem Gathered.readable {members : Members} (h : Gathered depth members) :
    Readable (depth + 1) (.object members) where
  unique := uniqueInMembers_iff.mpr ⟨h.nodup, fun member hm => (h.values member hm).unique⟩
  writable := writableMembers_iff.mpr fun member hm => (h.values member hm).writable
  untagged := ⟨h.first, untaggedMembers_iff.mpr fun member hm => (h.values member hm).untagged⟩

/-! ## Inserting a member -/

theorem Members.map_fst_insert (name : String) (value : Json) (members : Members) :
    (members.insert name value).map Prod.fst =
      if name ∈ members.map Prod.fst then members.map Prod.fst
      else members.map Prod.fst ++ [name] := by
  induction members with
  | nil => simp [Members.insert]
  | cons member rest ih =>
      rcases member with ⟨other, old⟩
      by_cases hn : other = name
      · simp [Members.insert, hn]
      · by_cases hr : name ∈ rest.map Prod.fst
        · simp [Members.insert, hn, Ne.symm hn, ih, hr]
        · simp [Members.insert, hn, Ne.symm hn, ih, hr]

theorem Members.mem_insert {name : String} {value : Json} {members : Members}
    {member : String × Json} (h : member ∈ members.insert name value) :
    member = (name, value) ∨ member ∈ members := by
  induction members with
  | nil => exact .inl (by simpa [Members.insert] using h)
  | cons head rest ih =>
      rcases head with ⟨other, old⟩
      by_cases hn : other = name
      · simp only [Members.insert, hn, if_true, List.mem_cons] at h
        exact h.imp_right fun hr => by simp [hr]
      · simp only [Members.insert, hn, if_false, List.mem_cons] at h
        rcases h with rfl | hr
        · exact .inr (by simp)
        · exact (ih hr).imp_right fun hm => by simp [hm]

/-- A member read after the first one leaves what was gathered in order. -/
theorem Gathered.insert {members : Members} {name : String} {value : Json}
    (h : Gathered depth members) (hne : members ≠ []) (hv : Readable depth value) :
    Gathered depth (members.insert name value) := by
  obtain ⟨head, rest, rfl⟩ := List.exists_cons_of_ne_nil hne
  refine ⟨?_, ?_, ?_⟩
  · rw [Members.map_fst_insert]
    split
    · exact h.nodup
    · rename_i hn
      refine List.nodup_append.mpr ⟨h.nodup, by simp, ?_⟩
      rintro a ha b hb rfl
      exact hn (List.mem_singleton.mp hb ▸ ha)
  · have hfirst := h.first head (by simp)
    rcases head with ⟨other, old⟩
    by_cases hn : other = name
    · simpa [Members.insert, hn] using hn ▸ hfirst
    · simpa [Members.insert, hn] using hfirst
  · intro member hm
    obtain rfl | hm := Members.mem_insert hm
    · exact hv
    · exact h.values member hm

/-! ## The readers -/

theorem itemsWithin_forall {α : Type} {item : Reader α} {P : α → Prop}
    (hitem : ∀ {text value rest}, item text = .ok (value, rest) → P value)
    {rounds : Nat} {first : Bool} {text rest : List Char} {items : List α}
    (h : itemsWithin item rounds first text = .ok (items, rest)) : ∀ value ∈ items, P value := by
  induction rounds generalizing first text items rest with
  | zero => cases h
  | succ rounds ih =>
      obtain ⟨⟨another, text₁⟩, -, h⟩ := bind_eq_ok.mp h
      cases another with
      | false =>
          obtain ⟨rfl, -⟩ := Prod.mk.inj (pure_eq_ok.mp h)
          simp
      | true =>
          obtain ⟨⟨head, text₂⟩, hhead, h⟩ := bind_eq_ok.mp h
          obtain ⟨⟨tail, text₃⟩, htail, h⟩ := bind_eq_ok.mp h
          obtain ⟨rfl, -⟩ := Prod.mk.inj (pure_eq_ok.mp h)
          intro value hv
          obtain rfl | hv := List.mem_cons.mp hv
          · exact hitem hhead
          · exact ih htail value hv

theorem membersWithin_invariant {σ : Type} {member : σ → String → Reader σ} {I : σ → Prop}
    (hmember : ∀ {before name text after rest}, I before →
      member before name text = .ok (after, rest) → I after)
    {rounds : Nat} {first : Bool} {before after : σ} {text rest : List Char} (hI : I before)
    (h : membersWithin member rounds first before text = .ok (after, rest)) : I after := by
  induction rounds generalizing first before text with
  | zero => cases h
  | succ rounds ih =>
      obtain ⟨⟨name, text₁⟩, -, h⟩ := bind_eq_ok.mp h
      cases name with
      | none =>
          obtain ⟨rfl, -⟩ := Prod.mk.inj (pure_eq_ok.mp h)
          exact hI
      | some name =>
          obtain ⟨⟨between, text₂⟩, hbetween, h⟩ := bind_eq_ok.mp h
          exact ih (hmember hI hbetween) h

theorem readable_number {text : String} (h : IsNumber text.toList) :
    Readable depth (.number text) where
  unique := by simp [UniqueNames]
  writable := by cases depth <;> simpa [Writable] using h
  untagged := by simp [Untagged]

theorem isNumber_of_readNumber {text rest : List Char} {number : String}
    (h : readNumber text = .ok (number, rest)) : IsNumber number.toList := by
  unfold readNumber at h
  split at h
  · rename_i digits left hdigits
    obtain ⟨rfl, -⟩ := Prod.mk.inj (Except.ok.inj h)
    simpa using isNumber_of_numberText hdigits
  · cases h

theorem isNumber_of_numberOfText {text number : String}
    (h : numberOfText text = .ok number) : IsNumber number.toList := by
  unfold numberOfText at h
  split at h
  · cases h
  · simp only at h
    split at h
    · split at h
      · rename_i digits hdigits
        obtain rfl := Except.ok.inj h
        simpa using isNumber_of_numberText hdigits
      · cases h
      · cases h
    · cases h

theorem readTaggedNumber_readable {text rest : List Char} {value : Json}
    (h : readTaggedNumber text = .ok (value, rest)) : Readable depth value := by
  obtain ⟨text₁, -, h⟩ := bind_eq_ok.mp h
  split at h
  · cases h
  · split at h
    · obtain ⟨⟨digits, text₂⟩, -, h⟩ := bind_eq_ok.mp h
      obtain ⟨number, hnumber, h⟩ := bind_eq_ok.mp h
      obtain ⟨text₃, -, h⟩ := bind_eq_ok.mp h
      obtain ⟨rfl, -⟩ := Prod.mk.inj (pure_eq_ok.mp h)
      exact readable_number (isNumber_of_numberOfText hnumber)
    · cases h

theorem Members.insert_ne_nil {name : String} {value : Json} {members : Members} :
    members.insert name value ≠ [] := by
  cases members with
  | nil => simp [Members.insert]
  | cons member rest =>
      by_cases h : member.1 = name <;> simp [Members.insert, h]

theorem readObject_readable {value : Reader Json}
    (hvalue : ∀ {text v rest}, value text = .ok (v, rest) → Readable depth v)
    {text rest : List Char} {result : Json} (h : readObject value text = .ok (result, rest)) :
    Readable (depth + 1) result := by
  have hread : ∀ {text v rest}, readMember value text = .ok (v, rest) → Readable depth v := by
    intro text v rest h
    obtain ⟨text₁, -, h⟩ := bind_eq_ok.mp h
    exact hvalue h
  obtain ⟨⟨name, text₁⟩, -, h⟩ := bind_eq_ok.mp h
  cases name with
  | none =>
      obtain ⟨rfl, -⟩ := Prod.mk.inj (pure_eq_ok.mp h)
      exact Gathered.readable ⟨by simp, by simp, by simp⟩
  | some name =>
      by_cases htag : name = numberTag
      · simp only [htag, if_true] at h
        exact readTaggedNumber_readable h
      · simp only [htag, if_false] at h
        obtain ⟨⟨head, text₂⟩, hhead, h⟩ := bind_eq_ok.mp h
        obtain ⟨⟨members, text₃⟩, hmembers, h⟩ := bind_eq_ok.mp h
        obtain ⟨rfl, -⟩ := Prod.mk.inj (pure_eq_ok.mp h)
        have hinv : members ≠ [] ∧ Gathered depth members := by
          refine membersWithin_invariant
            (I := fun members => members ≠ [] ∧ Gathered depth members) ?_ ?_ hmembers
          · rintro before name text after rest ⟨hne, hg⟩ h
            obtain ⟨⟨v, text₄⟩, hv, h⟩ := bind_eq_ok.mp h
            obtain ⟨rfl, -⟩ := Prod.mk.inj (pure_eq_ok.mp h)
            exact ⟨Members.insert_ne_nil, hg.insert hne (hread hv)⟩
          · exact ⟨by simp, by simp, by simpa using htag, by simpa using hread hhead⟩
        exact hinv.2.readable

theorem word_eq_ok {letters : List Char} {word value : Json} {text rest : List Char}
    (h : (do let rest ← literal letters text; return (word, rest)) =
      (.ok (value, rest) : Except Failure (Json × List Char))) : value = word := by
  obtain ⟨text₁, -, h⟩ := bind_eq_ok.mp h
  exact (Prod.mk.inj (pure_eq_ok.mp h)).1.symm

theorem readable_string (text : String) : Readable depth (.string text) where
  unique := by simp [UniqueNames]
  writable := by cases depth <;> simp [Writable]
  untagged := by simp [Untagged]

theorem readable_null : Readable depth .null where
  unique := by simp [UniqueNames]
  writable := by cases depth <;> simp [Writable]
  untagged := by simp [Untagged]

theorem readable_bool (value : Bool) : Readable depth (.bool value) where
  unique := by simp [UniqueNames]
  writable := by cases depth <;> simp [Writable]
  untagged := by simp [Untagged]

/-- What is read with a reader of nested values is one level deeper than these. -/
theorem readWith_readable {nested : Option (Reader Json)}
    (hnested : ∀ reader ∈ nested, ∃ inner, depth = inner + 1 ∧
      ∀ {text v rest}, reader text = .ok (v, rest) → Readable inner v)
    {text rest : List Char} {value : Json} (h : readWith nested text = .ok (value, rest)) :
    Readable depth value := by
  unfold readWith at h
  split at h
  · cases h
  · rename_i c left hleft
    simp only at h
    split at h
    · obtain rfl := word_eq_ok h
      exact readable_null
    split at h
    · obtain rfl := word_eq_ok h
      exact readable_bool true
    split at h
    · obtain rfl := word_eq_ok h
      exact readable_bool false
    split at h
    · obtain ⟨⟨text, text₁⟩, -, h⟩ := bind_eq_ok.mp h
      obtain ⟨rfl, -⟩ := Prod.mk.inj (pure_eq_ok.mp h)
      exact readable_string text
    split at h
    · cases nested with
      | none => cases h
      | some reader =>
          obtain ⟨inner, rfl, hreader⟩ := hnested reader rfl
          obtain ⟨⟨items, text₁⟩, hitems, h⟩ := bind_eq_ok.mp h
          obtain ⟨rfl, -⟩ := Prod.mk.inj (pure_eq_ok.mp h)
          exact readable_array (itemsWithin_forall hreader hitems)
    split at h
    · cases nested with
      | none => cases h
      | some reader =>
          obtain ⟨inner, rfl, hreader⟩ := hnested reader rfl
          exact readObject_readable hreader h
    split at h
    · obtain ⟨⟨number, text₁⟩, hnumber, h⟩ := bind_eq_ok.mp h
      obtain ⟨rfl, -⟩ := Prod.mk.inj (pure_eq_ok.mp h)
      exact readable_number (isNumber_of_readNumber hnumber)
    · cases h

theorem readValue_readable {text rest : List Char} {value : Json}
    (h : readValue depth text = .ok (value, rest)) : Readable depth value := by
  induction depth generalizing text rest value with
  | zero => exact readWith_readable (by simp) h
  | succ depth ih =>
      refine readWith_readable ?_ h
      intro reader hreader
      obtain rfl := Option.some.inj hreader
      exact ⟨depth, rfl, ih⟩

theorem parse_readable {text : String} {value : Json} (h : parse text = .ok value) :
    Readable maxDepth value := by
  obtain ⟨⟨head, rest⟩, hread, h⟩ := bind_eq_ok.mp (mapError_eq_ok.mp h)
  simp only at h
  split at h
  · obtain rfl := pure_eq_ok.mp h
    exact readValue_readable hread
  · cases h

end LocaleTidy.Json
