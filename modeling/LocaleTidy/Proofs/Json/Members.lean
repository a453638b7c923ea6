import LocaleTidy.Json.Basic

/-!
# Members of objects

Looking up, setting and erasing the members of an object, seen from where a name stands among
them, and the values in which every object has its names only once.
-/

namespace LocaleTidy.Json

namespace Members

variable {name other : String} {value new : Json} {members before after : Members}

/-! ## Looking up -/

theorem get?_eq_none_iff : members.get? name = none ↔ name ∉ members.map Prod.fst := by
  induction members with
  | nil => simp [get?]
  | cons member rest ih =>
      rcases member with ⟨other, old⟩
      by_cases h : other = name
      · simp [get?, h]
      · simp [get?, h, ih, Ne.symm h]

/-- A name that is found divides the members into those before it, none of which bears it, and
those after it. -/
theorem exists_eq_append_of_get? (h : members.get? name = some value) :
    ∃ before after, members = before ++ (name, value) :: after ∧ before.get? name = none := by
  induction members with
  | nil => simp [get?] at h
  | cons member rest ih =>
      rcases member with ⟨other, old⟩
      by_cases hn : other = name
      · subst hn
        simp only [get?, if_true, Option.some.injEq] at h
        exact ⟨[], rest, by simp [h], rfl⟩
      · simp only [get?, hn, if_false] at h
        obtain ⟨before, after, rfl, hb⟩ := ih h
        exact ⟨(other, old) :: before, after, rfl, by simp [get?, hn, hb]⟩

theorem get?_append : (before ++ after).get? name = (before.get? name).or (after.get? name) := by
  induction before with
  | nil => simp [get?]
  | cons member rest ih =>
      rcases member with ⟨other, old⟩
      by_cases h : other = name
      · simp [get?, h]
      · simpa [get?, h] using ih

theorem get?_append_cons_self (h : before.get? name = none) :
    get? name (before ++ (name, value) :: after) = some value := by
  simp [get?_append, h, get?]

theorem get?_append_cons_of_ne (h : other ≠ name) :
    get? other (before ++ (name, value) :: after) = get? other (before ++ after) := by
  simp [get?_append, get?, h.symm]

/-! ## Setting and erasing -/

theorem erase_append_cons (h : before.get? name = none) :
    erase name (before ++ (name, value) :: after) = before ++ after := by
  induction before with
  | nil => simp [erase]
  | cons member rest ih =>
      rcases member with ⟨other, old⟩
      by_cases hn : other = name
      · simp [get?, hn] at h
      · simp only [get?, hn, if_false] at h
        simp [erase, hn, ih h]

theorem insert_append_cons (h : before.get? name = none) :
    insert name new (before ++ (name, value) :: after) = before ++ (name, new) :: after := by
  induction before with
  | nil => simp [insert]
  | cons member rest ih =>
      rcases member with ⟨other, old⟩
      by_cases hn : other = name
      · simp [get?, hn] at h
      · simp only [get?, hn, if_false] at h
        simp [insert, hn, ih h]

theorem insert_of_get?_eq_none (h : members.get? name = none) :
    insert name new members = members ++ [(name, new)] := by
  induction members with
  | nil => rfl
  | cons member rest ih =>
      rcases member with ⟨other, old⟩
      by_cases hn : other = name
      · simp [get?, hn] at h
      · simp only [get?, hn, if_false] at h
        simp [insert, hn, ih h]

end Members

/-! ## Names that occur once -/

mutual

/-- No object in the value has two members of one name. -/
def UniqueNames : Json → Prop
  | .array items => UniqueInItems items
  | .object members => UniqueInMembers members
  | _ => True

def UniqueInItems : List Json → Prop
  | [] => True
  | item :: rest => item.UniqueNames ∧ UniqueInItems rest

def UniqueInMembers : List (String × Json) → Prop
  | [] => True
  | (name, value) :: rest =>
      name ∉ rest.map Prod.fst ∧ value.UniqueNames ∧ UniqueInMembers rest

end

theorem uniqueInMembers_iff {members : Members} :
    UniqueInMembers members ↔
      (members.map Prod.fst).Nodup ∧ ∀ member ∈ members, member.2.UniqueNames := by
  induction members with
  | nil => simp [UniqueInMembers]
  | cons member rest ih =>
      rcases member with ⟨name, value⟩
      simp only [UniqueInMembers, ih, List.map_cons, List.nodup_cons, List.mem_cons,
        forall_eq_or_imp]
      constructor
      · intro h
        rcases h with ⟨hn, hv, hd, hr⟩
        exact ⟨⟨hn, hd⟩, hv, hr⟩
      · intro h
        rcases h with ⟨⟨hn, hd⟩, hv, hr⟩
        exact ⟨hn, hv, hd, hr⟩

theorem uniqueInMembers_append {before after : Members} :
    UniqueInMembers (before ++ after) ↔
      UniqueInMembers before ∧ UniqueInMembers after ∧
        ∀ name ∈ before.map Prod.fst, name ∉ after.map Prod.fst := by
  simp only [uniqueInMembers_iff, List.map_append, List.nodup_append, List.mem_append]
  constructor
  · intro h
    rcases h with ⟨⟨hb, ha, hne⟩, hv⟩
    exact ⟨⟨hb, fun m hm => hv m (.inl hm)⟩, ⟨ha, fun m hm => hv m (.inr hm)⟩,
      fun name hn hm => hne name hn name hm rfl⟩
  · intro h
    rcases h with ⟨⟨hb, hvb⟩, ⟨ha, hva⟩, hne⟩
    refine ⟨⟨hb, ha, fun a hna b hnb hab => hne a hna (hab ▸ hnb)⟩, ?_⟩
    rintro m (hm | hm)
    · exact hvb m hm
    · exact hva m hm

theorem UniqueInMembers.split {before after : Members} {name : String} {value : Json}
    (h : UniqueInMembers (before ++ (name, value) :: after)) :
    name ∉ before.map Prod.fst ∧ name ∉ after.map Prod.fst ∧ value.UniqueNames ∧
      UniqueInMembers (before ++ after) := by
  obtain ⟨hb, ⟨hna, hv, ha⟩, hne⟩ := uniqueInMembers_append.mp h
  refine ⟨fun hn => hne name hn (by simp), hna, hv, uniqueInMembers_append.mpr ⟨hb, ha, ?_⟩⟩
  intro other ho hm
  exact hne other ho (by simp [hm])

theorem UniqueInMembers.get?_eq_none {before after : Members} {name : String} {value : Json}
    (h : UniqueInMembers (before ++ (name, value) :: after)) :
    Members.get? name (before ++ after) = none := by
  obtain ⟨hb, ha, -, -⟩ := h.split
  exact Members.get?_eq_none_iff.mpr (by simpa using ⟨by simpa using hb, by simpa using ha⟩)

theorem UniqueInMembers.get?_of_mem {members : Members} (h : UniqueInMembers members)
    {member : String × Json} (hm : member ∈ members) :
    members.get? member.1 = some member.2 := by
  obtain ⟨before, after, rfl⟩ := List.append_of_mem hm
  exact Members.get?_append_cons_self (Members.get?_eq_none_iff.mpr h.split.1)

theorem UniqueInMembers.replace {before after : Members} {name : String} {value new : Json}
    (h : UniqueInMembers (before ++ (name, value) :: after)) (hnew : new.UniqueNames) :
    UniqueInMembers (before ++ (name, new) :: after) := by
  obtain ⟨hb, ⟨hna, -, ha⟩, hne⟩ := uniqueInMembers_append.mp h
  exact uniqueInMembers_append.mpr ⟨hb, ⟨hna, hnew, ha⟩, by simpa using hne⟩

end LocaleTidy.Json
