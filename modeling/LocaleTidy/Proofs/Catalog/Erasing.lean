import LocaleTidy.Proofs.Catalog.Pruning

/-!
# Erasing keys

Erasing a key follows its segments. However many keys are erased, and in whatever order, the
pruned result is the pruned catalog without the members that the segments of a key lead to.
-/

namespace LocaleTidy.Catalog

open Json (UniqueNames UniqueInMembers)

/-! ## One path -/

/-- Where names occur once, paths that all go through one name concern its member only. -/
theorem dropMembers_only {before after : Json.Members} {name : String} {value : Json}
    {gone : List String → Bool} (hb : name ∉ before.map Prod.fst) (ha : name ∉ after.map Prod.fst)
    (h : ∀ other, other ≠ name → ∀ path, gone (other :: path) = false) :
    dropMembers gone (before ++ (name, value) :: after) =
      before ++ (if gone [name] then [] else
        [(name, dropValue (fun path => gone (name :: path)) value)]) ++ after := by
  have hother : ∀ members : Json.Members, name ∉ members.map Prod.fst →
      dropMembers gone members = members := by
    intro members hn
    apply dropMembers_eq_self
    intro other ho
    exact h other fun heq => hn (heq ▸ ho)
  rw [dropMembers_append, hother before hb, dropMembers, hother after ha]
  cases gone [name] <;> simp

theorem dropMembers_path {before after : Json.Members} {name : String} {value : Json}
    (hb : name ∉ before.map Prod.fst) (ha : name ∉ after.map Prod.fst) (rest : List String) :
    dropMembers (· == name :: rest) (before ++ (name, value) :: after) =
      before ++ (if rest = [] then [] else [(name, dropValue (· == rest) value)]) ++ after := by
  rw [dropMembers_only hb ha (by simp_all)]
  cases rest <;> simp

theorem dropMembers_of_at?_eq_none {path : List String} {members : Json.Members}
    (hu : UniqueInMembers members) (h : (Json.object members).at? path = none) :
    dropMembers (· == path) members = members := by
  induction path generalizing members with
  | nil => simp [Json.at?] at h
  | cons name rest ih =>
      rw [Json.at?_cons_object] at h
      cases hg : Json.Members.get? name members with
      | none =>
          apply dropMembers_eq_self
          intro other ho path
          have hne : other ≠ name := fun he => Json.Members.get?_eq_none_iff.mp hg (he ▸ ho)
          simp [hne]
      | some value =>
          obtain ⟨before, after, rfl, -⟩ := Json.Members.exists_eq_append_of_get? hg
          obtain ⟨hb, ha, hv, -⟩ := hu.split
          have hrest : rest ≠ [] := by
            rintro rfl
            simp [hg, Json.at?] at h
          have hvalue : dropValue (· == rest) value = value := by
            cases value with
            | object inner =>
                rw [hg, Option.bind_some] at h
                rw [dropValue, ih hv h]
            | _ => rfl
          rw [dropMembers_path hb ha, if_neg hrest, hvalue]
          simp

theorem erasePath_eq_none_iff {path : List String} (hne : path ≠ []) {members : Json.Members} :
    erasePath path members = none ↔ (Json.object members).at? path = none := by
  fun_induction erasePath path members with
  | case1 => exact absurd rfl hne
  | case2 name members h =>
      obtain ⟨value, hv⟩ := Option.isSome_iff_exists.mp h
      simp [Json.at?, hv]
  | case3 name members h =>
      have hnone : Json.Members.get? name members = none := by simpa using h
      simp [Json.at?, hnone]
  | case4 name rest members hrest inner hg he ih =>
      simpa [Json.at?_cons_object, hg] using (ih (by simpa using hrest)).mp he
  | case5 name rest members hrest inner hg he ih =>
      have hsome := (not_congr (ih (by simpa using hrest))).mp (by simp [he])
      simpa [Json.at?_cons_object, hg] using hsome
  | case6 name rest members hrest inner hg new hnew he ih =>
      have hsome := (not_congr (ih (by simpa using hrest))).mp (by simp [he])
      simpa [Json.at?_cons_object, hg] using hsome
  | case7 name rest members hrest hno =>
      simp only [true_iff, Json.at?_cons_object]
      cases hg : Json.Members.get? name members with
      | none => rfl
      | some value =>
          obtain ⟨next, more, rfl⟩ := List.exists_cons_of_ne_nil (by simpa using hrest)
          cases value with
          | object inner => exact absurd hg (hno inner)
          | _ => rfl

/-- The effect of a path on the members of an object: the member that it leads to goes, and so
does every object on the way that this leaves empty. All other members stay in their places. -/
inductive Erased : List String → Json.Members → Json.Members → Prop where
  | last {before after : Json.Members} {name : String} {value : Json}
      (h : before.get? name = none) :
      Erased [name] (before ++ (name, value) :: after) (before ++ after)
  | emptied {before after inner : Json.Members} {name : String} {rest : List String}
      (h : before.get? name = none) (hin : Erased rest inner []) :
      Erased (name :: rest) (before ++ (name, .object inner) :: after) (before ++ after)
  | inside {before after inner new : Json.Members} {name : String} {rest : List String}
      (h : before.get? name = none) (hin : Erased rest inner new) (hne : new ≠ []) :
      Erased (name :: rest) (before ++ (name, .object inner) :: after)
        (before ++ (name, .object new) :: after)

theorem Erased.ne_nil {path : List String} {members result : Json.Members}
    (h : Erased path members result) : path ≠ [] := by
  cases h <;> simp

theorem erased_of_erasePath {path : List String} {members result : Json.Members}
    (h : erasePath path members = some result) : Erased path members result := by
  fun_induction erasePath path members generalizing result with
  | case1 => simp at h
  | case2 name members hs =>
      obtain ⟨value, hv⟩ := Option.isSome_iff_exists.mp hs
      obtain ⟨before, after, rfl, hb⟩ := Json.Members.exists_eq_append_of_get? hv
      obtain rfl := Option.some.inj h
      rw [Json.Members.erase_append_cons hb]
      exact .last hb
  | case3 => simp at h
  | case4 => simp at h
  | case5 name rest members hrest inner hg he ih =>
      obtain ⟨before, after, rfl, hb⟩ := Json.Members.exists_eq_append_of_get? hg
      obtain rfl := Option.some.inj h
      rw [Json.Members.erase_append_cons hb]
      exact .emptied hb (ih he)
  | case6 name rest members hrest inner hg new hnew he ih =>
      obtain ⟨before, after, rfl, hb⟩ := Json.Members.exists_eq_append_of_get? hg
      obtain rfl := Option.some.inj h
      rw [Json.Members.insert_append_cons hb]
      exact .inside hb (ih he) (by rintro rfl; exact hnew rfl)
  | case7 => simp at h

theorem Erased.uniqueInMembers {path : List String} {members result : Json.Members}
    (h : Erased path members result) (hu : UniqueInMembers members) : UniqueInMembers result := by
  induction h with
  | last h => exact hu.split.2.2.2
  | emptied h hin ih => exact hu.split.2.2.2
  | inside h hin hne ih => exact hu.replace (ih hu.split.2.2.1)

/-- Up to empty objects, erasing a path takes out what the path leads to. -/
theorem Erased.pruneMembers_eq {path : List String} {members result : Json.Members}
    (h : Erased path members result) (hu : UniqueInMembers members) :
    pruneMembers result = pruneMembers (dropMembers (· == path) members) := by
  induction h with
  | last h =>
      obtain ⟨hb, ha, -, -⟩ := hu.split
      simp [dropMembers_path hb ha]
  | emptied h hin ih =>
      obtain ⟨hb, ha, hv, -⟩ := hu.split
      have hempty : pruneValue (dropValue (· == _) (.object _)) = .object [] :=
        congrArg Json.object (ih hv).symm
      rw [dropMembers_path hb ha, if_neg hin.ne_nil, List.append_assoc, pruneMembers_append,
        pruneMembers_append, List.singleton_append, pruneMembers_cons_of_empty hempty]
  | inside h hin hne ih =>
      obtain ⟨hb, ha, hv, -⟩ := hu.split
      have hvalue : pruneValue (.object _) = pruneValue (dropValue (· == _) (.object _)) :=
        congrArg Json.object (ih hv)
      rw [dropMembers_path hb ha, if_neg hin.ne_nil, List.append_assoc, pruneMembers_append,
        pruneMembers_append, List.singleton_append, pruneMembers_cons_congr hvalue]

theorem Erased.get?_of_ne {name first : String} {rest : List String} {members result : Json.Members}
    (h : Erased (name :: rest) members result) (hne : first ≠ name) :
    result.get? first = members.get? first := by
  cases h with
  | last h => exact (Json.Members.get?_append_cons_of_ne hne).symm
  | emptied h hin => exact (Json.Members.get?_append_cons_of_ne hne).symm
  | inside h hin hnew =>
      rw [Json.Members.get?_append_cons_of_ne hne, Json.Members.get?_append_cons_of_ne hne]

/-- The member that an erased path goes through is gone, or the rest is erased inside it. -/
theorem Erased.get?_self {name : String} {rest : List String} {members result : Json.Members}
    (h : Erased (name :: rest) members result) (hu : UniqueInMembers members) :
    result.get? name = none ∨
      ∃ inner new, members.get? name = some (.object inner) ∧
        result.get? name = some (.object new) ∧ UniqueInMembers inner ∧ Erased rest inner new := by
  cases h with
  | last h => exact .inl hu.get?_eq_none
  | emptied h hin => exact .inl hu.get?_eq_none
  | inside h hin hne =>
      exact .inr ⟨_, _, Json.Members.get?_append_cons_self h, Json.Members.get?_append_cons_self h,
        hu.split.2.2.1, hin⟩

/-- What is left was there before, or is an object inside which the rest of the path is erased. -/
theorem Erased.mem {name : String} {rest : List String} {members result : Json.Members}
    (h : Erased (name :: rest) members result) {member : String × Json} (hm : member ∈ result) :
    member ∈ members ∨
      ∃ inner new, (name, .object inner) ∈ members ∧ member = (name, .object new) ∧ new ≠ [] ∧
        Erased rest inner new := by
  cases h with
  | last h => exact .inl (by simpa using (List.mem_append.mp hm).imp_right .inr)
  | emptied h hin => exact .inl (by simpa using (List.mem_append.mp hm).imp_right .inr)
  | inside h hin hne =>
      rcases List.mem_append.mp hm with hm | hm
      · exact .inl (by simp [hm])
      rcases List.mem_cons.mp hm with rfl | hm
      · exact .inr ⟨_, _, by simp, rfl, hne, hin⟩
      · exact .inl (by simp [hm])

theorem Erased.at?_eq_none {path other : List String} {members result : Json.Members}
    (h : Erased path members result) (hu : UniqueInMembers members)
    (hn : (Json.object members).at? other = none) : (Json.object result).at? other = none := by
  induction path generalizing other members result with
  | nil => exact (h.ne_nil rfl).elim
  | cons name rest ih =>
      rcases other with _ | ⟨first, more⟩
      · simp [Json.at?] at hn
      rw [Json.at?_cons_object] at hn ⊢
      by_cases hf : first = name
      · subst hf
        rcases h.get?_self hu with hgone | ⟨inner, new, hold, hnew, hinner, hin⟩
        · rw [hgone, Option.bind_none]
        · rw [hold, Option.bind_some] at hn
          rw [hnew, Option.bind_some]
          exact ih hin hinner hn
      · rwa [h.get?_of_ne hf]

theorem Erased.at?_self {path : List String} {members result : Json.Members}
    (h : Erased path members result) (hu : UniqueInMembers members) :
    (Json.object result).at? path = none := by
  induction path generalizing members result with
  | nil => exact (h.ne_nil rfl).elim
  | cons name rest ih =>
      rw [Json.at?_cons_object]
      rcases h.get?_self hu with hgone | ⟨inner, new, -, hnew, hinner, hin⟩
      · rw [hgone, Option.bind_none]
      · rw [hnew, Option.bind_some]
        exact ih hin hinner

/-! ## Many keys -/

/-- Whether a path consists of the segments of one of some keys. -/
def isNamed (keys : List String) (path : List String) : Bool :=
  keys.any fun key => path == Key.segments key

theorem isNamed_nil : isNamed [] = fun _ => false := rfl

theorem isNamed_append (keys more : List String) :
    isNamed (keys ++ more) = fun path => isNamed keys path || isNamed more path :=
  funext fun path => by simp [isNamed]

theorem isNamed_congr {keys other : List String} (h : ∀ key, key ∈ other ↔ key ∈ keys) :
    isNamed other = isNamed keys := by
  funext path
  rw [Bool.eq_iff_iff]
  simp only [isNamed, List.any_eq_true, h]

theorem covers_isNamed {keys : List String} {path : List String} :
    covers (isNamed keys) path = true ↔ ∃ key ∈ keys, Key.segments key <+: path := by
  simp only [covers_iff, isNamed, List.any_eq_true, beq_iff_eq]
  constructor
  · intro h
    rcases h with ⟨_, -, hp, key, hk, rfl⟩
    exact ⟨key, hk, hp⟩
  · intro h
    rcases h with ⟨key, hk, hp⟩
    exact ⟨_, Key.segments_ne_nil key, hp, key, hk, rfl⟩

theorem erase?_eq_some {key : String} {catalog result : Catalog}
    (h : catalog.erase? key = some result) :
    Erased (Key.segments key) catalog.members result.members := by
  obtain ⟨members, hm, rfl⟩ := Option.map_eq_some_iff.mp h
  exact erased_of_erasePath hm

theorem erase?_eq_none_iff {key : String} {catalog : Catalog} :
    catalog.erase? key = none ↔ catalog.toJson.at? (Key.segments key) = none := by
  rw [erase?, Option.map_eq_none_iff, erasePath_eq_none_iff (Key.segments_ne_nil key), toJson]

theorem eraseEach_cons_of_some {key : String} {catalog result : Catalog}
    (h : catalog.erase? key = some result) (rest : List String) :
    eraseEach (key :: rest) catalog =
      (key :: (eraseEach rest result).1, (eraseEach rest result).2) := by
  simp [eraseEach, h]

theorem eraseEach_cons_of_none {key : String} {catalog : Catalog}
    (h : catalog.erase? key = none) (rest : List String) :
    eraseEach (key :: rest) catalog = eraseEach rest catalog := by
  simp [eraseEach, h]

theorem uniqueNames_eraseEach (keys : List String) {catalog : Catalog}
    (hu : catalog.toJson.UniqueNames) : (eraseEach keys catalog).2.toJson.UniqueNames := by
  induction keys generalizing catalog with
  | nil => exact hu
  | cons key rest ih =>
      cases h : catalog.erase? key with
      | none =>
          rw [eraseEach_cons_of_none h]
          exact ih hu
      | some result =>
          rw [eraseEach_cons_of_some h]
          exact ih ((erase?_eq_some h).uniqueInMembers hu)

/-- Up to empty objects, erasing keys takes out what their segments lead to. -/
theorem pruneMembers_eraseEach (keys : List String) {catalog : Catalog}
    (hu : catalog.toJson.UniqueNames) :
    pruneMembers (eraseEach keys catalog).2.members =
      pruneMembers (dropMembers (isNamed keys) catalog.members) := by
  induction keys generalizing catalog with
  | nil => rw [isNamed_nil, dropMembers_nothing, eraseEach]
  | cons key rest ih =>
      have hnamed : isNamed (key :: rest) =
          fun path => path == Key.segments key || isNamed rest path := rfl
      rw [hnamed, ← dropMembers_dropMembers]
      cases h : catalog.erase? key with
      | none =>
          have hself := dropMembers_of_at?_eq_none hu (erase?_eq_none_iff.mp h)
          rw [eraseEach_cons_of_none h, ih hu, hself]
      | some result =>
          have hstep := erase?_eq_some h
          calc
            pruneMembers (eraseEach (key :: rest) catalog).2.members
              = pruneMembers (dropMembers (isNamed rest) result.members) := by
                rw [eraseEach_cons_of_some h, ih (hstep.uniqueInMembers hu)]
            _ = pruneMembers (dropMembers (isNamed rest) (pruneMembers result.members)) :=
                (pruneMembers_drop_prune _ _).symm
            _ = pruneMembers (dropMembers (isNamed rest) (pruneMembers
                  (dropMembers (· == Key.segments key) catalog.members))) := by
                rw [hstep.pruneMembers_eq hu]
            _ = _ := pruneMembers_drop_prune _ _

/-- What erasing keys leaves is the pruned catalog without what their segments lead to. -/
theorem eraseAll_snd (keys : List String) {catalog : Catalog} (hu : catalog.toJson.UniqueNames) :
    (catalog.eraseAll keys).2 = ⟨pruneMembers (dropMembers (isNamed keys) catalog.members)⟩ :=
  congrArg Catalog.mk (pruneMembers_eraseEach keys hu)

/-- A leaf is left if and only if no key leads to it or to an object on the way to it. -/
theorem leaves_eraseAll (keys : List String) {catalog : Catalog}
    (hu : catalog.toJson.UniqueNames) :
    (catalog.eraseAll keys).2.leaves =
      catalog.leaves.filter fun leaf => !covers (isNamed keys) leaf.1 := by
  rw [eraseAll_snd keys hu, leaves, memberLeaves_pruneMembers, memberLeaves_dropMembers, leaves]

theorem uniqueNames_eraseAll (keys : List String) {catalog : Catalog}
    (hu : catalog.toJson.UniqueNames) : (catalog.eraseAll keys).2.toJson.UniqueNames :=
  uniqueInMembers_pruneMembers _ (uniqueNames_eraseEach keys hu)

end LocaleTidy.Catalog
