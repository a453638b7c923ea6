import LocaleTidy.Proofs.FileTree.Longer

/-!
# Trees that agree elsewhere

Two trees that differ at some places only are walked alike until one of these places is looked
up. Where nothing at them leads on to a directory, a walk that reaches a directory is the same in
both trees.
-/

namespace LocaleTidy.FileTree

/-- The second tree is the first one but for what stands at some places. -/
structure AgreeOutside (places : List Location) (tree other : FileTree) : Prop where
  current : other.current = tree.current
  entries : (other.entries.filter fun item => item.1 ∉ places) =
    tree.entries.filter fun item => item.1 ∉ places

variable {tree other : FileTree} {places : List Location} {location : Location}
  {purpose : Purpose} {links : Nat} {here : Location} {pieces : List String}

theorem lookup_filter_notMem {entries : List (Location × Entry)} (h : location ∉ places) :
    (entries.filter fun item => item.1 ∉ places).lookup location = entries.lookup location := by
  induction entries with
  | nil => rfl
  | cons item rest ih =>
      rcases item with ⟨place, entry⟩
      by_cases hp : place ∈ places
      · have hne : location ≠ place := fun heq => h (heq ▸ hp)
        rw [List.filter_cons_of_neg (by simpa using hp), ih, List.lookup_cons,
          beq_false_of_ne hne]
      · rw [List.filter_cons_of_pos (by simpa using hp), List.lookup_cons, List.lookup_cons, ih]

theorem AgreeOutside.get? (ha : AgreeOutside places tree other) (h : location ∉ places) :
    other.get? location = tree.get? location := by
  unfold FileTree.get?
  rw [← lookup_filter_notMem h, ha.entries, lookup_filter_notMem h]

/-! ### Changes -/

theorem AgreeOutside.refl (places : List Location) (tree : FileTree) :
    AgreeOutside places tree tree := ⟨rfl, rfl⟩

theorem AgreeOutside.symm (ha : AgreeOutside places tree other) :
    AgreeOutside places other tree := ⟨ha.current.symm, ha.entries.symm⟩

theorem AgreeOutside.trans {third : FileTree} (ha : AgreeOutside places tree other)
    (hb : AgreeOutside places other third) : AgreeOutside places tree third :=
  ⟨hb.current.trans ha.current, hb.entries.trans ha.entries⟩

theorem AgreeOutside.mono {more : List Location} (ha : AgreeOutside places tree other)
    (h : places ⊆ more) : AgreeOutside more tree other where
  current := ha.current
  entries := by
    have hmore : ∀ entries : List (Location × Entry),
        (entries.filter fun item => item.1 ∉ more) =
          (entries.filter fun item => item.1 ∉ places).filter fun item => item.1 ∉ more := by
      intro entries
      rw [List.filter_filter]
      apply List.filter_congr
      intro item _
      by_cases hi : item.1 ∈ places
      · simp [h hi]
      · simp [hi]
    rw [hmore, ha.entries, ← hmore]

theorem filter_setIn {entry : Entry} {entries : List (Location × Entry)}
    (h : location ∈ places) :
    ((setIn location entry entries).filter fun item => item.1 ∉ places) =
      entries.filter fun item => item.1 ∉ places := by
  induction entries with
  | nil => simp [setIn, h]
  | cons item rest ih =>
      rcases item with ⟨place, old⟩
      by_cases hp : place = location
      · simp [setIn, hp, h]
      · simp only [setIn, hp, if_false, List.filter_cons, ih]

theorem AgreeOutside.set (ha : AgreeOutside places tree other) (h : location ∈ places)
    (entry : Entry) : AgreeOutside places tree (other.set location entry) where
  current := ha.current
  entries := by rw [FileTree.set, filter_setIn h, ha.entries]

theorem AgreeOutside.erase (ha : AgreeOutside places tree other) (h : location ∈ places) :
    AgreeOutside places tree (other.erase location) where
  current := ha.current
  entries := by
    rw [← ha.entries, FileTree.erase, List.filter_filter]
    apply List.filter_congr
    intro item _
    by_cases hi : item.1 = location <;> simp [hi, h]

theorem AgreeOutside.rooted (ha : AgreeOutside places tree other) (ht : tree.Rooted)
    (hplaces : ∀ place ∈ places, ¬ tree.IsDirectory place)
    (hparents : ∀ place ∈ places, tree.IsDirectory place.dropLast) : other.Rooted := by
  have hkeep : ∀ place, tree.IsDirectory place → other.IsDirectory place := by
    intro place h
    rw [IsDirectory, ha.get? fun hmem => hplaces place hmem h]
    exact h
  refine ⟨hkeep _ ht.root, ?_⟩
  intro place hthere
  by_cases hp : place ∈ places
  · exact hkeep _ (hparents place hp)
  · rw [ha.get? hp] at hthere
    exact hkeep _ (ht.parents place hthere)

theorem filter_of_absent (h : tree.get? place = none) :
    (tree.entries.filter fun item => item.1 ∉ [place]) = tree.entries := by
  rw [List.filter_eq_self]
  intro item hitem
  have hthere := get?_isSome_of_mem hitem
  simp only [List.mem_singleton, decide_eq_true_eq]
  rintro rfl
  simp [h] at hthere

theorem AgreeOutside.eq_of_absent (ha : AgreeOutside [place] tree other)
    (hnone : tree.get? place = none) (hgone : other.get? place = none) : other = tree := by
  have hentries : other.entries = tree.entries := by
    rw [← filter_of_absent hnone, ← filter_of_absent hgone, ha.entries]
  rcases tree with ⟨entries, current⟩
  rcases other with ⟨others, now⟩
  obtain rfl : now = current := ha.current
  obtain rfl : others = entries := hentries
  rfl

/-! ### Walks -/

/-- A name that leads to one of some places is looked up by the walks of two trees; up to it they
are the same, and the same for use as well. -/
def Meets (places : List Location) (tree other : FileTree) (purpose : Purpose) (links : Nat)
    (here : Location) (pieces : List String) : Prop :=
  ∃ left site name rest, site ++ [name] ∈ places ∧
    withoutLook? (tree.permits .enter site) purpose site name rest = none ∧
    other.permits .enter site = tree.permits .enter site ∧
    ∀ goal, goal = purpose ∨ goal = .use →
      walkWithin tree goal links here pieces = walkWithin tree goal left site (name :: rest) ∧
      walkWithin other goal links here pieces = walkWithin other goal left site (name :: rest)

/-- A meeting that walks come to is one of the walks that come to them. -/
theorem Meets.of_walks {fewer : Nat} {there : Location} {rest : List String}
    (h : Meets places tree other purpose fewer there rest)
    (hgoals : ∀ goal, goal = purpose ∨ goal = .use →
      walkWithin tree goal links here pieces = walkWithin tree goal fewer there rest ∧
      walkWithin other goal links here pieces = walkWithin other goal fewer there rest) :
    Meets places tree other purpose links here pieces := by
  rcases h with ⟨left, site, name, more, hmem, hlook, hpermits, hwalks⟩
  refine ⟨left, site, name, more, hmem, hlook, hpermits, fun goal hgoal => ?_⟩
  rw [(hgoals goal hgoal).1, (hgoals goal hgoal).2]
  exact hwalks goal hgoal

theorem step_goal {goal : Purpose} {piece : String} {rest : List String} {found : Step}
    (hgoal : goal = purpose ∨ goal = .use) (h : step tree purpose here piece rest = found)
    (hgo : ∀ result, found ≠ .stop result) : step tree goal here piece rest = found := by
  rcases hgoal with rfl | rfl
  · exact h
  · exact step_use_of_ne_stop h hgo

/-- Walks that take the same step meet a place if they do so behind it. -/
theorem Meets.of_step {fewer : Nat} {there : Location} {piece : String} {rest more : List String}
    {found : Step} (h : Meets places tree other purpose fewer there more)
    (hstep : step tree purpose here piece rest = found)
    (hsame : step other purpose here piece rest = found)
    (hgo : ∀ result, found ≠ .stop result)
    (hnext : ∀ tree goal, goOn tree goal links rest found = walkWithin tree goal fewer there more) :
    Meets places tree other purpose links here (piece :: rest) := by
  refine h.of_walks fun goal hgoal => ?_
  rw [walkWithin_cons, walkWithin_cons, step_goal hgoal hstep hgo, step_goal hgoal hsame hgo,
    hnext, hnext]
  exact ⟨rfl, rfl⟩

theorem step_agree_or_meets (ha : AgreeOutside places tree other) (hhere : here ∉ places)
    (purpose : Purpose) (links : Nat) (piece : String) (rest : List String) :
    step other purpose here piece rest = step tree purpose here piece rest ∨
      Meets places tree other purpose links here (piece :: rest) := by
  have hpermits : other.permits .enter here = tree.permits .enter here := by
    rw [permits, permits, ha.get? hhere]
  unfold step
  rw [hpermits]
  cases hlook : withoutLook? (tree.permits .enter here) purpose here piece rest with
  | some found => exact .inl rfl
  | none =>
      by_cases hmem : here ++ [piece] ∈ places
      · exact .inr ⟨links, here, piece, rest, hmem, hlook, hpermits, fun goal _ => ⟨rfl, rfl⟩⟩
      · exact .inl (by rw [ha.get? hmem])

theorem walkWithin_agree_or_meets (ht : tree.Rooted) (ha : AgreeOutside places tree other)
    (hplaces : ∀ place ∈ places, ¬ tree.IsDirectory place) (hd : tree.IsDirectory here)
    (purpose : Purpose) (links : Nat) (pieces : List String) :
    walkWithin other purpose links here pieces = walkWithin tree purpose links here pieces ∨
      Meets places tree other purpose links here pieces := by
  induction links, here, pieces using walk_induction tree purpose with
  | done links here =>
      have hget := ha.get? fun hmem => hplaces here hmem hd
      exact .inl (by rw [walkWithin_nil, walkWithin_nil, hget])
  | stop links here piece rest result hstep hwalk =>
      rcases step_agree_or_meets ha (fun hmem => hplaces here hmem hd) purpose links piece rest
        with hsame | hmeet
      · exact .inl (by rw [hwalk, walkWithin_cons, hsame, hstep, goOn])
      · exact .inr hmeet
  | go links here piece rest there hstep hwalk ih =>
      rcases step_agree_or_meets ha (fun hmem => hplaces here hmem hd) purpose links piece rest
        with hsame | hmeet
      · rcases ih (isDirectory_go ht hd hstep) with hrest | hmeet
        · exact .inl (by rw [hwalk, walkWithin_cons, hsame, hstep, goOn, hrest])
        · exact .inr (hmeet.of_step hstep (hsame.trans hstep) (by simp) fun _ _ => rfl)
      · exact .inr hmeet
  | tired here piece rest start pieces hstep hwalk =>
      rcases step_agree_or_meets ha (fun hmem => hplaces here hmem hd) purpose 0 piece rest
        with hsame | hmeet
      · exact .inl (by rw [hwalk, walkWithin_cons, hsame, hstep, goOn])
      · exact .inr hmeet
  | follow links here piece rest start pieces hstep hwalk ih =>
      rcases step_agree_or_meets ha (fun hmem => hplaces here hmem hd) purpose (links + 1) piece
        rest with hsame | hmeet
      · rcases ih (isDirectory_follow ht hd hstep) with hrest | hmeet
        · exact .inl (by rw [hwalk, walkWithin_cons, hsame, hstep, goOn, hrest])
        · exact .inr (hmeet.of_step hstep (hsame.trans hstep) (by simp) fun _ _ => rfl)
      · exact .inr hmeet

/-! ### Places that block walks -/

/-- Neither a directory nor a link. -/
def IsPlain : Option Entry → Prop
  | none => True
  | some (.file _ _) => True
  | some _ => False

theorem file_of_isPlain {entry : Entry} (h : IsPlain (some entry)) :
    ∃ bytes mode, entry = .file bytes mode := by
  cases entry with
  | directory mode => exact h.elim
  | link target => exact h.elim
  | file bytes mode => exact ⟨bytes, mode, rfl⟩

/-- No walk gets past a place: to no directory and, if it finds anything, no further, and
elsewhere only if it finds something. -/
structure Blocks (tree : FileTree) (location : Location) : Prop where
  notDirectory : ¬ tree.IsDirectory location
  stops : ∀ site name links rest spot, site ++ [name] = location →
    withoutLook? (tree.permits .enter site) .use site name rest = none →
    walkWithin tree .use links site (name :: rest) = .ok spot →
    (∀ mode, spot.entry ≠ some (.directory mode)) ∧ (spot.entry.isSome → rest = []) ∧
      (spot.entry = none → spot.location = location)

variable {site : Location} {name : String} {rest : List String}

theorem walkWithin_look
    (h : withoutLook? (tree.permits .enter site) purpose site name rest = none) :
    walkWithin tree purpose links site (name :: rest) =
      goOn tree purpose links rest
        (stepTo purpose site (site ++ [name]) rest (tree.get? (site ++ [name]))) := by
  rw [walkWithin_cons, step, h, Option.getD_none]

theorem walkWithin_plain
    (h : withoutLook? (tree.permits .enter site) purpose site name rest = none)
    (hp : IsPlain (tree.get? (site ++ [name]))) :
    walkWithin tree purpose links site (name :: rest) =
      landing (site ++ [name]) rest (tree.get? (site ++ [name])) := by
  rw [walkWithin_look h]
  rcases hentry : tree.get? (site ++ [name]) with _ | _ | _ | _
  · rfl
  · rw [hentry] at hp
    exact hp.elim
  · rfl
  · rw [hentry] at hp
    exact hp.elim

theorem blocks_of_isPlain (h : IsPlain (tree.get? location)) : tree.Blocks location where
  notDirectory := by
    intro hx
    rcases hx with ⟨mode, hmode⟩
    rw [hmode] at h
    exact h
  stops := by
    intro site name links rest spot hl hlook hw
    subst hl
    rw [walkWithin_plain hlook h] at hw
    rcases hentry : tree.get? (site ++ [name]) with _ | _ | _ | _ <;>
      simp only [hentry, landing] at hw h
    · split at hw <;> cases hw
      simp
    · exact h.elim
    · split at hw <;> cases hw
      simp_all
    · exact h.elim

/-- What leads to a file blocks walks, be it a link. -/
theorem blocks_of_walkWithin (ht : tree.Rooted) (hd : tree.IsDirectory site)
    (hplace : ¬ tree.IsDirectory (site ++ [name])) {place : Location} {bytes : ByteArray}
    {mode : Nat}
    (h : walkWithin tree .use links site [name] = .ok ⟨place, some (.file bytes mode)⟩) :
    tree.Blocks (site ++ [name]) where
  notDirectory := hplace
  stops := by
    intro other last links rest spot hl _ hw
    obtain ⟨rfl, hlast⟩ := List.append_inj' hl rfl
    cases hlast
    have hmore : walkWithin tree .use links other ([name] ++ rest) = .ok spot := hw
    obtain ⟨rfl, rfl⟩ := walkWithin_past_file ht hd h hmore
    simp

/-- What is looked up for handling, past a place that blocks walks, is no file elsewhere. -/
theorem Blocks.handle (hb : tree.Blocks (site ++ [name])) {spot : Spot} {bytes : ByteArray}
    {mode : Nat}
    (hlook : withoutLook? (tree.permits .enter site) .handle site name rest = none)
    (hw : walkWithin tree .handle links site (name :: rest) = .ok spot)
    (hfile : spot.entry = some (.file bytes mode)) : spot.location = site ++ [name] := by
  rcases spot with ⟨place, found⟩
  cases hfile
  by_cases hplain : IsPlain (tree.get? (site ++ [name]))
  · rw [walkWithin_plain hlook hplain] at hw
    rcases hentry : tree.get? (site ++ [name]) with _ | _ | _ | _ <;>
      simp only [hentry, landing] at hw hplain
    · split at hw <;> cases hw
    · exact hplain.elim
    · split at hw <;> cases hw
      rfl
    · exact hplain.elim
  · -- A link: as the last name it is not followed, and otherwise nothing is found behind it.
    rcases hentry : tree.get? (site ++ [name]) with _ | mode | _ | target
    · simp [hentry, IsPlain] at hplain
    · exact (hb.notDirectory ⟨mode, hentry⟩).elim
    · simp [hentry, IsPlain] at hplain
    · have huse : walkWithin tree .use links site (name :: rest) =
          .ok ⟨place, some (.file bytes mode)⟩ := walkWithin_use hw (by simp)
      obtain rfl := (hb.stops _ _ _ _ _ rfl (withoutLook?_use hlook) huse).2.1 rfl
      rw [walkWithin_look hlook, hentry] at hw
      simp [stepTo, goOn] at hw

/-! ### Walks that meet such places -/

theorem Meets.not_directory (hm : Meets places tree other purpose links here pieces)
    (hb : ∀ place ∈ places, tree.Blocks place) {spot : Spot}
    (h : walkWithin tree .use links here pieces = .ok spot) :
    ∀ mode, spot.entry ≠ some (.directory mode) := by
  rcases hm with ⟨left, site, name, rest, hmem, hlook, -, hwalks⟩
  rw [(hwalks .use (.inr rfl)).1] at h
  exact ((hb _ hmem).stops site name left rest spot rfl (withoutLook?_use hlook) h).1

theorem Meets.symm (hm : Meets places tree other purpose links here pieces) :
    Meets places other tree purpose links here pieces := by
  rcases hm with ⟨left, site, name, rest, hmem, hlook, hpermits, hwalks⟩
  refine ⟨left, site, name, rest, hmem, by rw [hpermits, hlook], hpermits.symm, ?_⟩
  intro goal hgoal
  exact (hwalks goal hgoal).symm

theorem Meets.handle_mem (hm : Meets places tree other .handle links here pieces)
    (hb : ∀ place ∈ places, tree.Blocks place) {place : Location} {bytes : ByteArray} {mode : Nat}
    (h : walkWithin tree .handle links here pieces = .ok ⟨place, some (.file bytes mode)⟩) :
    place ∈ places := by
  rcases hm with ⟨left, site, name, rest, hmem, hlook, -, hwalks⟩
  rw [(hwalks .handle (.inl rfl)).1] at h
  have hplace : place = site ++ [name] := (hb _ hmem).handle hlook h rfl
  exact hplace ▸ hmem

theorem AgreeOutside.walkWithin_directory (ht : tree.Rooted)
    (ha : AgreeOutside places tree other) (hb : ∀ place ∈ places, tree.Blocks place)
    (hd : tree.IsDirectory here) {place : Location} {mode : Nat}
    (h : walkWithin tree .use links here pieces = .ok ⟨place, some (.directory mode)⟩) :
    walkWithin other .use links here pieces = .ok ⟨place, some (.directory mode)⟩ := by
  rcases walkWithin_agree_or_meets ht ha (fun place hp => (hb place hp).notDirectory) hd .use
    links pieces with hsame | hmeet
  · rw [hsame, h]
  · exact (hmeet.not_directory hb h mode rfl).elim

end LocaleTidy.FileTree
