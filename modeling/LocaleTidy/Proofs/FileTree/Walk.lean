import LocaleTidy.FileTree.Resolve

/-!
# Walks, piece by piece

A walk takes the pieces of a path one after the other. What it does with a piece depends on the
directory where it stands and on what bears the name there; the links that it has followed only
bound how many it may still follow.
-/

namespace LocaleTidy.FileTree

/-! ## Trees as they occur -/

/-- A text that can be the name of an entry. -/
structure IsName (name : String) : Prop where
  nonempty : name ≠ ""
  ne_here : name ≠ "."
  ne_up : name ≠ ".."
  noSlash : '/' ∉ name.toList

def IsDirectory (tree : FileTree) (location : Location) : Prop :=
  ∃ mode, tree.get? location = some (.directory mode)

/-- Whatever is there lies in a directory. -/
structure Rooted (tree : FileTree) : Prop where
  root : tree.IsDirectory []
  parents : ∀ location, (tree.get? location).isSome → tree.IsDirectory location.dropLast

/-- What any tree of files meets. -/
structure WellFormed (tree : FileTree) : Prop extends Rooted tree where
  distinct : (tree.entries.map (·.1)).Nodup
  names : ∀ item ∈ tree.entries, ∀ name ∈ item.1, IsName name
  current : tree.IsDirectory tree.current

theorem parents_of_entries {tree : FileTree} (hroot : tree.IsDirectory [])
    (h : ∀ item ∈ tree.entries, tree.IsDirectory item.1.dropLast) (location : Location)
    (hthere : (tree.get? location).isSome) : tree.IsDirectory location.dropLast := by
  rw [get?] at hthere
  split at hthere
  · rename_i entry hlookup
    obtain ⟨front, back, hentries, -⟩ := List.lookup_eq_some_iff.mp hlookup
    exact h (location, entry) (by simp [hentries])
  · split at hthere
    · rename_i hnil
      rwa [hnil]
    · cases hthere

theorem get?_isSome_of_mem {tree : FileTree} {item : Location × Entry}
    (h : item ∈ tree.entries) : (tree.get? item.1).isSome := by
  unfold get?
  cases hlookup : tree.entries.lookup item.1 with
  | some entry => rfl
  | none => simpa using List.lookup_eq_none_iff.mp hlookup item h

theorem wellFormed_iff {tree : FileTree} :
    tree.WellFormed ↔ tree.IsDirectory [] ∧
      (∀ item ∈ tree.entries, tree.IsDirectory item.1.dropLast) ∧
      (tree.entries.map (·.1)).Nodup ∧
      (∀ item ∈ tree.entries, ∀ name ∈ item.1, IsName name) ∧ tree.IsDirectory tree.current := by
  constructor
  · intro h
    exact ⟨h.root, fun item hitem => h.parents _ (get?_isSome_of_mem hitem), h.distinct, h.names,
      h.current⟩
  · intro h
    rcases h with ⟨hroot, hparents, hdistinct, hnames, hcurrent⟩
    exact ⟨⟨hroot, parents_of_entries hroot hparents⟩, hdistinct, hnames, hcurrent⟩

instance (name : String) : Decidable (IsName name) :=
  decidable_of_iff (name ≠ "" ∧ name ≠ "." ∧ name ≠ ".." ∧ '/' ∉ name.toList)
    ⟨fun h => ⟨h.1, h.2.1, h.2.2.1, h.2.2.2⟩,
      fun h => ⟨h.nonempty, h.ne_here, h.ne_up, h.noSlash⟩⟩

instance (tree : FileTree) (location : Location) : Decidable (tree.IsDirectory location) :=
  match h : tree.get? location with
  | some (.directory mode) => isTrue ⟨mode, h⟩
  | some (.file _ _) | some (.link _) | none => isFalse (by simp [IsDirectory, h])

instance (tree : FileTree) : Decidable tree.WellFormed :=
  decidable_of_iff _ wellFormed_iff.symm

/-! ## Steps -/

inductive Step where
  | stop (result : Except FileError Spot)
  | go (there : Location)
  | follow (start : Location) (pieces : List String)

/-- How a walk ends at a place where neither a directory nor a link stands. -/
def landing (location : Location) (rest : List String) : Option Entry → Except FileError Spot
  | none => if rest.all (· == "") then .ok ⟨location, none⟩ else .error .notFound
  | some entry => if rest.isEmpty then .ok ⟨location, some entry⟩ else .error .notDirectory

/-- What a walk does with a piece if no name is looked up for it. -/
def withoutLook? (opened : Bool) (purpose : Purpose) (here : Location) (piece : String)
    (rest : List String) : Option Step :=
  if piece.isEmpty then some (.go here)
  else if !opened then some (.stop (.error .denied))
  else if piece = "." then some (.go here)
  else if piece = ".." then some (.go here.dropLast)
  else if purpose = .write && endsInSlash rest then some (.stop (.error .isDirectory))
  else if maxNameBytes < piece.utf8ByteSize then some (.stop (.error .nameTooLong))
  else none

/-- What a walk does with a name that leads to a place. -/
def stepTo (purpose : Purpose) (here there : Location) (rest : List String) :
    Option Entry → Step
  | some (.directory mode) =>
      if rest.isEmpty then .stop (.ok ⟨there, some (.directory mode)⟩) else .go there
  | some (.link target) =>
      if rest.isEmpty && purpose = .handle then .stop (.ok ⟨there, some (.link target)⟩)
      else
        .follow (if target.startsWith "/" then [] else here) (Text.split '/' target ++ rest)
  | some (.file bytes mode) => .stop (landing there rest (some (.file bytes mode)))
  | none => .stop (landing there rest none)

def step (tree : FileTree) (purpose : Purpose) (here : Location) (piece : String)
    (rest : List String) : Step :=
  (withoutLook? (tree.permits .enter here) purpose here piece rest).getD
    (stepTo purpose here (here ++ [piece]) rest (tree.get? (here ++ [piece])))

def goOn (tree : FileTree) (purpose : Purpose) (links : Nat) (rest : List String) :
    Step → Except FileError Spot
  | .stop result => result
  | .go there => walkWithin tree purpose links there rest
  | .follow start pieces =>
      match links with
      | 0 => .error .tooManyLinks
      | links + 1 => walkWithin tree purpose links start pieces

variable {tree : FileTree} {purpose : Purpose} {links : Nat} {here there : Location}
  {piece : String} {rest : List String}

theorem walkWithin_nil :
    walkWithin tree purpose links here [] = .ok ⟨here, tree.get? here⟩ := by
  cases links <;> rfl

theorem walkWithin_cons :
    walkWithin tree purpose links here (piece :: rest) =
      goOn tree purpose links rest (step tree purpose here piece rest) := by
  have hwalk : ∃ jump, walkWithin tree purpose links = walk tree purpose jump ∧
      ∀ start pieces, jump start pieces =
        goOn tree purpose links rest (.follow start pieces) := by
    cases links with
    | zero => exact ⟨_, rfl, fun _ _ => rfl⟩
    | succ links => exact ⟨_, rfl, fun _ _ => rfl⟩
  rcases hwalk with ⟨jump, hwalk, hjump⟩
  rw [hwalk, walk, step, withoutLook?]
  split
  · simp [goOn, hwalk]
  split
  · simp [goOn]
  split
  · simp [goOn, hwalk]
  split
  · simp [goOn, hwalk]
  split
  · simp [goOn]
  split
  · simp [goOn]
  simp only [Option.getD_none]
  split
  · rename_i hentry
    simp [hentry, stepTo, landing, goOn]
  · rename_i hentry
    rw [hentry, stepTo]
    split <;> simp [goOn, hwalk]
  · rename_i hentry
    simp [hentry, stepTo, landing, goOn]
  · rename_i hentry
    rw [hentry, stepTo]
    split
    · simp [goOn]
    · exact hjump _ _

/-! ## Walks stand in directories -/

theorem withoutLook?_eq_some {opened : Bool} {found : Step}
    (h : withoutLook? opened purpose here piece rest = some found) :
    (∃ error, found = .stop (.error error)) ∨ found = .go here ∨ found = .go here.dropLast := by
  revert h
  unfold withoutLook?
  repeat' split
  all_goals (intro h; cases h <;> simp)

theorem of_stepTo_go {next : Location} {found : Option Entry}
    (h : stepTo purpose here there rest found = .go next) :
    (∃ mode, found = some (.directory mode)) ∧ next = there := by
  unfold stepTo at h
  split at h
  · rename_i mode
    split at h
    · cases h
    · exact ⟨⟨mode, rfl⟩, (Step.go.inj h).symm⟩
  · split at h <;> cases h
  · cases h
  · cases h

theorem of_stepTo_follow {start : Location} {pieces : List String} {found : Option Entry}
    (h : stepTo purpose here there rest found = .follow start pieces) :
    ∃ target, found = some (.link target) ∧
      start = (if target.startsWith "/" then [] else here) ∧
      pieces = Text.split '/' target ++ rest := by
  unfold stepTo at h
  split at h
  · split at h <;> cases h
  · rename_i target
    split at h
    · cases h
    · obtain ⟨rfl, rfl⟩ := Step.follow.inj h
      exact ⟨target, rfl, rfl, rfl⟩
  · cases h
  · cases h

/-- A walk stops at a name with slashes at most behind it; at something that is there it stops
with the last piece. -/
theorem of_stepTo_stop {spot : Spot} {found : Option Entry}
    (h : stepTo purpose here there rest found = .stop (.ok spot)) :
    spot = ⟨there, found⟩ ∧ rest.all (· == "") = true ∧ (found.isSome → rest = []) := by
  unfold stepTo at h
  split at h
  · split at h
    · rename_i hrest
      obtain rfl : rest = [] := by simpa using hrest
      exact ⟨(Except.ok.inj (Step.stop.inj h)).symm, rfl, fun _ => rfl⟩
    · cases h
  · split at h
    · rename_i hrest
      obtain rfl : rest = [] := by simp_all
      exact ⟨(Except.ok.inj (Step.stop.inj h)).symm, rfl, fun _ => rfl⟩
    · cases h
  · simp only [landing] at h
    split at h
    · rename_i hrest
      obtain rfl : rest = [] := by simpa using hrest
      exact ⟨(Except.ok.inj (Step.stop.inj h)).symm, rfl, fun _ => rfl⟩
    · cases h
  · simp only [landing] at h
    split at h
    · rename_i hrest
      exact ⟨(Except.ok.inj (Step.stop.inj h)).symm, hrest, by simp⟩
    · cases h

/-- What a walk does with a piece: it fails, stays, goes up, or looks the piece up as a name. -/
theorem step_cases (tree : FileTree) (purpose : Purpose) (here : Location) (piece : String)
    (rest : List String) :
    (∃ error, step tree purpose here piece rest = .stop (.error error)) ∨
      (Path.isVoid piece = true ∧ step tree purpose here piece rest = .go here) ∨
      (piece = ".." ∧ step tree purpose here piece rest = .go here.dropLast) ∨
      (Path.isVoid piece = false ∧ piece ≠ ".." ∧ step tree purpose here piece rest =
        stepTo purpose here (here ++ [piece]) rest (tree.get? (here ++ [piece]))) := by
  rw [step, withoutLook?]
  split
  · rename_i hempty
    exact .inr (.inl ⟨by simp [Path.isVoid, String.isEmpty_iff.mp hempty], rfl⟩)
  split
  · exact .inl ⟨_, rfl⟩
  split
  · rename_i hdot
    exact .inr (.inl ⟨by simp [Path.isVoid, hdot], rfl⟩)
  rename_i hempty _ hdot
  split
  · rename_i hup
    exact .inr (.inr (.inl ⟨hup, rfl⟩))
  rename_i hup
  split
  · exact .inl ⟨_, rfl⟩
  split
  · exact .inl ⟨_, rfl⟩
  · exact .inr (.inr (.inr
      ⟨by simpa [Path.isVoid, hdot, String.isEmpty_iff] using hempty, hup, rfl⟩))

theorem Rooted.isDirectory_dropLast (ht : tree.Rooted) (h : tree.IsDirectory here) :
    tree.IsDirectory here.dropLast := by
  rcases h with ⟨mode, hmode⟩
  exact ht.parents here (by simp [hmode])

theorem isDirectory_go (ht : tree.Rooted) (hd : tree.IsDirectory here)
    (h : step tree purpose here piece rest = .go there) : tree.IsDirectory there := by
  rcases step_cases tree purpose here piece rest with
    ⟨error, hstep⟩ | ⟨-, hstep⟩ | ⟨-, hstep⟩ | ⟨-, -, hstep⟩ <;> rw [hstep] at h
  · cases h
  · cases h
    exact hd
  · cases h
    exact ht.isDirectory_dropLast hd
  · obtain ⟨⟨mode, hentry⟩, rfl⟩ := of_stepTo_go h
    exact ⟨mode, hentry⟩

theorem step_follow {start : Location} {pieces : List String}
    (h : step tree purpose here piece rest = .follow start pieces) :
    ∃ target, tree.get? (here ++ [piece]) = some (.link target) ∧
      start = (if target.startsWith "/" then [] else here) ∧
      pieces = Text.split '/' target ++ rest := by
  rcases step_cases tree purpose here piece rest with
    ⟨error, hstep⟩ | ⟨-, hstep⟩ | ⟨-, hstep⟩ | ⟨-, -, hstep⟩ <;> rw [hstep] at h
  · cases h
  · cases h
  · cases h
  · exact of_stepTo_follow h

theorem isDirectory_follow (ht : tree.Rooted) (hd : tree.IsDirectory here)
    {start : Location} {pieces : List String}
    (h : step tree purpose here piece rest = .follow start pieces) : tree.IsDirectory start := by
  obtain ⟨target, -, rfl, -⟩ := step_follow h
  split
  · exact ht.root
  · exact hd

/-- Induction along a walk: on the links that it may follow and, for each number of them, on the
pieces of the path, by what the walk does with the first one. -/
theorem walk_induction (tree : FileTree) (purpose : Purpose)
    {motive : Nat → Location → List String → Prop}
    (done : ∀ links here, motive links here [])
    (stop : ∀ links here piece rest result, step tree purpose here piece rest = .stop result →
      walkWithin tree purpose links here (piece :: rest) = result →
      motive links here (piece :: rest))
    (go : ∀ links here piece rest there, step tree purpose here piece rest = .go there →
      walkWithin tree purpose links here (piece :: rest) =
        walkWithin tree purpose links there rest →
      motive links there rest → motive links here (piece :: rest))
    (tired : ∀ here piece rest start pieces,
      step tree purpose here piece rest = .follow start pieces →
      walkWithin tree purpose 0 here (piece :: rest) = .error .tooManyLinks →
      motive 0 here (piece :: rest))
    (follow : ∀ links here piece rest start pieces,
      step tree purpose here piece rest = .follow start pieces →
      walkWithin tree purpose (links + 1) here (piece :: rest) =
        walkWithin tree purpose links start pieces →
      motive links start pieces → motive (links + 1) here (piece :: rest))
    (links : Nat) (here : Location) (pieces : List String) : motive links here pieces := by
  induction links generalizing here pieces with
  | zero =>
      induction pieces generalizing here with
      | nil => exact done 0 here
      | cons piece rest ih =>
          have hwalk : walkWithin tree purpose 0 here (piece :: rest) =
            goOn tree purpose 0 rest (step tree purpose here piece rest) := walkWithin_cons
          cases hstep : step tree purpose here piece rest with
          | stop result => exact stop _ _ _ _ _ hstep (by rw [hwalk, hstep, goOn])
          | go there => exact go _ _ _ _ _ hstep (by rw [hwalk, hstep, goOn]) (ih there)
          | follow start pieces => exact tired _ _ _ _ _ hstep (by rw [hwalk, hstep, goOn])
  | succ links ihl =>
      induction pieces generalizing here with
      | nil => exact done _ here
      | cons piece rest ih =>
          have hwalk : walkWithin tree purpose (links + 1) here (piece :: rest) =
            goOn tree purpose (links + 1) rest (step tree purpose here piece rest) :=
            walkWithin_cons
          cases hstep : step tree purpose here piece rest with
          | stop result => exact stop _ _ _ _ _ hstep (by rw [hwalk, hstep, goOn])
          | go there => exact go _ _ _ _ _ hstep (by rw [hwalk, hstep, goOn]) (ih there)
          | follow start pieces =>
              exact follow _ _ _ _ _ _ hstep (by rw [hwalk, hstep, goOn]) (ihl start pieces)

/-! ## What a walk ends at -/

theorem step_stop {spot : Spot}
    (h : step tree purpose here piece rest = .stop (.ok spot)) :
    spot.location = here ++ [piece] ∧ spot.entry = tree.get? spot.location ∧
      rest.all (· == "") = true ∧ (spot.entry.isSome → rest = []) := by
  rcases step_cases tree purpose here piece rest with
    ⟨error, hstep⟩ | ⟨-, hstep⟩ | ⟨-, hstep⟩ | ⟨-, -, hstep⟩ <;> rw [hstep] at h
  · cases h
  · cases h
  · cases h
  · obtain ⟨rfl, hrest⟩ := of_stepTo_stop h
    exact ⟨rfl, rfl, hrest⟩

theorem entry_of_walkWithin {pieces : List String} {spot : Spot}
    (h : walkWithin tree purpose links here pieces = .ok spot) :
    spot.entry = tree.get? spot.location := by
  induction links, here, pieces using walk_induction tree purpose with
  | done links here =>
      rw [walkWithin_nil] at h
      cases h
      rfl
  | stop links here piece rest result hstep hwalk =>
      rw [hwalk] at h
      exact (step_stop (h ▸ hstep)).2.1
  | go links here piece rest there hstep hwalk ih => exact ih (hwalk ▸ h)
  | tired here piece rest start pieces hstep hwalk =>
      rw [hwalk] at h
      cases h
  | follow links here piece rest start pieces hstep hwalk ih => exact ih (hwalk ▸ h)

theorem isDirectory_of_walkWithin (ht : tree.Rooted) (hd : tree.IsDirectory here)
    {pieces : List String} {spot : Spot}
    (h : walkWithin tree purpose links here pieces = .ok spot) :
    tree.IsDirectory spot.location.dropLast := by
  induction links, here, pieces using walk_induction tree purpose with
  | done links here =>
      rw [walkWithin_nil] at h
      cases h
      exact ht.isDirectory_dropLast hd
  | stop links here piece rest result hstep hwalk =>
      rw [hwalk] at h
      have hplace := (step_stop (h ▸ hstep)).1
      rw [hplace, List.dropLast_concat]
      exact hd
  | go links here piece rest there hstep hwalk ih =>
      exact ih (isDirectory_go ht hd hstep) (hwalk ▸ h)
  | tired here piece rest start pieces hstep hwalk =>
      rw [hwalk] at h
      cases h
  | follow links here piece rest start pieces hstep hwalk ih =>
      exact ih (isDirectory_follow ht hd hstep) (hwalk ▸ h)

/-! ## What a walk is for -/

theorem withoutLook?_purpose (opened : Bool) (purpose : Purpose) (here : Location)
    (piece : String) (rest : List String) :
    withoutLook? opened purpose here piece rest = withoutLook? opened .use here piece rest ∨
      purpose = .write ∧
        ∃ error, withoutLook? opened purpose here piece rest = some (.stop (.error error)) := by
  unfold withoutLook?
  by_cases hslash : (purpose = .write && endsInSlash rest) = true
  · repeat' split
    all_goals simp_all
  · exact .inl (by simp [hslash])

theorem withoutLook?_use {opened : Bool}
    (h : withoutLook? opened purpose here piece rest = none) :
    withoutLook? opened .use here piece rest = none := by
  rcases withoutLook?_purpose opened purpose here piece rest with hsame | ⟨-, error, hstop⟩
  · rw [← hsame, h]
  · rw [h] at hstop
    cases hstop

/-- What a walk is for shows only where it refuses to write or ends at a link. -/
theorem step_purpose (tree : FileTree) (purpose : Purpose) (here : Location) (piece : String)
    (rest : List String) :
    step tree purpose here piece rest = step tree .use here piece rest ∨
      (purpose = .write ∧ ∃ error, step tree purpose here piece rest = .stop (.error error)) ∨
      ∃ location target,
        step tree purpose here piece rest = .stop (.ok ⟨location, some (.link target)⟩) := by
  unfold step
  rcases withoutLook?_purpose (tree.permits .enter here) purpose here piece rest with
    hsame | ⟨hwrite, error, hstop⟩
  · rw [hsame]
    cases withoutLook? (tree.permits .enter here) .use here piece rest with
    | some found => exact .inl rfl
    | none =>
        rw [Option.getD_none, Option.getD_none]
        unfold stepTo
        split
        · exact .inl rfl
        · split
          · exact .inr (.inr ⟨_, _, rfl⟩)
          · exact .inl (by simp)
        · exact .inl rfl
        · exact .inl rfl
  · exact .inr (.inl ⟨hwrite, error, by rw [hstop, Option.getD_some]⟩)

theorem step_use_of_ne_stop {found : Step} (h : step tree purpose here piece rest = found)
    (hgo : ∀ result, found ≠ .stop result) : step tree .use here piece rest = found := by
  rcases step_purpose tree purpose here piece rest with
    hsame | ⟨-, error, hstop⟩ | ⟨location, target, hstop⟩
  · rw [← hsame, h]
  · exact (hgo _ (h.symm.trans hstop)).elim
  · exact (hgo _ (h.symm.trans hstop)).elim

theorem walkWithin_purpose (tree : FileTree) (purpose : Purpose) (links : Nat) (here : Location)
    (pieces : List String) :
    walkWithin tree purpose links here pieces = walkWithin tree .use links here pieces ∨
      (purpose = .write ∧ ∃ error, walkWithin tree purpose links here pieces = .error error) ∨
      ∃ location target,
        walkWithin tree purpose links here pieces = .ok ⟨location, some (.link target)⟩ := by
  induction links, here, pieces using walk_induction tree purpose with
  | done links here => exact .inl (by rw [walkWithin_nil, walkWithin_nil])
  | stop links here piece rest result hstep hwalk =>
      rcases step_purpose tree purpose here piece rest with
        hsame | ⟨hwrite, error, hstop⟩ | ⟨location, target, hstop⟩
      · exact .inl (by rw [hwalk, walkWithin_cons, ← hsame, hstep, goOn])
      · cases hstep.symm.trans hstop
        exact .inr (.inl ⟨hwrite, error, hwalk⟩)
      · cases hstep.symm.trans hstop
        exact .inr (.inr ⟨location, target, hwalk⟩)
  | go links here piece rest there hstep hwalk ih =>
      rw [hwalk, walkWithin_cons, step_use_of_ne_stop hstep (by simp), goOn]
      exact ih
  | tired here piece rest start pieces hstep hwalk =>
      left
      rw [hwalk, walkWithin_cons, step_use_of_ne_stop hstep (by simp), goOn]
  | follow links here piece rest start pieces hstep hwalk ih =>
      rw [hwalk, walkWithin_cons, step_use_of_ne_stop hstep (by simp), goOn]
      exact ih

/-- What a walk finds for any purpose is found for use as well, but for a link. -/
theorem walkWithin_use {pieces : List String} {spot : Spot}
    (h : walkWithin tree purpose links here pieces = .ok spot)
    (hlink : ∀ target, spot.entry ≠ some (.link target)) :
    walkWithin tree .use links here pieces = .ok spot := by
  rcases walkWithin_purpose tree purpose links here pieces with
    hsame | ⟨-, error, hstop⟩ | ⟨location, target, hstop⟩
  · rw [← hsame, h]
  · rw [h] at hstop
    cases hstop
  · rw [h] at hstop
    cases hstop
    exact (hlink target rfl).elim

end LocaleTidy.FileTree
