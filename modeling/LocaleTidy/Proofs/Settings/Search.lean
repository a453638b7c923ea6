import LocaleTidy.Settings.Load
import LocaleTidy.Proofs.Path.Relative

/-!
# The search for settings

The search looks at a directory and at those above it. It ends after as many steps as the path of
the directory has, and it finds the first settings file, unless what marks a repository lies before
it.
-/

namespace LocaleTidy.Settings

open LocaleTidy.Path (components_of_parent? dropLast_components_of_parent?
  length_components_of_ne exists_split)

/-! ## The directories above a path -/

/-- The directories from a path upward: the path, its parent, and so on to the one without a
parent. -/
inductive Ascends : Path → List Path → Prop where
  | top {directory : Path} (h : directory.parent? = none) : Ascends directory [directory]
  | up {directory parent : Path} {above : List Path} (h : directory.parent? = some parent)
      (rest : Ascends parent above) : Ascends directory (directory :: above)

variable {tree : FileTree} {directory parent start path : Path} {chain above : List Path}
  {marked : Path → Prop}

theorem Ascends.unique {other : List Path} (h : Ascends start chain) (k : Ascends start other) :
    chain = other := by
  induction h generalizing other with
  | top h =>
      cases k with
      | top _ => rfl
      | up k _ => cases h.symm.trans k
  | up h _ ih =>
      cases k with
      | top k => cases h.symm.trans k
      | up k rest =>
          obtain rfl := Option.some.inj (h.symm.trans k)
          rw [ih rest]

theorem parent?_of_components (h : directory.components = []) : directory.parent? = none := by
  have htext : directory.text = "" := by
    by_contra hne
    obtain ⟨first, rest, hsplit⟩ := exists_split directory.text
    have hlength := length_components_of_ne hne hsplit
    rw [h, List.length_nil] at hlength
    omega
  obtain ⟨text⟩ := directory
  obtain rfl : text = "" := htext
  decide

theorem length_components_of_parent? (h : directory.parent? = some parent) :
    parent.components.length + 1 = directory.components.length := by
  have hne : directory.components ≠ [] := fun hnil => by
    rw [parent?_of_components hnil] at h
    cases h
  have hpos := List.length_pos_iff.mpr hne
  rw [components_of_parent? h, List.length_dropLast]
  omega

/-- As many steps as a path has are enough to pass all directories above it. -/
theorem ascends_directoriesAbove {steps : Nat} (h : directory.components.length ≤ steps) :
    Ascends directory (directoriesAbove steps directory) := by
  induction steps generalizing directory with
  | zero => exact .top (parent?_of_components (List.length_eq_zero_iff.mp (Nat.le_zero.mp h)))
  | succ steps ih =>
      rw [directoriesAbove]
      cases hparent : directory.parent? with
      | none => exact .top hparent
      | some parent =>
          have hlength := length_components_of_parent? hparent
          exact .up hparent (ih (by omega))

theorem ascends_searchedDirectories (start : Path) : Ascends start (searchedDirectories start) :=
  ascends_directoriesAbove (Nat.le_refl _)

theorem Ascends.length_le (h : Ascends start chain) :
    chain.length ≤ start.components.length + 1 := by
  induction h with
  | top _ => simp
  | up h _ ih =>
      rw [← length_components_of_parent? h, List.length_cons]
      omega

/-! ## What is found -/

/-- A step of the search: a directory with a settings file ends it, so does one that marks a
repository, and so does one without a parent. -/
theorem find?_eq (tree : FileTree) (start : Path) :
    find? tree start =
      if tree.isThere (start.join fileName) then some (start.join fileName)
      else if tree.isThere (start.join repositoryMark) then none
      else start.parent?.bind (find? tree) := by
  have hsteps := ascends_searchedDirectories start
  rw [find?]
  generalize searchedDirectories start = chain at hsteps
  cases hsteps with
  | top h => rw [h, findIn, findIn, Option.bind_none]
  | up h rest =>
      rw [h, findIn, Option.bind_some, find?, (ascends_searchedDirectories _).unique rest]

/-- A path is that of the settings file in the first directory of a chain that has one, and no
directory before it is marked as a repository. -/
def FirstIn (tree : FileTree) (marked : Path → Prop) (chain : List Path) (path : Path) : Prop :=
  ∃ below directory above, chain = below ++ directory :: above ∧
    path = directory.join fileName ∧ tree.isThere (directory.join fileName) = true ∧
    ∀ lower ∈ below, tree.isThere (lower.join fileName) = false ∧ ¬ marked lower

theorem firstIn_cons : FirstIn tree marked (directory :: above) path ↔
    path = directory.join fileName ∧ tree.isThere (directory.join fileName) = true ∨
      (tree.isThere (directory.join fileName) = false ∧ ¬ marked directory) ∧
        FirstIn tree marked above path := by
  constructor
  · rintro ⟨below, first, rest, hchain, hpath, hthere, hbelow⟩
    cases below with
    | nil =>
        obtain ⟨rfl, rfl⟩ := List.cons.inj hchain
        exact .inl ⟨hpath, hthere⟩
    | cons lower below =>
        obtain ⟨rfl, hrest⟩ := List.cons.inj hchain
        exact .inr ⟨hbelow _ List.mem_cons_self, below, first, rest, hrest, hpath, hthere,
          fun lower hlower => hbelow lower (List.mem_cons_of_mem _ hlower)⟩
  · rintro (⟨hpath, hthere⟩ | ⟨hclear, below, first, rest, rfl, hpath, hthere, hbelow⟩)
    · exact ⟨[], directory, above, rfl, hpath, hthere, by simp⟩
    · exact ⟨directory :: below, first, rest, rfl, hpath, hthere,
        List.forall_mem_cons.mpr ⟨hclear, hbelow⟩⟩

/-- The mark of a repository in a directory leads to something. -/
def MarkLeads (tree : FileTree) (directory : Path) : Prop :=
  tree.isThere (directory.join repositoryMark) = true

theorem findIn_eq_some_iff :
    findIn tree chain = some path ↔ FirstIn tree (MarkLeads tree) chain path := by
  induction chain with
  | nil => simp [findIn, FirstIn]
  | cons directory above ih =>
      rw [firstIn_cons, ← ih, findIn, MarkLeads]
      by_cases hthere : tree.isThere (directory.join fileName) = true
      · have hpath : directory.join fileName = path ↔ path = directory.join fileName := eq_comm
        simp [hthere, hpath]
      · by_cases hmark : tree.isThere (directory.join repositoryMark) = true
        · simp [hthere, hmark]
        · simp [hthere, hmark]

/-- The search for settings passes a chain of directories that is no longer than the path it starts
from. It finds the settings file of the first of them that has one, unless the mark of a repository
leads to something in a directory before it. -/
theorem find?_eq_some_iff_firstIn (tree : FileTree) (start : Path) :
    ∃ chain, Ascends start chain ∧ chain.length ≤ start.components.length + 1 ∧
      (∀ path, find? tree start = some path ↔ FirstIn tree (MarkLeads tree) chain path) ∧
      (find? tree start = none ↔ ¬ ∃ path, FirstIn tree (MarkLeads tree) chain path) := by
  have hchain := ascends_searchedDirectories start
  refine ⟨searchedDirectories start, hchain, hchain.length_le, fun path => findIn_eq_some_iff, ?_⟩
  simp only [← findIn_eq_some_iff, not_exists]
  exact Option.eq_none_iff_forall_ne_some

/-! ## Marks that lead nowhere -/

/-- A directory holds the mark of a repository, be it a link to nothing. -/
def HoldsMark (tree : FileTree) (directory : Path) : Prop :=
  ((tree.resolve .handle (directory.join repositoryMark)).toOption.bind (·.entry)).isSome = true

/-- A project with a directory whose mark of a repository is a link to nothing. -/
def danglingMark : FileTree where
  entries := [
    (["top"], .directory Entry.newDirectoryMode),
    (["top", ".i18nsweeprc.json"], .file "\x7b\x7d".toUTF8 Entry.newFileMode),
    (["top", "app"], .directory Entry.newDirectoryMode),
    (["top", "app", ".git"], .link "gone")]
  current := []

/-- The search goes on past a mark that is a link to nothing. -/
theorem settings_found_past_dangling_mark :
    HoldsMark danglingMark ⟨"top/app"⟩ ∧
      find? danglingMark ⟨"top/app"⟩ = some ⟨"top/.i18nsweeprc.json"⟩ ∧
      ¬ ∀ path, find? danglingMark ⟨"top/app"⟩ = some path ↔
        FirstIn danglingMark (HoldsMark danglingMark) (searchedDirectories ⟨"top/app"⟩) path := by
  have hmark : HoldsMark danglingMark ⟨"top/app"⟩ := by
    unfold HoldsMark
    decide +kernel
  have hfound : find? danglingMark ⟨"top/app"⟩ = some ⟨"top/.i18nsweeprc.json"⟩ := by
    decide +kernel
  refine ⟨hmark, hfound, fun hclaim => ?_⟩
  have hchain : searchedDirectories ⟨"top/app"⟩ = [⟨"top/app"⟩, ⟨"top"⟩, ⟨""⟩] := by decide +kernel
  have hfirst := (hclaim _).mp hfound
  rw [hchain, firstIn_cons] at hfirst
  rcases hfirst with ⟨hpath, -⟩ | ⟨⟨-, hclear⟩, -⟩
  · exact absurd hpath (by decide +kernel)
  · exact hclear hmark

end LocaleTidy.Settings
