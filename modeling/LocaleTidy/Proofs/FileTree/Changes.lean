import LocaleTidy.Proofs.FileTree.Agreement
import LocaleTidy.Proofs.FileTree.Joined
import LocaleTidy.Proofs.Outcome

/-!
# Trees before and after a change

A tree is changed at places past which no walk gets, neither before nor after. Directories are
found by the same paths then, and so are the files below them that are not among these places.
-/

namespace LocaleTidy.FileTree

variable {tree other : FileTree} {places : List Location} {purpose : Purpose} {path : Path}
  {place : Location}

/-! ### Paths as walks -/

def start (tree : FileTree) (path : Path) : Location :=
  if path.isAbsolute then [] else tree.current

theorem isDirectory_start (ht : tree.Rooted) (hcurrent : tree.IsDirectory tree.current)
    (path : Path) : tree.IsDirectory (tree.start path) := by
  unfold start
  split
  · exact ht.root
  · exact hcurrent

theorem resolve_of_checkForm (h : checkForm path = .ok ()) :
    tree.resolve purpose path =
      walkWithin tree purpose maxLinks (tree.start path) (Text.split '/' path.text) := by
  rw [resolve, h]
  rfl

theorem resolve_of_checkForm_error {error : FileError} (h : checkForm path = .error error) :
    tree.resolve purpose path = .error error := by
  rw [resolve, h]
  rfl

theorem resolve_eq_ok {spot : Spot} :
    tree.resolve purpose path = .ok spot ↔ checkForm path = .ok () ∧
      walkWithin tree purpose maxLinks (tree.start path) (Text.split '/' path.text) =
        .ok spot := by
  rw [resolve, bind_eq_ok]
  constructor
  · intro h
    rcases h with ⟨⟨⟩, hform, hwalk⟩
    exact ⟨hform, hwalk⟩
  · intro h
    rcases h with ⟨hform, hwalk⟩
    exact ⟨(), hform, hwalk⟩

theorem find_eq_ok {entry : Entry} :
    tree.find path = .ok (place, entry) ↔ tree.resolve .use path = .ok ⟨place, some entry⟩ := by
  rw [find, bind_eq_ok]
  constructor
  · intro hx
    rcases hx with ⟨⟨location, found⟩, hspot, hfound⟩
    cases found with
    | none => cases hfound
    | some found =>
        cases hfound
        exact hspot
  · intro h
    exact ⟨_, h, rfl⟩

theorem get?_of_find {entry : Entry} (h : tree.find path = .ok (place, entry)) :
    tree.get? place = some entry :=
  (entry_of_walkWithin (resolve_eq_ok.mp (find_eq_ok.mp h)).2).symm

def place? (tree : FileTree) (path : Path) : Option Location :=
  (tree.find path).toOption.map (·.1)

theorem mem_place? {entry : Entry}
    (h : tree.find path = .ok (place, entry)) : place ∈ tree.place? path := by
  simp [place?, h, Except.toOption]

theorem find_of_place? {entry : Entry}
    (h : tree.place? path = some place) (hentry : tree.get? place = some entry) :
    tree.find path = .ok (place, entry) := by
  unfold place? at h
  cases hfind : tree.find path with
  | error error =>
      rw [hfind] at h
      cases h
  | ok found =>
      rcases found with ⟨location, other⟩
      rw [hfind] at h
      cases h
      have hother := get?_of_find hfind
      rw [hentry] at hother
      cases hother
      rfl

theorem find_of_resolve {entry : Entry} (h : tree.resolve purpose path = .ok ⟨place, some entry⟩)
    (hlink : ∀ target, entry ≠ .link target) : tree.find path = .ok (place, entry) := by
  rw [find_eq_ok, resolve_eq_ok]
  rw [resolve_eq_ok] at h
  exact ⟨h.1, walkWithin_use h.2 (by simpa using hlink)⟩

theorem text_ne_of_checkForm (h : checkForm path = .ok ()) : path.text ≠ "" := by
  intro htext
  rw [checkForm, htext] at h
  cases h

theorem resolve_purpose (tree : FileTree) (purpose : Purpose) (path : Path) :
    tree.resolve purpose path = tree.resolve .use path ∨
      (purpose = .write ∧ ∃ error, tree.resolve purpose path = .error error) ∨
      ∃ location target,
        tree.resolve purpose path = .ok ⟨location, some (.link target)⟩ := by
  cases hform : checkForm path with
  | error error =>
      exact .inl (by rw [resolve_of_checkForm_error hform, resolve_of_checkForm_error hform])
  | ok _ =>
      rw [resolve_of_checkForm hform, resolve_of_checkForm hform]
      exact walkWithin_purpose _ _ _ _ _

theorem walkWithin_before (ht : tree.Rooted) {before : List String} {mode : Nat}
    (hd : tree.IsDirectory (tree.start path))
    (hfind : tree.find path = .ok (place, .directory mode))
    (hbefore : Text.split '/' path.text = before ∨ Text.split '/' path.text = before ++ [""]) :
    walkWithin tree .use maxLinks (tree.start path) before =
      .ok ⟨place, some (.directory mode)⟩ := by
  have hwalk := (resolve_eq_ok.mp (find_eq_ok.mp hfind)).2
  rcases hbefore with hbefore | hbefore
  · rw [← hbefore, hwalk]
  · rw [hbefore] at hwalk
    obtain ⟨other, hentry, hfirst⟩ := walkWithin_slash ht hd hwalk
    cases hentry
    exact hfirst

theorem resolve_foldl_join (ht : tree.Rooted) {names : List String} {mode : Nat}
    (hd : tree.IsDirectory (tree.start path))
    (hfind : tree.find path = .ok (place, .directory mode))
    (hn : ∀ name ∈ names, IsName name) (hne : names ≠ [])
    (hform : checkForm (names.foldl Path.join path) = .ok ()) :
    ∃ left, tree.resolve .use (names.foldl Path.join path) =
      walkWithin tree .use left place names := by
  have hpath := (resolve_eq_ok.mp (find_eq_ok.mp hfind)).1
  obtain ⟨before, hbefore, hjoined, habsolute⟩ :=
    Path.split_foldl_join (text_ne_of_checkForm hpath) hn hne
  obtain ⟨left, hleft⟩ := walkWithin_directory ht hd (walkWithin_before ht hd hfind hbefore)
  refine ⟨left, ?_⟩
  rw [← hleft names hne, resolve_of_checkForm hform, hjoined, start, habsolute, ← start]

/-! ### Changes -/

/-- The second tree is the first one after a change at some places, which block walks in both. -/
structure ChangedAt (places : List Location) (tree other : FileTree) : Prop where
  agree : AgreeOutside places tree other
  rooted : tree.Rooted
  rootedAfter : other.Rooted
  current : tree.IsDirectory tree.current
  distinct : (tree.entries.map (·.1)).Nodup
  distinctAfter : (other.entries.map (·.1)).Nodup
  blocks : ∀ place ∈ places, tree.Blocks place
  blocksAfter : ∀ place ∈ places, other.Blocks place

namespace ChangedAt

theorem get?_of_isDirectory (hc : ChangedAt places tree other) (h : tree.IsDirectory place) :
    other.get? place = tree.get? place :=
  hc.agree.get? fun hmem => (hc.blocks place hmem).notDirectory h

theorem isDirectory (hc : ChangedAt places tree other) (h : tree.IsDirectory place) :
    other.IsDirectory place := by
  rw [IsDirectory, hc.get?_of_isDirectory h]
  exact h

theorem symm (hc : ChangedAt places tree other) : ChangedAt places other tree where
  agree := hc.agree.symm
  rooted := hc.rootedAfter
  rootedAfter := hc.rooted
  current := hc.agree.current ▸ hc.isDirectory hc.current
  distinct := hc.distinctAfter
  distinctAfter := hc.distinct
  blocks := hc.blocksAfter
  blocksAfter := hc.blocks

theorem start_eq (hc : ChangedAt places tree other) (path : Path) :
    other.start path = tree.start path := by
  rw [start, start, hc.agree.current]

theorem isDirectory_start (hc : ChangedAt places tree other) (path : Path) :
    tree.IsDirectory (tree.start path) :=
  FileTree.isDirectory_start hc.rooted hc.current path

/-- A path that leads to one of the places meets it in both trees. -/
theorem resolve_eq_or_meets (hc : ChangedAt places tree other) (purpose : Purpose)
    (path : Path) :
    other.resolve purpose path = tree.resolve purpose path ∨
      Meets places tree other purpose maxLinks (tree.start path) (Text.split '/' path.text) := by
  rcases walkWithin_agree_or_meets hc.rooted hc.agree
    (fun place hp => (hc.blocks place hp).notDirectory) (hc.isDirectory_start path) purpose
    maxLinks (Text.split '/' path.text) with hsame | hmeet
  · left
    cases hform : checkForm path with
    | error error => rw [resolve_of_checkForm_error hform, resolve_of_checkForm_error hform]
    | ok _ => rw [resolve_of_checkForm hform, resolve_of_checkForm hform, hc.start_eq, hsame]
  · exact .inr hmeet

theorem find_directory (hc : ChangedAt places tree other) {mode : Nat}
    (h : tree.find path = .ok (place, .directory mode)) :
    other.find path = .ok (place, .directory mode) := by
  rw [find_eq_ok] at h ⊢
  rcases hc.resolve_eq_or_meets .use path with hsame | hmeet
  · rw [hsame, h]
  · exact (hmeet.not_directory hc.blocks (resolve_eq_ok.mp h).2 mode rfl).elim

/-- A file below a directory is found by the same paths, unless it stands at one of the
places. -/
theorem find_foldl_join (hc : ChangedAt places tree other) {names : List String} {mode : Nat}
    {bytes : ByteArray} {rights : Nat} (hfind : tree.find path = .ok (place, .directory mode))
    (hn : ∀ name ∈ names, IsName name) (hne : names ≠ [])
    (hfile : tree.get? (place ++ names) = some (.file bytes rights))
    (hplace : place ++ names ∉ places) :
    other.find (names.foldl Path.join path) = tree.find (names.foldl Path.join path) := by
  cases hform : checkForm (names.foldl Path.join path) with
  | error error =>
      rw [find, find, resolve_of_checkForm_error hform, resolve_of_checkForm_error hform]
  | ok _ =>
      obtain ⟨left, hleft⟩ := resolve_foldl_join hc.rooted (hc.isDirectory_start path) hfind hn
        hne hform
      obtain ⟨fewer, hfewer⟩ := resolve_foldl_join hc.rootedAfter
        (hc.symm.isDirectory_start path) (hc.find_directory hfind) hn hne hform
      unfold find
      rw [hleft, hfewer, walkWithin_names hc.rooted left fewer hn hne hfile
        (fun location => hc.get?_of_isDirectory) (hc.agree.get? hplace)]

end ChangedAt

end LocaleTidy.FileTree
