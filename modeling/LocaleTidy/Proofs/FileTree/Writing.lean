import LocaleTidy.FileTree.Operations
import LocaleTidy.Proofs.FileTree.Changes

/-!
# What writing changes

Files are written one after the other, each at the place that its path leads to. A path leads to
the same place after other files were written, and a file that is there keeps its rights.
-/

namespace LocaleTidy.FileTree

variable {tree other after : FileTree} {places : List Location} {path : Path} {place : Location}

/-! ### Distinct places -/

theorem places_setIn {entry : Entry} {entries : List (Location × Entry)} :
    (setIn place entry entries).map (·.1) =
      if place ∈ entries.map (·.1) then entries.map (·.1) else entries.map (·.1) ++ [place] := by
  induction entries with
  | nil => rfl
  | cons item rest ih =>
      rcases item with ⟨key, old⟩
      by_cases hk : key = place
      · simp [setIn, hk]
      · simp only [setIn, hk, if_false, List.map_cons, ih, List.mem_cons, Ne.symm hk, false_or]
        split <;> simp

theorem nodup_set (h : (tree.entries.map (·.1)).Nodup) (entry : Entry) :
    ((tree.set place entry).entries.map (·.1)).Nodup := by
  rw [set, places_setIn]
  split
  · exact h
  · rename_i hnew
    rw [List.nodup_append]
    refine ⟨h, by simp, ?_⟩
    intro a ha b hb
    rw [List.mem_singleton.mp hb]
    exact fun heq => hnew (heq ▸ ha)

theorem nodup_erase (h : (tree.entries.map (·.1)).Nodup) :
    ((tree.erase place).entries.map (·.1)).Nodup :=
  h.sublist ((List.filter_sublist).map _)

/-! ### Files are written -/

/-- The second tree is the first one after files were written at some places, where no directory
and no link stood. -/
structure WrittenAt (places : List Location) (tree other : FileTree) : Prop where
  agree : AgreeOutside places tree other
  distinct : (other.entries.map (·.1)).Nodup
  plain : ∀ place ∈ places, IsPlain (tree.get? place)
  plainAfter : ∀ place ∈ places, IsPlain (other.get? place)
  parents : ∀ place ∈ places, tree.IsDirectory place.dropLast

theorem WellFormed.changedAt (ht : tree.WellFormed) (ha : AgreeOutside places tree other)
    (hdistinct : (other.entries.map (·.1)).Nodup) (hb : ∀ place ∈ places, tree.Blocks place)
    (hafter : ∀ place ∈ places, other.Blocks place)
    (hparents : ∀ place ∈ places, tree.IsDirectory place.dropLast) :
    ChangedAt places tree other := by
  have hrooted := ha.rooted ht.toRooted (fun place hp => (hb place hp).notDirectory) hparents
  exact ⟨ha, ht.toRooted, hrooted, ht.current, ht.distinct, hdistinct, hb, hafter⟩

namespace WrittenAt

theorem start (ht : tree.WellFormed) : WrittenAt [] tree tree where
  agree := .refl [] tree
  distinct := ht.distinct
  plain := by simp
  plainAfter := by simp
  parents := by simp

theorem changedAt (hw : WrittenAt places tree other) (ht : tree.WellFormed) :
    ChangedAt places tree other :=
  ht.changedAt hw.agree hw.distinct (fun place h => blocks_of_isPlain (hw.plain place h))
    (fun place h => blocks_of_isPlain (hw.plainAfter place h)) hw.parents

theorem isPlain_iff (hw : WrittenAt places tree other) (place : Location) :
    IsPlain (other.get? place) ↔ IsPlain (tree.get? place) := by
  by_cases hp : place ∈ places
  · exact iff_of_true (hw.plainAfter place hp) (hw.plain place hp)
  · rw [hw.agree.get? hp]

end WrittenAt

/-! ### Paths lead to the same places -/

theorem endsInSlash_of_withoutLook? {opened : Bool} {here : Location} {piece : String}
    {rest : List String} (h : withoutLook? opened .write here piece rest = none) :
    endsInSlash rest = false := by
  apply Classical.byContradiction
  intro hslash
  revert h
  unfold withoutLook?
  repeat' split
  all_goals simp_all

/-- How a walk for writing, or one that finds something, ends where no directory and no link
stands: with the last name of its path. -/
theorem landing_eq_ok {purpose : Purpose} {here : Location} {piece : String} {rest : List String}
    {opened : Bool} {entry : Option Entry} {spot : Spot}
    (hlook : withoutLook? opened purpose here piece rest = none)
    (h : landing place rest entry = .ok spot) (hlast : purpose = .write ∨ spot.entry.isSome) :
    rest = [] ∧ spot = ⟨place, entry⟩ := by
  cases entry with
  | some entry =>
      rw [landing] at h
      split at h
      · rename_i hrest
        cases h
        exact ⟨by simpa using hrest, rfl⟩
      · cases h
  | none =>
      rw [landing] at h
      split at h
      · rename_i hblank
        cases h
        rcases hlast with rfl | hsome
        · have hslash := endsInSlash_of_withoutLook? hlook
          rw [endsInSlash, hblank, Bool.and_true] at hslash
          exact ⟨by simpa using hslash, rfl⟩
        · cases hsome
      · cases h

namespace WrittenAt

/-- A path leads to the same place again, for writing or to what stands there. -/
theorem resolve_again (hc : ChangedAt places tree other) {purpose : Purpose}
    (hplain : ∀ place ∈ places, IsPlain (tree.get? place))
    (hafter : ∀ place ∈ places, IsPlain (other.get? place)) {spot : Spot}
    (h : tree.resolve purpose path = .ok spot) (hlast : purpose = .write ∨ spot.entry.isSome) :
    other.resolve purpose path = .ok ⟨spot.location, other.get? spot.location⟩ := by
  rcases hc.resolve_eq_or_meets purpose path with hsame | hmeet
  · have hother := hsame.trans h
    have hentry := entry_of_walkWithin (resolve_eq_ok.mp hother).2
    rw [hother, ← hentry]
  · rcases hmeet with ⟨left, site, name, rest, hmem, hlook, hpermits, hwalks⟩
    obtain ⟨hform, hwalk⟩ := resolve_eq_ok.mp h
    rw [(hwalks purpose (.inl rfl)).1, walkWithin_plain hlook (hplain _ hmem)] at hwalk
    obtain ⟨rfl, rfl⟩ := landing_eq_ok hlook hwalk hlast
    rw [resolve_eq_ok, hc.start_eq, (hwalks purpose (.inl rfl)).2,
      walkWithin_plain (by rw [hpermits, hlook]) (hafter _ hmem)]
    refine ⟨hform, ?_⟩
    cases other.get? (site ++ [name]) <;> rfl

theorem cons (hw : WrittenAt places tree other) (ht : tree.WellFormed)
    (hplain : IsPlain (other.get? place)) (hparent : other.IsDirectory place.dropLast) :
    WrittenAt (place :: places) tree other where
  agree := hw.agree.mono (List.subset_cons_self _ _)
  distinct := hw.distinct
  plain := List.forall_mem_cons.mpr ⟨(hw.isPlain_iff _).mp hplain, hw.plain⟩
  plainAfter := List.forall_mem_cons.mpr ⟨hplain, hw.plainAfter⟩
  parents := List.forall_mem_cons.mpr
    ⟨(hw.changedAt ht).symm.isDirectory hparent, hw.parents⟩

theorem set (hw : WrittenAt places tree other) (hp : place ∈ places) (bytes : ByteArray)
    (mode : Nat) : WrittenAt places tree (other.set place (.file bytes mode)) where
  agree := hw.agree.set hp _
  distinct := nodup_set hw.distinct _
  plain := hw.plain
  plainAfter := by
    intro site hmem
    rw [get?_set]
    split
    · trivial
    · exact hw.plainAfter site hmem
  parents := hw.parents

end WrittenAt

/-! ### Operations -/

def HasMode (tree : FileTree) (place : Location) (mode : Nat) : Prop :=
  ∃ bytes, tree.get? place = some (.file bytes mode)

/-- What writing a file does: it sets the bytes where the path leads to and keeps the rights of
what is there. -/
theorem writeNew_eq_ok {bytes : ByteArray} {mode : Nat}
    (h : tree.writeNew path bytes mode = .ok after) :
    ∃ place old rights, tree.resolve .write path = .ok ⟨place, old⟩ ∧ IsPlain old ∧
      after = tree.set place (.file bytes rights) ∧
      ∀ held right, old = some (.file held right) → rights = right := by
  rw [writeNew, bind_eq_ok] at h
  rcases h with ⟨⟨place, old⟩, hspot, h⟩
  refine ⟨place, old, ?_⟩
  rcases old with _ | _ | ⟨held, right⟩ | _
  · simp only at h
    split at h
    · cases h
      exact ⟨mode, hspot, trivial, rfl, by simp⟩
    · cases h
  · cases h
  · simp only at h
    split at h
    · cases h
      exact ⟨right, hspot, trivial, rfl, by simp⟩
    · cases h
  · cases h

theorem hasMode_set (bytes : ByteArray) (mode : Nat) :
    (tree.set place (.file bytes mode)).HasMode place mode :=
  ⟨bytes, by rw [get?_set, if_pos rfl]⟩

theorem HasMode.set {mode rights : Nat} {bytes : ByteArray} {site : Location}
    (h : tree.HasMode place mode)
    (hrights : ∀ held right, tree.get? site = some (.file held right) → rights = right) :
    (tree.set site (.file bytes rights)).HasMode place mode := by
  rcases h with ⟨held, hheld⟩
  by_cases hp : place = site
  · subst hp
    rw [← hrights held mode hheld]
    exact hasMode_set bytes rights
  · exact ⟨held, by simp [get?_set, hp, hheld]⟩

theorem HasMode.set_same {mode : Nat} (h : tree.HasMode place mode) (site : Location)
    (bytes : ByteArray) : (tree.set site (.file bytes mode)).HasMode place mode := by
  by_cases hp : place = site
  · rw [hp]
    exact hasMode_set bytes mode
  · rcases h with ⟨held, hheld⟩
    exact ⟨held, by rw [get?_set, if_neg hp, hheld]⟩

/-- A file may be written at a place by a path. -/
def Targets (tree : FileTree) (path : Path) (place : Location) : Prop :=
  tree.resolve .write path = .ok ⟨place, tree.get? place⟩

theorem targets_of_resolve {old : Option Entry}
    (h : tree.resolve .write path = .ok ⟨place, old⟩) : tree.Targets path place := by
  have hentry : old = tree.get? place := entry_of_walkWithin (resolve_eq_ok.mp h).2
  rw [Targets, h, hentry]

theorem Targets.unique {other : Location} (h : tree.Targets path place)
    (ho : tree.Targets path other) : place = other := by
  rw [Targets, h] at ho
  exact (Spot.mk.inj (Except.ok.inj ho)).1

/-- No file is written at the same place by two paths. -/
def Elsewhere (tree : FileTree) (first second : Path) : Prop :=
  ∀ site, tree.Targets first site → ¬ tree.Targets second site

theorem Targets.find (h : tree.Targets path place) {bytes : ByteArray} {mode : Nat}
    (hfile : tree.get? place = some (.file bytes mode)) :
    tree.find path = .ok (place, .file bytes mode) := by
  rw [Targets, hfile] at h
  exact find_of_resolve h (by simp)

theorem Targets.not_isThere (h : tree.Targets path place) (hnone : tree.get? place = none) :
    tree.isThere path = false := by
  rw [Targets, hnone, resolve_eq_ok] at h
  have huse : tree.resolve .use path = .ok ⟨place, none⟩ :=
    resolve_eq_ok.mpr ⟨h.1, walkWithin_use h.2 (by simp)⟩
  rw [isThere, FileTree.find, huse]
  rfl

theorem endsInSlash_of_walkWithin (ht : tree.Rooted) {here : Location} {piece : String}
    {rest : List String} {links : Nat} (hd : tree.IsDirectory here) {bytes : ByteArray}
    {mode : Nat}
    (h : walkWithin tree .use links here (piece :: rest) = .ok ⟨place, some (.file bytes mode)⟩) :
    endsInSlash rest = false := by
  rw [← Bool.not_eq_true]
  intro hslash
  obtain ⟨hne, hblank⟩ : rest ≠ [] ∧ rest.all (· == "") = true := by
    simpa [endsInSlash] using hslash
  have hlast : rest.getLast hne = "" := by
    simpa using List.all_eq_true.mp hblank _ (List.getLast_mem hne)
  have hpieces : piece :: rest = (piece :: rest.dropLast) ++ [""] := by
    rw [List.cons_append, ← hlast, List.dropLast_concat_getLast]
  rw [hpieces] at h
  obtain ⟨rights, hdirectory, -⟩ := walkWithin_slash ht hd h
  cases hdirectory

theorem step_write {here : Location} {piece : String} {rest : List String}
    (h : endsInSlash rest = false) :
    step tree .write here piece rest = step tree .use here piece rest := by
  simp [step, withoutLook?, stepTo, h]

/-- A file that a walk finds for use is found for writing as well. -/
theorem walkWithin_write (ht : tree.Rooted) {here : Location} {pieces : List String}
    {links : Nat} (hd : tree.IsDirectory here) {bytes : ByteArray} {mode : Nat}
    (h : walkWithin tree .use links here pieces = .ok ⟨place, some (.file bytes mode)⟩) :
    walkWithin tree .write links here pieces = .ok ⟨place, some (.file bytes mode)⟩ := by
  induction links, here, pieces using walk_induction tree .use with
  | done links here => rwa [walkWithin_nil] at h ⊢
  | stop links here piece rest result hstep hwalk =>
      have hslash := endsInSlash_of_walkWithin ht hd h
      rw [walkWithin_cons, step_write hslash, hstep, goOn, ← hwalk, h]
  | go links here piece rest there hstep hwalk ih =>
      have hslash := endsInSlash_of_walkWithin ht hd h
      rw [walkWithin_cons, step_write hslash, hstep, goOn]
      exact ih (isDirectory_go ht hd hstep) (hwalk ▸ h)
  | tired here piece rest start pieces hstep hwalk =>
      rw [hwalk] at h
      cases h
  | follow links here piece rest start pieces hstep hwalk ih =>
      have hslash := endsInSlash_of_walkWithin ht hd h
      rw [walkWithin_cons, step_write hslash, hstep, goOn]
      exact ih (isDirectory_follow ht hd hstep) (hwalk ▸ h)

theorem targets_of_find (ht : tree.Rooted) (hd : tree.IsDirectory (tree.start path))
    {bytes : ByteArray} {mode : Nat} (h : tree.find path = .ok (place, .file bytes mode)) :
    tree.Targets path place := by
  obtain ⟨hform, hwalk⟩ := resolve_eq_ok.mp (find_eq_ok.mp h)
  exact targets_of_resolve (resolve_eq_ok.mpr ⟨hform, walkWithin_write ht hd hwalk⟩)

theorem targets_of_plain (ht : tree.Rooted) (hd : tree.IsDirectory (tree.start path))
    (hplain : IsPlain (tree.get? place)) {entry : Entry}
    (h : tree.find path = .ok (place, entry)) : tree.Targets path place := by
  rw [get?_of_find h] at hplain
  obtain ⟨bytes, mode, rfl⟩ := file_of_isPlain hplain
  exact targets_of_find ht hd h

theorem WrittenAt.targets_iff (hw : WrittenAt places tree other) (ht : tree.WellFormed) :
    other.Targets path place ↔ tree.Targets path place :=
  ⟨fun h => resolve_again (hw.changedAt ht).symm hw.plainAfter hw.plain h (.inl rfl),
    fun h => resolve_again (hw.changedAt ht) hw.plain hw.plainAfter h (.inl rfl)⟩

theorem WrittenAt.find_again (hw : WrittenAt places tree other) (ht : tree.WellFormed)
    {mode : Nat} {bytes : ByteArray} (hfind : tree.find path = .ok (place, .file bytes mode))
    (hmode : other.HasMode place mode) :
    ∃ held, other.find path = .ok (place, .file held mode) := by
  rcases hmode with ⟨held, hheld⟩
  refine ⟨held, ?_⟩
  rw [find_eq_ok] at hfind ⊢
  rw [resolve_again (hw.changedAt ht) hw.plain hw.plainAfter hfind (.inr rfl), hheld]

theorem WrittenAt.writeNew (hw : WrittenAt places tree other) (ht : tree.WellFormed)
    {bytes : ByteArray} {mode : Nat} (h : other.writeNew path bytes mode = .ok after) :
    ∃ place, tree.Targets path place ∧ WrittenAt (place :: places) tree after ∧
      AgreeOutside [place] other after ∧
      (∃ rights, after.get? place = some (.file bytes rights)) ∧
      ∀ site mode, other.HasMode site mode → after.HasMode site mode := by
  obtain ⟨place, old, rights, hspot, hplain, rfl, hrights⟩ := writeNew_eq_ok h
  have htargets := targets_of_resolve hspot
  have hentry : old = other.get? place := entry_of_walkWithin (resolve_eq_ok.mp hspot).2
  have hc := hw.changedAt ht
  have hparent := isDirectory_of_walkWithin hc.rootedAfter (hc.symm.isDirectory_start path)
    (resolve_eq_ok.mp hspot).2
  refine ⟨place, (hw.targets_iff ht).mp htargets,
    (hw.cons ht (hentry ▸ hplain) hparent).set List.mem_cons_self bytes rights,
    (AgreeOutside.refl _ other).set List.mem_cons_self _, ⟨rights, by simp [get?_set]⟩, ?_⟩
  intro site mode hmode
  exact hmode.set (hentry ▸ hrights)

/-- A file that is new at the place where it may be written by a path is found by that path. -/
theorem Targets.find_new (hc : ChangedAt places tree other) (h : tree.Targets path place)
    (hnew : tree.get? place = none) {bytes : ByteArray} {mode : Nat}
    (hfile : other.get? place = some (.file bytes mode)) :
    other.find path = .ok (place, .file bytes mode) := by
  apply Targets.find _ hfile
  rw [Targets, hnew] at h
  rcases hc.resolve_eq_or_meets .write path with hsame | hmeet
  · exact targets_of_resolve (hsame.trans h)
  · rcases hmeet with ⟨left, site, name, rest, hmem, hlook, hpermits, hwalks⟩
    obtain ⟨hform, hwalk⟩ := resolve_eq_ok.mp h
    rw [(hwalks .write (.inl rfl)).1] at hwalk
    have huse : walkWithin tree .use left site (name :: rest) = .ok ⟨place, none⟩ :=
      walkWithin_use hwalk (by simp)
    obtain rfl := ((hc.blocks _ hmem).stops _ _ _ _ _ rfl (withoutLook?_use hlook) huse).2.2 rfl
    rw [walkWithin_plain hlook (by simp only [hnew, IsPlain]), hnew] at hwalk
    obtain ⟨rfl, -⟩ := landing_eq_ok hlook hwalk (.inl rfl)
    rw [Targets, resolve_eq_ok, hc.start_eq, (hwalks .write (.inl rfl)).2,
      walkWithin_plain (by rw [hpermits, hlook]) (by simp only [hfile, IsPlain]), hfile]
    exact ⟨hform, rfl⟩

theorem findReadable_eq_ok {entry : Entry} :
    tree.findReadable path = .ok (place, entry) ↔
      tree.find path = .ok (place, entry) ∧ entry.permits .read = true := by
  rw [findReadable, bind_eq_ok]
  constructor
  · intro h
    rcases h with ⟨⟨location, found⟩, hfind, hread⟩
    simp only at hread
    split at hread
    · cases hread
      exact ⟨hfind, by assumption⟩
    · cases hread
  · intro h
    rcases h with ⟨hfind, hread⟩
    exact ⟨_, hfind, by simp [hread, pure, Except.pure]⟩

theorem readBytes_eq_ok {bytes : ByteArray} :
    tree.readBytes path = .ok bytes ↔
      ∃ place mode, tree.find path = .ok (place, .file bytes mode) ∧
        (Entry.file bytes mode).permits .read = true := by
  rw [readBytes, bind_eq_ok]
  constructor
  · intro h
    rcases h with ⟨⟨place, entry⟩, hreadable, h⟩
    obtain ⟨hfind, hread⟩ := findReadable_eq_ok.mp hreadable
    cases entry with
    | directory mode => cases h
    | link target => cases h
    | file held mode =>
        cases h
        exact ⟨place, mode, hfind, hread⟩
  · intro h
    rcases h with ⟨place, mode, hfind, hread⟩
    exact ⟨_, findReadable_eq_ok.mpr ⟨hfind, hread⟩, rfl⟩

theorem readText_eq_ok {text : String} :
    tree.readText path = .ok text ↔
      ∃ place bytes mode, tree.find path = .ok (place, .file bytes mode) ∧
        (Entry.file bytes mode).permits .read = true ∧ String.fromUTF8? bytes = some text := by
  rw [readText, bind_eq_ok]
  constructor
  · intro h
    rcases h with ⟨bytes, hbytes, htext⟩
    obtain ⟨place, mode, hfind, hread⟩ := readBytes_eq_ok.mp hbytes
    refine ⟨place, bytes, mode, hfind, hread, ?_⟩
    split at htext
    · rename_i found hfound
      cases htext
      exact hfound
    · cases htext
  · intro h
    rcases h with ⟨place, bytes, mode, hfind, hread, htext⟩
    exact ⟨bytes, readBytes_eq_ok.mpr ⟨place, mode, hfind, hread⟩, by rw [htext]; rfl⟩

theorem readable_of_copy {source target : Path} (h : tree.copy source target = .ok after) :
    ∃ place bytes mode, tree.findReadable source = .ok (place, .file bytes mode) := by
  rw [copy, bind_eq_ok] at h
  rcases h with ⟨⟨place, entry⟩, hreadable, h⟩
  cases entry with
  | directory mode => cases h
  | link target => cases h
  | file bytes mode => exact ⟨place, bytes, mode, hreadable⟩

/-- Once the file for a copy is opened and emptied, the copy succeeds. -/
theorem copy_of_writeNew (ht : tree.WellFormed) {source target : Path} {bytes : ByteArray}
    {mode : Nat} {emptied : FileTree}
    (hreadable : tree.findReadable source = .ok (place, .file bytes mode))
    (h : tree.writeNew target ByteArray.empty mode = .ok emptied) :
    ∃ site, tree.Targets target site ∧ tree.copy source target = .ok
      (emptied.set site (.file (if site = place then ByteArray.empty else bytes) mode)) := by
  obtain ⟨site, htargets, hwritten, -⟩ := (WrittenAt.start ht).writeNew ht h
  -- The emptied file is found again where it was written.
  have hagain := (hwritten.targets_iff ht).mpr htargets
  refine ⟨site, htargets, ?_⟩
  rw [copy, hreadable]
  simp only [bind, Except.bind, h]
  rw [Targets] at hagain
  rw [hagain]
  rfl

/-- What a copy changes: a file with the bytes and the rights of the copied one is where the path
leads to, but for a file that is copied onto itself, which is empty then. -/
theorem copy_eq_ok (ht : tree.WellFormed) {source target : Path} {bytes : ByteArray} {mode : Nat}
    (h : tree.copy source target = .ok after)
    (hfind : tree.find source = .ok (place, .file bytes mode)) :
    ∃ site, tree.Targets target site ∧ WrittenAt [site] tree after ∧
      after.get? site = some (.file (if site = place then ByteArray.empty else bytes) mode) ∧
      after.HasMode place mode := by
  obtain ⟨location, held, right, hreadable⟩ := readable_of_copy h
  obtain ⟨hsource, -⟩ := findReadable_eq_ok.mp hreadable
  rw [hfind] at hsource
  cases hsource
  have hcopy := h
  rw [copy, hreadable] at hcopy
  obtain ⟨_, hpair, hcopy⟩ := bind_eq_ok.mp hcopy
  cases hpair
  obtain ⟨emptied, hemptied, -⟩ := bind_eq_ok.mp hcopy
  obtain ⟨site, htargets, hdone⟩ := copy_of_writeNew ht hreadable hemptied
  rw [h] at hdone
  cases hdone
  obtain ⟨other, hother, hwritten, -, -, hmodes⟩ := (WrittenAt.start ht).writeNew ht hemptied
  obtain rfl : other = site := hother.unique htargets
  exact ⟨other, htargets, hwritten.set List.mem_cons_self _ mode, by simp [get?_set],
    (hmodes _ _ ⟨bytes, get?_of_find hfind⟩).set_same _ _⟩

end LocaleTidy.FileTree
