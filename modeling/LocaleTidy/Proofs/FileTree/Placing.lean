import LocaleTidy.Proofs.FileTree.LastName
import LocaleTidy.Proofs.FileTree.Relocation

/-!
# What bears the last name of a path

A file that is written bears the last name of its path, in a directory where names may be changed.
Once it is moved or removed, nothing bears that name.
-/

namespace LocaleTidy.FileTree

open Text (split)
open LocaleTidy.Path (isVoid)

variable {tree other after : FileTree} {places : List Location} {path : Path}
  {place site : Location}

/-! ### Files that were written -/

namespace WrittenAt

theorem erase (hw : WrittenAt places tree other) (hsite : site ≠ []) (hp : site ∈ places) :
    WrittenAt places tree (other.erase site) where
  agree := hw.agree.erase hp
  distinct := nodup_erase hw.distinct
  plain := hw.plain
  plainAfter := by
    intro place hmem
    by_cases hs : place = site
    · rw [hs, get?_erase _ _ _ hsite, if_pos rfl]
      trivial
    · rw [get?_erase_of_ne hs]
      exact hw.plainAfter place hmem
  parents := hw.parents

theorem permitsChange (hw : WrittenAt places tree other) (ht : tree.WellFormed)
    (hp : site ∈ places) : other.permitsChange site = tree.permitsChange site := by
  rw [FileTree.permitsChange, FileTree.permitsChange, permits, permits,
    (hw.changedAt ht).get?_of_isDirectory (hw.parents site hp)]

/-- The rights of what a path leads to are the same after files were written, if each of them
kept those of the file that was there. -/
theorem modeOf_eq_ok (hw : WrittenAt places tree other) (ht : tree.WellFormed)
    (hmodes : ∀ site mode, tree.HasMode site mode → other.HasMode site mode) {mode : Nat}
    (h : tree.modeOf path = .ok mode) : other.modeOf path = .ok mode := by
  rw [modeOf, bind_eq_ok] at h
  rcases h with ⟨⟨place, entry⟩, hfind, h⟩
  cases entry with
  | directory rights =>
      cases h
      rw [modeOf, (hw.changedAt ht).find_directory hfind]
      rfl
  | file bytes rights =>
      cases h
      obtain ⟨held, hheld⟩ := hw.find_again ht hfind (hmodes _ _ ⟨bytes, get?_of_find hfind⟩)
      rw [modeOf, hheld]
      rfl
  | link target => cases h

end WrittenAt

theorem permitsChange_of_writeNew {bytes : ByteArray} {mode : Nat}
    (h : tree.writeNew path bytes mode = .ok after) (htargets : tree.Targets path site)
    (hnew : tree.get? site = none) : tree.permitsChange site = true := by
  rw [Targets, hnew] at htargets
  rw [writeNew, htargets] at h
  simp only [bind, Except.bind] at h
  split at h
  · assumption
  · cases h

/-! ### Last names -/

/-- Something bears the last name of a path, be it a link. -/
def IsTaken (tree : FileTree) (path : Path) : Prop :=
  ∃ place entry, tree.resolve .handle path = .ok ⟨place, some entry⟩

instance (tree : FileTree) (path : Path) : Decidable (tree.IsTaken path) :=
  match h : tree.resolve .handle path with
  | .ok ⟨place, some entry⟩ => isTrue ⟨place, entry, h⟩
  | .ok ⟨_, none⟩ | .error _ => isFalse (by simp [IsTaken, h])

theorem isName_of_file (ht : tree.Rooted) (hd : tree.IsDirectory (tree.start path))
    {bytes : ByteArray} {mode : Nat} (h : tree.find path = .ok (place, .file bytes mode)) :
    ∃ before name, split '/' path.text = before ++ [name] ∧ IsName name := by
  have hwalk := (resolve_eq_ok.mp (find_eq_ok.mp h)).2
  obtain ⟨first, more, hsplit⟩ := Path.exists_split path.text
  obtain ⟨name, hlast, hvoid⟩ := getLast?_of_file ht hd (by simp [hsplit]) hwalk
  obtain ⟨before, hpieces⟩ := List.getLast?_eq_some_iff.mp hlast
  refine ⟨before, name, hpieces, ?_⟩
  have hne : name ≠ "" ∧ name ≠ "." := by simpa [isVoid] using hvoid
  refine ⟨hne.1, hne.2, ?_, Text.notMem_of_mem_split (hpieces ▸ List.mem_concat_self)⟩
  -- one step up from a directory leads to a directory
  rintro rfl
  rw [hpieces] at hwalk
  obtain ⟨left, location, rights, hbefore, hup⟩ := walkWithin_append_eq_ok ht hd (by simp) hwalk
  obtain ⟨mode, hupper⟩ :=
    ht.isDirectory_dropLast ⟨rights, (entry_of_walkWithin hbefore).symm⟩
  rw [walkWithin_cons, step, withoutLook?] at hup
  by_cases hopened : tree.permits .enter location = true
  · simp [hopened, goOn, walkWithin_nil, hupper] at hup
  · simp [hopened, goOn] at hup

theorem splitLast_of_name {before : List String} {name : String}
    (hpieces : split '/' path.text = before ++ [name]) (hn : IsName name) :
    splitLast path = (before, some name, false) := by
  have hne : (name == "") = false := by simpa using hn.nonempty
  rw [splitLast, hpieces]
  simp [hne, hn.ne_here, hn.ne_up]

theorem exists_placeFor_of_file (ht : tree.Rooted) (hd : tree.IsDirectory (tree.start path))
    {bytes : ByteArray} {mode : Nat} (h : tree.find path = .ok (place, .file bytes mode)) :
    ∃ site, tree.placeFor path = .ok site := by
  obtain ⟨before, name, hpieces, hn⟩ := isName_of_file ht hd h
  obtain ⟨hform, hwalk⟩ := resolve_eq_ok.mp (find_eq_ok.mp h)
  rw [hpieces] at hwalk
  obtain ⟨left, parent, rights, hbefore, hname⟩ := walkWithin_append_eq_ok ht hd (by simp) hwalk
  have hlook : withoutLook? (tree.permits .enter parent) .use parent name [] = none := by
    cases hfound : withoutLook? (tree.permits .enter parent) .use parent name [] with
    | none => rfl
    | some found =>
        obtain ⟨error, rfl⟩ := withoutLook?_name hn hfound
        rw [walkWithin_cons, step, hfound] at hname
        cases hname
  obtain ⟨hopen, hshort⟩ : tree.permits .enter parent = true ∧
      ¬ maxNameBytes < name.utf8ByteSize := by
    rw [withoutLook?, if_neg (by simpa using hn.nonempty)] at hlook
    split at hlook
    · cases hlook
    rename_i hopen
    rw [if_neg hn.ne_here, if_neg hn.ne_up, if_neg (by simp)] at hlook
    split at hlook
    · cases hlook
    · exact ⟨by simpa using hopen, by assumption⟩
  obtain ⟨fewer, hfewer⟩ := walkWithin_directory ht hd hbefore
  have hparent : walkWithin tree .use maxLinks (tree.start path) (before ++ [""]) =
      .ok ⟨parent, tree.get? parent⟩ := by
    rw [hfewer [""] (by simp), walkWithin_cons]
    simp [step, withoutLook?, goOn, walkWithin_nil]
  rw [start] at hparent
  refine ⟨parent ++ [name], ?_⟩
  rw [placeFor, hform]
  simp only [splitLast_of_name hpieces hn, bind, Except.bind]
  rw [hparent, ← entry_of_walkWithin hbefore]
  simp [hopen, hshort, pure, Except.pure]

/-- Once a file is moved, nothing bears the name that it had. -/
theorem Moved.not_isTaken {entry : Entry} {bytes : ByteArray} {mode : Nat}
    (hm : Moved places site place (.file bytes mode) tree other after)
    (hw : WrittenAt places tree other) (ht : tree.WellFormed) (hne : place ≠ site)
    (hhandle : other.resolve .handle path = .ok ⟨site, some entry⟩) : ¬ after.IsTaken path := by
  rintro ⟨spot, found, hfound⟩
  obtain ⟨hform, hwalk⟩ := resolve_eq_ok.mp hhandle
  have hafter := (resolve_eq_ok.mp hfound).2
  have hc := (hw.changedAt ht).symm
  have hagree : AgreeOutside (place :: places) other after :=
    (hw.agree.symm.mono (List.subset_cons_self _ _)).trans hm.agree
  have hplaces : ∀ spot ∈ place :: places, ¬ other.IsDirectory spot :=
    List.forall_mem_cons.mpr ⟨fun hd => hm.notDirectory (hc.isDirectory hd),
      fun spot hp => (hc.blocks spot hp).notDirectory⟩
  have hsite : after.get? site = none := by rw [hm.get?_of_ne site hne.symm, if_pos rfl]
  rw [start, hagree.current, ← start] at hafter
  rcases walkWithin_agree_or_meets hc.rooted hagree hplaces (hc.isDirectory_start path) .handle
    maxLinks (split '/' path.text) with
    hsame | ⟨left, parent, name, rest, hmem, hlook, hpermits, hwalks⟩
  · rw [hsame, hwalk] at hafter
    cases hafter
    have hentry := entry_of_walkWithin (resolve_eq_ok.mp hfound).2
    rw [hsite] at hentry
    cases hentry
  · rw [(hwalks .handle (.inl rfl)).1] at hwalk
    rw [(hwalks .handle (.inl rfl)).2] at hafter
    rcases List.mem_cons.mp hmem with hthere | hplain
    · -- The walk would stop at the name to which the file is moved.
      rw [walkWithin_plain (by rw [hpermits, hlook])
        (hm.isPlain hw _ (hthere ▸ List.mem_cons_self))] at hafter
      obtain ⟨rfl, -⟩ := landing_eq_ok hlook hafter (.inr rfl)
      rw [walkWithin_handle_name hlook] at hwalk
      exact hne (hthere.symm.trans (Spot.mk.inj (Except.ok.inj hwalk)).1)
    · rw [walkWithin_plain hlook (hw.plainAfter _ hplain)] at hwalk
      obtain ⟨rfl, hspot⟩ := landing_eq_ok hlook hwalk (.inr rfl)
      obtain rfl : site = parent ++ [name] := (Spot.mk.inj hspot).1
      rw [walkWithin_handle_name (by rw [hpermits, hlook]), hsite] at hafter
      cases hafter

/-! ### Paths through their own last names -/

theorem isDirectory_erase (hplace : ¬ tree.IsDirectory place) (h : tree.IsDirectory site) :
    (tree.erase place).IsDirectory site := by
  rw [IsDirectory, get?_erase_of_ne]
  · exact h
  · rintro rfl
    exact hplace h

theorem erase_agree (tree : FileTree) (place : Location) :
    AgreeOutside [place] tree (tree.erase place) :=
  (AgreeOutside.refl [place] tree).erase List.mem_cons_self

theorem WellFormed.erase (ht : tree.WellFormed) (hplace : ¬ tree.IsDirectory place)
    (hparent : tree.IsDirectory place.dropLast) : (tree.erase place).WellFormed where
  toRooted := (erase_agree tree place).rooted ht.toRooted (by simpa using hplace)
    (by simpa using hparent)
  distinct := nodup_erase ht.distinct
  names := fun item hitem => ht.names item (List.mem_of_mem_filter hitem)
  current := isDirectory_erase hplace ht.current

/-- A path leads through what bears its own last name, as it may where that is a link to a
directory. -/
def ThroughItself (tree : FileTree) (path : Path) : Prop :=
  ∃ place, tree.placeFor path = .ok place ∧ (tree.erase place).placeFor path ≠ .ok place

/-- Only the link that bears its last name does a path lead through, if that is no directory. -/
theorem ThroughItself.isLink (ht : tree.WellFormed) (hplace : tree.placeFor path = .ok place)
    (hdirectory : ¬ tree.IsDirectory place) (h : tree.ThroughItself path) : tree.IsLink path := by
  obtain ⟨site, hsite, hgone⟩ := h
  obtain rfl : place = site := Except.ok.inj (hplace.symm.trans hsite)
  have hstart := isDirectory_start ht.toRooted ht.current path
  apply Classical.byContradiction
  intro hlink
  have hplain : IsPlain (tree.get? place) := by
    rcases hentry : tree.get? place with _ | mode | _ | target
    · trivial
    · exact hdirectory ⟨mode, hentry⟩
    · trivial
    · exact hlink ⟨place, target, by
        rw [resolve_handle_of_placeFor ht.toRooted hstart hplace, hentry]⟩
  apply hgone
  apply (erase_agree tree place).placeFor_eq_ok ht.toRooted _ hstart hplace
  simpa using blocks_of_isPlain hplain

/-- The tree after a written file was moved is the one without the old entry of its new place, but
for the files that were written. -/
theorem Moved.writtenAt_erase {bytes : ByteArray} {mode : Nat}
    (hm : Moved places site place (.file bytes mode) tree other after)
    (hw : WrittenAt places tree other) (hne : place ≠ [])
    (hparent : tree.IsDirectory place.dropLast) :
    WrittenAt (place :: places) (tree.erase place) after where
  agree := ((AgreeOutside.refl _ tree).erase List.mem_cons_self).symm.trans hm.agree
  distinct := hm.distinct
  plain := by
    intro spot hspot
    by_cases hs : spot = place
    · rw [hs, get?_erase _ _ _ hne, if_pos rfl]
      trivial
    · rw [get?_erase_of_ne hs]
      exact hw.plain spot ((List.mem_cons.mp hspot).resolve_left hs)
  plainAfter := hm.isPlain hw
  parents := List.forall_mem_cons.mpr ⟨isDirectory_erase hm.notDirectory hparent,
    fun spot hspot => isDirectory_erase hm.notDirectory (hw.parents spot hspot)⟩

/-- A file that is moved to the last name of a path is found by the path, unless that led through
what the file has taken the place of. -/
theorem Moved.find_iff {bytes : ByteArray} {mode : Nat}
    (hm : Moved places site place (.file bytes mode) tree other after)
    (hw : WrittenAt places tree other) (ht : tree.WellFormed)
    (hplace : tree.placeFor path = .ok place) :
    after.find path = .ok (place, .file bytes mode) ↔ ¬ tree.ThroughItself path := by
  have hstart := isDirectory_start ht.toRooted ht.current path
  obtain ⟨hne, hparent⟩ := parent_of_placeFor ht.toRooted hstart hplace
  have herased := ht.erase hm.notDirectory hparent
  have hc := (hm.writtenAt_erase hw hne hparent).changedAt herased
  -- Nothing that is gone was needed for a place that is found without it.
  have hback : ∀ {spot}, (tree.erase place).placeFor path = .ok spot →
      tree.placeFor path = .ok spot := by
    intro spot
    apply (erase_agree tree place).symm.placeFor_eq_ok herased.toRooted _
      (hc.isDirectory_start path)
    simpa using hc.blocks place List.mem_cons_self
  constructor
  · rintro hfind ⟨spot, hspot, hgone⟩
    obtain rfl : place = spot := Except.ok.inj (hplace.symm.trans hspot)
    obtain ⟨found, hfound⟩ :=
      exists_placeFor_of_file hc.rootedAfter (hc.symm.isDirectory_start path) hfind
    have hbefore := hc.symm.placeFor_eq_ok hfound
    rw [hbefore, ← hback hbefore, hplace] at hgone
    exact hgone rfl
  · intro hthrough
    have hbefore : (tree.erase place).placeFor path = .ok place :=
      Classical.byContradiction fun hgone => hthrough ⟨place, hplace, hgone⟩
    exact find_of_placeFor hc.rootedAfter (hc.symm.isDirectory_start path)
      (hc.placeFor_eq_ok hbefore) hm.get?_goal

end LocaleTidy.FileTree
