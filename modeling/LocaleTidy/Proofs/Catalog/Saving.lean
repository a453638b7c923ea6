import LocaleTidy.Catalog.File
import LocaleTidy.Proofs.Catalog.RoundTrip
import LocaleTidy.Proofs.FileTree.Placing

/-!
# Saved catalogs

A catalog that is saved without an error is what its path leads to afterwards, and it is read
from there again.
-/

namespace LocaleTidy.Catalog

open FileTree

variable {tree written after : FileTree} {places : List Location} {temporary path : Path}
  {place site : Location} {catalog : Catalog} {bytes held : ByteArray} {mode : Nat}

theorem fromUTF8?_toUTF8 (text : String) : String.fromUTF8? text.toUTF8 = some text := by
  simp [String.fromUTF8?, String.fromUTF8, text.isValidUTF8]

/-! ### The steps of a save -/

theorem inheritMode_of_look {refusals : Refusals} {rights : Nat}
    (htemporary : tree.find temporary = .ok (site, .file bytes rights))
    (hmode : unlessRefused refusals.look (tree.modeOf path) = .ok mode) :
    inheritMode refusals tree temporary path =
      unlessRefused refusals.setMode (.ok (tree.set site (.file bytes mode))) := by
  rw [inheritMode, hmode]
  simp only [setMode, htemporary, bind, Except.bind, pure, Except.pure]

theorem inheritMode_eq (hw : WrittenAt places tree written) (ht : tree.WellFormed)
    (htargets : tree.Targets temporary site) {rights : Nat}
    (hfile : written.get? site = some (.file bytes rights))
    (hfind : tree.find path = .ok (place, .file held mode)) (hmode : written.HasMode place mode) :
    inheritMode .none written temporary path = .ok (written.set site (.file bytes mode)) := by
  obtain ⟨now, hnow⟩ := hw.find_again ht hfind hmode
  have htemporary := ((hw.targets_iff ht).mpr htargets).find hfile
  have hmodeOf : written.modeOf path = .ok mode := by
    simp [modeOf, hnow, bind, Except.bind, pure, Except.pure]
  exact inheritMode_of_look htemporary hmodeOf

/-- The temporary file stands ready to take the place of a file: it has the new bytes and the
rights of that file, and nothing else is changed. -/
structure Prepared (places : List Location) (tree written ready : FileTree) (temporary : Path)
    (place site : Location) (bytes : ByteArray) (mode : Nat) : Prop where
  targets : tree.Targets temporary site
  writtenAt : WrittenAt (site :: places) tree ready
  agree : AgreeOutside [site] written ready
  file : ready.get? site = some (.file bytes mode)
  hasMode : ready.HasMode place mode

theorem prepare (hw : WrittenAt places tree written) (ht : tree.WellFormed)
    (hfind : tree.find path = .ok (place, .file held mode)) (hmode : written.HasMode place mode)
    {text : String} {filled : FileTree} (hfilled : written.writeText temporary text = .ok filled) :
    ∃ site ready, inheritMode .none filled temporary path = .ok ready ∧
      Prepared places tree written ready temporary place site text.toUTF8 mode := by
  obtain ⟨site, htargets, hwritten, hagree, ⟨rights, hfile⟩, hmodes⟩ := hw.writeNew ht hfilled
  have hkept := hmodes _ _ hmode
  refine ⟨site, _, inheritMode_eq hwritten ht htargets hfile hfind hkept, htargets,
    hwritten.set List.mem_cons_self _ mode, hagree.set List.mem_cons_self _,
    by rw [get?_set, if_pos rfl], hkept.set_same site _⟩

/-- Whatever a save can do: it changes nothing, or it makes the temporary file ready and either
moves or removes it. -/
theorem save_cases (hw : WrittenAt places tree written) (ht : tree.WellFormed)
    (hfind : tree.find path = .ok (place, .file held mode)) (hmode : written.HasMode place mode)
    {result : Except ProjectError Unit} (h : catalog.save written path = (result, after)) :
    (∃ error, result = .error error ∧ after = written) ∨
      ∃ site ready,
        Prepared places tree written ready (temporaryFor path) place site catalog.toText.toUTF8
          mode ∧
        (result = .ok () ∧ ready.rename (temporaryFor path) path = .ok after ∨
          ∃ error, result = .error error ∧ after = discard .none ready (temporaryFor path)) := by
  unfold save saveAmid at h
  simp only at h
  split at h
  · cases h
    exact .inl ⟨_, rfl, rfl⟩
  rename_i filled hfilled
  obtain ⟨site, ready, hready, hprepared⟩ := prepare hw ht hfind hmode hfilled
  refine .inr ⟨site, ready, hprepared, ?_⟩
  rw [replace, hready] at h
  simp only at h
  split at h
  · simp only [Prod.mk.injEq] at h
    rcases h with ⟨rfl, rfl⟩
    exact .inr ⟨_, rfl, rfl⟩
  · rename_i renamed hrenamed
    cases h
    exact .inl ⟨rfl, hrenamed⟩

theorem save_ok_cases (hw : WrittenAt places tree written) (ht : tree.WellFormed)
    (hfind : tree.find path = .ok (place, .file held mode)) (hmode : written.HasMode place mode)
    (h : catalog.save written path = (.ok (), after)) :
    ∃ site ready,
      Prepared places tree written ready (temporaryFor path) place site catalog.toText.toUTF8
        mode ∧
      ready.rename (temporaryFor path) path = .ok after := by
  rcases save_cases hw ht hfind hmode h with ⟨_, herror, -⟩ | ⟨site, ready, hready, hdone⟩
  · cases herror
  rcases hdone with ⟨-, hrenamed⟩ | ⟨_, herror, -⟩
  · exact ⟨site, ready, hready, hrenamed⟩
  · cases herror

theorem save_eq_ok (hw : WrittenAt places tree written) (ht : tree.WellFormed)
    (hl : ¬ tree.IsLink (temporaryFor path))
    (hfind : tree.find path = .ok (place, .file held mode)) (hmode : written.HasMode place mode)
    (h : catalog.save written path = (.ok (), after)) :
    ∃ goal site, tree.Targets (temporaryFor path) site ∧ FileTree.IsPlain (tree.get? site) ∧
      ChangedAt (goal :: site :: places) tree after ∧
      after.find path = .ok (goal, .file catalog.toText.toUTF8 mode) := by
  obtain ⟨site, ready, hready, hrenamed⟩ := save_ok_cases hw ht hfind hmode h
  obtain ⟨goal, hchanged, hfound, -⟩ := hready.writtenAt.rename ht hl hready.targets
    List.mem_cons_self hready.file hfind hrenamed
  exact ⟨goal, site, hready.targets, hready.writtenAt.plain site List.mem_cons_self, hchanged,
    hfound⟩

/-! ### A save in place -/

theorem isName_temporary {name : String} (hn : IsName name) : IsName (name ++ ".tmp") := by
  have hlong : ∀ text : String, text.length < 4 → name ++ ".tmp" ≠ text := by
    rintro text hlength rfl
    rw [String.length_append] at hlength
    have htmp : ".tmp".length = 4 := rfl
    omega
  refine ⟨hlong _ (by decide), hlong _ (by decide), hlong _ (by decide), ?_⟩
  simpa using hn.noSlash

theorem getLast?_temporary {before : List String} {name : String} {spot : Spot}
    (hpieces : Text.split '/' path.text = before ++ [name]) (hn : IsName name)
    (h : tree.resolve .handle (temporaryFor path) = .ok spot) :
    spot.location.getLast? = some (name ++ ".tmp") := by
  obtain ⟨front, hfront⟩ := Path.split_withFileName hpieces hn (isName_temporary hn)
  have htemporary : Text.split '/' (temporaryFor path).text = front ++ [name ++ ".tmp"] := by
    rw [temporaryFor, Path.fileName?_eq hpieces hn, Option.getD_some, hfront]
  exact getLast?_of_walkWithin (isName_temporary hn) (by simp [htemporary])
    (resolve_eq_ok.mp h).2

theorem ne_temporary {name : String} (hplace : place.getLast? = some name)
    (hsite : site.getLast? = some (name ++ ".tmp")) : place ≠ site := by
  rintro rfl
  rw [hplace] at hsite
  have hlength := congrArg String.length (Option.some.inj hsite)
  rw [String.length_append, show ".tmp".length = 4 from rfl] at hlength
  omega

/-- A file that bears the last name of a path does not stand where the temporary file does, be it
in another tree: their last names differ. -/
theorem temporary_ne (ht : tree.Rooted) (hd : tree.IsDirectory (tree.start path)) {temp : Spot}
    (h : tree.resolve .handle path = .ok ⟨place, some (.file bytes mode)⟩)
    (htemporary : written.resolve .handle (temporaryFor path) = .ok temp) :
    place ≠ temp.location := by
  obtain ⟨before, name, hpieces, hn⟩ := isName_of_file ht hd (find_of_resolve h (by simp))
  exact ne_temporary (getLast?_of_walkWithin hn (by simp [hpieces]) (resolve_eq_ok.mp h).2)
    (getLast?_temporary hpieces hn htemporary)

/-- A catalog that is saved takes the place of its file and leaves no temporary file, if neither
path is that of a link. -/
theorem save_in_place (hw : WrittenAt places tree written) (ht : tree.WellFormed)
    (hl : ¬ tree.IsLink (temporaryFor path)) (hlink : ¬ tree.IsLink path)
    (hfind : tree.find path = .ok (place, .file held mode)) (hmode : written.HasMode place mode)
    (h : catalog.save written path = (.ok (), after)) :
    ∃ site, tree.Targets (temporaryFor path) site ∧ site ≠ place ∧
      WrittenAt (place :: site :: places) tree after ∧
      after.find path = .ok (place, .file catalog.toText.toUTF8 mode) ∧
      after.get? site = none ∧ after.isThere (temporaryFor path) = false ∧
      ∀ spot, spot ≠ place → spot ≠ site → after.get? spot = written.get? spot := by
  obtain ⟨site, ready, hready, hrenamed⟩ := save_ok_cases hw ht hfind hmode h
  have hc := (hready.writtenAt.changedAt ht).symm
  obtain ⟨now, hnow⟩ := hready.hasMode
  have hsource := hready.writtenAt.resolve_handle ht hl hready.targets hready.file
  have htarget := hready.writtenAt.resolve_handle ht hlink
    (targets_of_find ht.toRooted (isDirectory_start ht.toRooted ht.current path) hfind) hnow
  have hne : place ≠ site :=
    temporary_ne hc.rooted (hc.isDirectory_start path) htarget hsource
  obtain ⟨hwritten, hplace, hsite, hother⟩ := hready.writtenAt.rename_onto ht hl hready.targets
    List.mem_cons_self hready.file hlink hfind hready.hasMode hne hrenamed
  refine ⟨site, hready.targets, hne.symm, hwritten, hwritten.find_at ht hfind hplace, hsite,
    ((hwritten.targets_iff ht).mpr hready.targets).not_isThere hsite, ?_⟩
  intro spot hspot hgone
  rw [hother spot hspot hgone, hready.agree.get? (by simpa using hgone)]

/-- What a path leads to that a file was written by, once the catalog is saved: the new catalog,
or that file if the temporary one is elsewhere. -/
theorem find_after_save {spot : Location} {other : Path} (hw : WrittenAt [spot] tree written)
    (ht : tree.WellFormed) (hl : ¬ tree.IsLink (temporaryFor path))
    (hfind : tree.find path = .ok (place, .file held mode)) (hmode : written.HasMode place mode)
    (h : catalog.save written path = (.ok (), after)) (hother : tree.Targets other spot)
    {found : Location} {right : Nat} (hafter : after.find other = .ok (found, .file bytes right)) :
    bytes = catalog.toText.toUTF8 ∨
      ¬ tree.Targets (temporaryFor path) spot ∧ written.get? spot = some (.file bytes right) := by
  obtain ⟨site, ready, hready, hrenamed⟩ := save_ok_cases hw ht hfind hmode h
  obtain ⟨goal, hchanged, -, hmoved⟩ := hready.writtenAt.rename ht hl hready.targets
    List.mem_cons_self hready.file hfind hrenamed
  have hc := hchanged.symm
  have hentry := get?_of_find hafter
  -- Elsewhere the file would have been found before, and so where it was written.
  have hmem : found ∈ goal :: site :: [spot] := by
    apply Classical.byContradiction
    intro hout
    have hbefore : tree.find other = .ok (found, .file bytes right) := by
      apply hc.agree.find_eq_ok hc.rooted (hc.isDirectory_start other) _ hafter
      intro place hplace
      refine ⟨place, leadsTo_of_isPlain (hmoved.isPlain hready.writtenAt place hplace), ?_⟩
      rintro rfl
      exact hout hplace
    have hsame := hother.unique
      (targets_of_find ht.toRooted (hchanged.isDirectory_start other) hbefore)
    exact hout (by simp [hsame])
  by_cases hgoal : found = goal
  · rw [hgoal, hmoved.get?_goal] at hentry
    cases hentry
    exact .inl rfl
  rw [hmoved.get?_of_ne found hgoal] at hentry
  split at hentry
  · cases hentry
  rename_i hsite
  obtain rfl : found = spot := by simpa [hgoal, hsite] using hmem
  rw [hready.agree.get? (by simpa using hsite)] at hentry
  exact .inr ⟨fun htargets => hsite (htargets.unique hready.targets), hentry⟩

/-! ### What a save leaves alone -/

theorem discard_keeps (ht : tree.Rooted) (hcurrent : tree.IsDirectory tree.current)
    (hfind : tree.find temporary = .ok (site, .file bytes mode)) {other : Path}
    {spot : Location} {entry : Entry} (hother : tree.find other = .ok (spot, entry))
    (hne : spot ≠ site) : (discard .none tree temporary).find other = .ok (spot, entry) := by
  change ((tree.remove temporary).toOption.getD tree).find other = .ok (spot, entry)
  cases hremove : tree.remove temporary with
  | error error => exact hother
  | ok removed =>
      obtain ⟨place, hagree, hleads⟩ :=
        remove_agree ht (isDirectory_start ht hcurrent temporary) hfind hremove
      apply hagree.find_eq_ok ht (isDirectory_start ht hcurrent other) _ hother
      intro gone hgone
      rw [List.mem_singleton.mp hgone]
      exact ⟨site, hleads, Ne.symm hne⟩

/-- A path that leads neither to the temporary file nor, if the catalog is saved, to the catalog
file leads to the same afterwards. -/
theorem save_keeps (hw : WrittenAt places tree written) (ht : tree.WellFormed)
    (hfind : tree.find path = .ok (place, .file held mode)) (hmode : written.HasMode place mode)
    {result : Except ProjectError Unit} (h : catalog.save written path = (result, after))
    {other : Path} {spot : Location} {entry : Entry}
    (hother : written.find other = .ok (spot, entry))
    (htemporary : ¬ tree.Targets (temporaryFor path) spot)
    (hplace : result = .ok () → spot ≠ place) : after.find other = .ok (spot, entry) := by
  rcases save_cases hw ht hfind hmode h with ⟨_, -, rfl⟩ | ⟨site, ready, hready, hdone⟩
  · exact hother
  have hne : site ≠ spot := by
    rintro rfl
    exact htemporary hready.targets
  have hc := (hw.changedAt ht).symm
  have hcr := (hready.writtenAt.changedAt ht).symm
  have hkept : ready.find other = .ok (spot, entry) := by
    apply hready.agree.find_eq_ok hc.rooted (hc.isDirectory_start other) _ hother
    intro filled hfilled
    obtain rfl := List.mem_singleton.mp hfilled
    have hplain := hready.writtenAt.plain filled List.mem_cons_self
    exact ⟨filled, leadsTo_of_isPlain ((hw.isPlain_iff filled).mpr hplain), hne⟩
  have hsource := ((hready.writtenAt.targets_iff ht).mpr hready.targets).find hready.file
  rcases hdone with ⟨hok, hrenamed⟩ | ⟨_, -, rfl⟩
  · obtain ⟨now, hnow⟩ := hready.writtenAt.find_again ht hfind hready.hasMode
    obtain ⟨origin, goal, hagree, horigin, hgoal⟩ :=
      rename_agree hcr.rooted hcr.current hsource hnow hrenamed
    apply hagree.find_eq_ok hcr.rooted (hcr.isDirectory_start other) _ hkept
    intro moved hmoved
    simp only [List.mem_cons, List.not_mem_nil, or_false] at hmoved
    rcases hmoved with rfl | rfl
    · exact ⟨place, hgoal, (hplace hok).symm⟩
    · exact ⟨site, horigin, hne⟩
  · exact discard_keeps hcr.rooted hcr.current hsource hkept hne.symm

/-! ### Catalogs that are loaded -/

theorem load_eq_ok (hread : Json.Readable Json.maxDepth catalog.toJson)
    (hfind : tree.find path = .ok (place, .file catalog.toText.toUTF8 mode))
    (hmode : (Entry.file catalog.toText.toUTF8 mode).permits .read = true) :
    load tree path = .ok catalog := by
  have htext : tree.readText path = .ok catalog.toText :=
    readText_eq_ok.mpr ⟨_, _, _, hfind, hmode, fromUTF8?_toUTF8 _⟩
  rw [load, bind_eq_ok]
  exact ⟨_, mapError_eq_ok.mpr htext, mapError_eq_ok.mpr (parse_toText hread)⟩

theorem file_of_load (h : load tree path = .ok catalog) :
    ∃ text place bytes mode, parse text = .ok catalog ∧
      tree.find path = .ok (place, .file bytes mode) ∧
      (Entry.file bytes mode).permits .read = true := by
  rw [load, bind_eq_ok] at h
  rcases h with ⟨text, htext, hparse⟩
  rw [mapError_eq_ok] at htext hparse
  obtain ⟨place, bytes, mode, hfind, hmode, -⟩ := readText_eq_ok.mp htext
  exact ⟨text, place, bytes, mode, hparse, hfind, hmode⟩

end LocaleTidy.Catalog
