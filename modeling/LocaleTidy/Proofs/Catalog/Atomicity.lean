import LocaleTidy.Proofs.Catalog.Saving

/-!
# A catalog is saved, or nothing happens

A catalog that is saved is what its path leads to, and the temporary file is gone. A save that
fails leaves what the path leads to as it was, and all else but a temporary file that was there.
Both hold whichever calls the system refuses; links are followed, before the save and after it.
-/

namespace LocaleTidy.Catalog

open FileTree

variable {refusals : Refusals} {tree written ready left : FileTree} {path temporary : Path}
  {place site : Location} {text : String} {bytes : ByteArray} {mode rights : Nat}

/-! ### What a save leaves -/

/-- The tree after a text was saved: it is in the file that the last name of the path stands for,
with the rights of what the path led to if these could be looked up, and nothing bears the name of
the temporary file. -/
structure Saved (refusals : Refusals) (path : Path) (text : String) (place site : Location)
    (mode : Nat) (tree left : FileTree) : Prop where
  placeFor : tree.placeFor path = .ok place
  temporary : tree.Targets (temporaryFor path) site
  file : left.get? place = some (.file text.toUTF8 mode)
  /-- The path leads to the file, unless it led through the link whose place the file has taken. -/
  target : left.find path = .ok (place, .file text.toUTF8 mode) ↔ ¬ tree.ThroughItself path
  linked : tree.ThroughItself path → tree.IsLink path
  mode_eq : ∀ old, unlessRefused refusals.look (tree.modeOf path) = .ok old → mode = old
  gone : left.get? site = none
  free : ¬ left.IsTaken (temporaryFor path)
  others : ∀ spot, spot ≠ place → spot ≠ site → left.get? spot = tree.get? spot
  /-- Every other path leads to what it would have led to without the old target. -/
  found : ∀ other spot entry, spot ≠ place → spot ≠ site →
    (left.find other = .ok (spot, entry) ↔ (tree.erase place).find other = .ok (spot, entry))
  current : left.current = tree.current

/-- The tree after a save that failed: all is as it was, but for a temporary file that was there or
could not be removed again. -/
structure Kept (refusals : Refusals) (path : Path) (tree left : FileTree) : Prop where
  /-- The path leads to what it led to, unless it is a link to the temporary file itself. -/
  target : (tree.IsLink path → tree.Elsewhere (temporaryFor path) path) → ∀ spot entry,
    left.find path = .ok (spot, entry) ↔ tree.find path = .ok (spot, entry)
  /-- What bears the last name of the path does so again, be it such a link. -/
  handle : ∀ spot entry, left.resolve .handle path = .ok ⟨spot, some entry⟩ ↔
    tree.resolve .handle path = .ok ⟨spot, some entry⟩
  others : ∀ spot, ¬ tree.Targets (temporaryFor path) spot → left.get? spot = tree.get? spot
  found : ∀ other, tree.Elsewhere (temporaryFor path) other → ∀ spot entry,
    left.find other = .ok (spot, entry) ↔ tree.find other = .ok (spot, entry)
  current : left.current = tree.current
  fresh : refusals.remove = none → left.IsTaken (temporaryFor path) →
    tree.IsTaken (temporaryFor path)
  restored : refusals.remove = none → ¬ tree.IsTaken (temporaryFor path) → left = tree

theorem Kept.refl (refusals : Refusals) (path : Path) (tree : FileTree) :
    Kept refusals path tree tree where
  target _ _ _ := Iff.rfl
  handle _ _ := Iff.rfl
  others _ _ := rfl
  found _ _ _ _ := Iff.rfl
  current := rfl
  fresh _ := id
  restored _ _ := rfl

/-! ### The temporary file -/

theorem unlessRefused_eq_ok {α : Type} {refusal : Option FileError} {result : Except FileError α}
    {value : α} :
    unlessRefused refusal result = .ok value ↔ refusal = none ∧ result = .ok value := by
  cases refusal <;> simp [unlessRefused]

structure Staged (temporary : Path) (text : String) (site : Location) (mode : Nat)
    (tree ready : FileTree) : Prop where
  targets : tree.Targets temporary site
  writtenAt : WrittenAt [site] tree ready
  file : ready.get? site = some (.file text.toUTF8 mode)
  permits : tree.get? site = none → tree.permitsChange site = true

theorem exists_staged (ht : tree.WellFormed) (path : Path)
    (h : tree.writeText temporary text = .ok written) :
    ∃ site rights, Staged temporary text site rights tree written ∧
      ∀ old, tree.modeOf path = .ok old → written.modeOf path = .ok old := by
  obtain ⟨site, htargets, hwritten, -, ⟨rights, hfile⟩, hmodes⟩ :=
    (WrittenAt.start ht).writeNew ht h
  exact ⟨site, rights, ⟨htargets, hwritten, hfile, permitsChange_of_writeNew h htargets⟩,
    fun old => hwritten.modeOf_eq_ok ht hmodes⟩

/-- The temporary file takes over the rights of what the path leads to, if they can be looked
up. -/
theorem Staged.inheritMode (hs : Staged temporary text site rights tree written)
    (ht : tree.WellFormed)
    (hkept : ∀ old, tree.modeOf path = .ok old → written.modeOf path = .ok old)
    (h : inheritMode refusals written temporary path = .ok ready) :
    ∃ mode, Staged temporary text site mode tree ready ∧
      ∀ old, unlessRefused refusals.look (tree.modeOf path) = .ok old → mode = old := by
  have hagain : ∀ old, unlessRefused refusals.look (tree.modeOf path) = .ok old →
      unlessRefused refusals.look (written.modeOf path) = .ok old := by
    intro old hold
    obtain ⟨hlook, hold⟩ := unlessRefused_eq_ok.mp hold
    exact unlessRefused_eq_ok.mpr ⟨hlook, hkept old hold⟩
  cases hmode : unlessRefused refusals.look (written.modeOf path) with
  | error error =>
      rw [Catalog.inheritMode, hmode] at h
      cases h
      refine ⟨rights, hs, fun old hold => ?_⟩
      rw [hagain old hold] at hmode
      cases hmode
  | ok mode =>
      have hfind := ((hs.writtenAt.targets_iff ht).mpr hs.targets).find hs.file
      rw [inheritMode_of_look hfind hmode] at h
      obtain ⟨-, hset⟩ := unlessRefused_eq_ok.mp h
      cases hset
      refine ⟨mode, ⟨hs.targets, hs.writtenAt.set List.mem_cons_self _ mode,
        by rw [get?_set, if_pos rfl], hs.permits⟩, fun old hold => ?_⟩
      rw [hagain old hold] at hmode
      exact (Except.ok.inj hmode).symm

theorem Staged.resolve_handle (hs : Staged temporary text site mode tree ready)
    (ht : tree.WellFormed) (hl : ¬ tree.IsLink temporary) :
    ready.resolve .handle temporary = .ok ⟨site, some (.file text.toUTF8 mode)⟩ :=
  hs.writtenAt.resolve_handle ht hl hs.targets hs.file

/-! ### Failures -/

theorem discard_eq (hremove : refusals.remove = none)
    (h : tree.resolve .handle temporary = .ok ⟨site, some (.file bytes mode)⟩) :
    discard refusals tree temporary =
      if tree.permitsChange site then tree.erase site else tree := by
  rw [discard, hremove, unlessRefused, remove, h]
  simp only [bind, Except.bind]
  cases tree.permitsChange site <;> rfl

section Failures

variable (hs : Staged (temporaryFor path) text site mode tree ready) (ht : tree.WellFormed)
  (hl : ¬ tree.IsLink (temporaryFor path))

include hs ht hl

/-- Only a link leads to the temporary file: their last names differ. -/
theorem Staged.elsewhere (hlink : ¬ tree.IsLink path) :
    tree.Elsewhere (temporaryFor path) path := by
  intro spot hspot htargets
  obtain rfl : spot = site := hspot.unique hs.targets
  have hc := (hs.writtenAt.changedAt ht).symm
  exact temporary_ne hc.rooted (hc.isDirectory_start path)
    (hs.writtenAt.resolve_handle ht hlink htargets hs.file) (hs.resolve_handle ht hl) rfl

/-- What bears the last name of the path is not the temporary file, and so it is there again. -/
theorem Staged.handle_again {first second : FileTree}
    (hc : ChangedAt [site] first second) (hplain : FileTree.IsPlain (first.get? site))
    (hafter : FileTree.IsPlain (second.get? site)) {spot : Location} {entry : Entry}
    (h : first.resolve .handle path = .ok ⟨spot, some entry⟩) :
    second.resolve .handle path = .ok ⟨spot, some entry⟩ := by
  have hentry : some entry = first.get? spot := entry_of_walkWithin (resolve_eq_ok.mp h).2
  have hne : spot ≠ site := by
    rintro rfl
    obtain ⟨held, rights, rfl⟩ := file_of_isPlain (hentry ▸ hplain)
    exact temporary_ne hc.rooted (hc.isDirectory_start path) h (hs.resolve_handle ht hl) rfl
  have hagain := WrittenAt.resolve_again hc (by simpa using hplain) (by simpa using hafter) h
    (.inr rfl)
  rw [hagain, hc.agree.get? (by simpa using hne), ← hentry]

/-- Whatever has become of the temporary file, nothing else is changed. -/
theorem Staged.kept (hw : WrittenAt [site] tree left)
    (hrestored : refusals.remove = none → ¬ tree.IsTaken (temporaryFor path) → left = tree) :
    Kept refusals path tree left := by
  have hc := hw.changedAt ht
  have hplain := hw.plain site List.mem_cons_self
  have hafter := hw.plainAfter site List.mem_cons_self
  have hfound : ∀ other, tree.Elsewhere (temporaryFor path) other → ∀ spot entry,
      left.find other = .ok (spot, entry) ↔ tree.find other = .ok (spot, entry) := by
    intro other hother spot entry
    exact hw.find_iff ht (by simpa using hother site hs.targets)
  exact {
    target := fun hlink => hfound path
      (if h : tree.IsLink path then hlink h else hs.elsewhere ht hl h)
    handle := fun spot entry => ⟨hs.handle_again ht hl hc.symm hafter hplain,
      hs.handle_again ht hl hc hplain hafter⟩
    others := fun spot hspot => hw.agree.get?
      (by rw [List.mem_singleton]; rintro rfl; exact hspot hs.targets)
    found := hfound
    current := hw.agree.current
    fresh := fun hremove htaken =>
      Classical.byContradiction fun hfree => hfree (hrestored hremove hfree ▸ htaken)
    restored := hrestored }

theorem Staged.kept_discard :
    Kept refusals path tree (discard refusals ready (temporaryFor path)) := by
  cases hremove : refusals.remove with
  | some error =>
      have hleft : discard refusals ready (temporaryFor path) = ready := by
        rw [discard, hremove]
        rfl
      rw [hleft]
      exact hs.kept ht hl hs.writtenAt (by simp [hremove])
  | none =>
      have hdiscard := discard_eq hremove (hs.resolve_handle ht hl)
      rw [hs.writtenAt.permitsChange ht List.mem_cons_self] at hdiscard
      have hsite := (hs.writtenAt.changedAt ht).rootedAfter.ne_nil_of_file hs.file
      have herased := hs.writtenAt.erase hsite List.mem_cons_self
      cases hold : tree.get? site with
      | none =>
          have hsame : ready.erase site = tree :=
            herased.agree.eq_of_absent hold (by rw [get?_erase _ _ _ hsite, if_pos rfl])
          rw [hdiscard, if_pos (hs.permits hold), hsame]
          exact .refl refusals path tree
      | some entry =>
          have htaken : tree.IsTaken (temporaryFor path) := by
            obtain ⟨held, rights, rfl⟩ :=
              file_of_isPlain (hold ▸ hs.writtenAt.plain site List.mem_cons_self)
            exact ⟨site, _, (WrittenAt.start ht).resolve_handle ht hl hs.targets hold⟩
          refine hs.kept ht hl ?_ fun _ hfree => (hfree htaken).elim
          rw [hdiscard]
          split
          · exact herased
          · exact hs.writtenAt

end Failures

/-! ### Success -/

theorem Staged.saved (hs : Staged (temporaryFor path) text site mode tree ready)
    (ht : tree.WellFormed) (hl : ¬ tree.IsLink (temporaryFor path))
    (hmode : ∀ old, unlessRefused refusals.look (tree.modeOf path) = .ok old → mode = old)
    (h : ready.rename (temporaryFor path) path = .ok left) :
    ∃ place, Saved refusals path text place site mode tree left := by
  have hhandle := hs.resolve_handle ht hl
  have hc := hs.writtenAt.changedAt ht
  obtain ⟨place, hplace, hcases⟩ := rename_eq_ok hhandle h
  have hmoved := hs.writtenAt.moved ht List.mem_cons_self hs.file hcases
  have hne : place ≠ site := by
    obtain ⟨before, name, parent, rights, rfl, -, hpieces, -, hlook⟩ :=
      placeFor_eq_ok hc.rootedAfter (hc.symm.isDirectory_start path) hplace
    have hn := isName_of_withoutLook?
      (Text.notMem_of_mem_split (hpieces ▸ List.mem_concat_self)) hlook
    exact ne_temporary (by simp) (getLast?_temporary hpieces hn hhandle)
  have hbefore := hc.symm.placeFor_eq_ok hplace
  obtain ⟨hroot, hparent⟩ := parent_of_placeFor ht.toRooted (hc.isDirectory_start path) hbefore
  have hwithout := hmoved.writtenAt_erase hs.writtenAt hroot hparent
  exact ⟨place, {
    placeFor := hbefore
    temporary := hs.targets
    file := hmoved.get?_goal
    target := hmoved.find_iff hs.writtenAt ht hbefore
    linked := fun hthrough => hthrough.isLink ht hbefore hmoved.notDirectory
    mode_eq := hmode
    gone := by rw [hmoved.get?_of_ne site hne.symm, if_pos rfl]
    free := hmoved.not_isTaken hs.writtenAt ht hne hhandle
    others := fun spot hspot hsite => hmoved.agree.get? (by simp [hspot, hsite])
    found := fun other spot entry hspot hsite => hwithout.find_iff_of_notMem
      (ht.erase hmoved.notDirectory hparent) (by simp [hspot, hsite])
    current := hmoved.agree.current }⟩

/-- A save happens as a whole or not at all, whichever of its calls are refused. All files belong
to whoever runs the program, and so no call fails otherwise than the tree or a refusal makes it. -/
theorem save_atomic (ht : tree.WellFormed) (hl : ¬ tree.IsLink (temporaryFor path))
    (refusals : Refusals) (catalog : Catalog) :
    match catalog.saveAmid refusals tree path with
    | (.ok (), left) =>
        ∃ place site mode, Saved refusals path catalog.toText place site mode tree left
    | (.error _, left) => Kept refusals path tree left := by
  unfold saveAmid
  simp only
  cases hwritten : unlessRefused refusals.write
      (tree.writeText (temporaryFor path) catalog.toText) with
  | error error => exact .refl refusals path tree
  | ok written =>
      obtain ⟨site, rights, hstaged, hkept⟩ :=
        exists_staged ht path (unlessRefused_eq_ok.mp hwritten).2
      simp only [replace]
      cases hready : inheritMode refusals written (temporaryFor path) path with
      | error error => exact hstaged.kept_discard ht hl
      | ok ready =>
          obtain ⟨mode, hmoded, hmode⟩ := hstaged.inheritMode ht hkept hready
          simp only
          cases hrenamed : unlessRefused refusals.rename
              (ready.rename (temporaryFor path) path) with
          | error error => exact hmoded.kept_discard ht hl
          | ok left =>
              obtain ⟨place, hsaved⟩ :=
                hmoded.saved ht hl hmode (unlessRefused_eq_ok.mp hrenamed).2
              exact ⟨place, site, mode, hsaved⟩

/-- A file that only its owner may use, and a directory. -/
def drawer : FileTree :=
  ⟨[(["box"], .directory Entry.newDirectoryMode), (["zh.json"], .file "{}".toUTF8 0o600)], []⟩

/-- A catalog is saved over the file, with its rights, and not over the directory, nor if the rights
may not be set. -/
theorem save_atomic_drawer :
    let catalog : Catalog := ⟨[("home", .string "x")]⟩
    let sealing : Refusals := { Refusals.none with setMode := some .denied }
    drawer.WellFormed ∧ (∀ path, ¬ drawer.IsLink path) ∧
      (∃ left site, catalog.save drawer ⟨"zh.json"⟩ = (.ok (), left) ∧
        Saved .none ⟨"zh.json"⟩ catalog.toText ["zh.json"] site 0o600 drawer left ∧
        left.find ⟨"zh.json"⟩ = .ok (["zh.json"], .file catalog.toText.toUTF8 0o600)) ∧
      (∃ error left, catalog.save drawer ⟨"box"⟩ = (.error error, left) ∧
        Kept .none ⟨"box"⟩ drawer left ∧ left = drawer) ∧
      ∃ error left, catalog.saveAmid sealing drawer ⟨"zh.json"⟩ = (.error error, left) ∧
        Kept sealing ⟨"zh.json"⟩ drawer left ∧ left = drawer := by
  intro catalog sealing
  have ht : drawer.WellFormed := by decide +kernel
  have hl : ∀ path, ¬ drawer.IsLink path := fun path => not_isLink (by simp [drawer])
  refine ⟨ht, hl, ?_, ?_, ?_⟩
  · have hsaves : () ∈ (catalog.save drawer ⟨"zh.json"⟩).1.toOption := by decide +kernel
    have hsave := pair_eq_of_mem_toOption hsaves
    have h := save_atomic ht (hl (temporaryFor ⟨"zh.json"⟩)) .none catalog
    rw [← save, hsave] at h
    obtain ⟨place, site, mode, hsaved⟩ := h
    obtain rfl : mode = 0o600 := hsaved.mode_eq _ (by decide +kernel)
    have hplace : drawer.placeFor ⟨"zh.json"⟩ = .ok ["zh.json"] := by decide +kernel
    obtain rfl : ["zh.json"] = place := Except.ok.inj (hplace.symm.trans hsaved.placeFor)
    exact ⟨_, site, hsave, hsaved, hsaved.target.mpr fun hthrough => hl _ (hsaved.linked hthrough)⟩
  · have hfails : (catalog.save drawer ⟨"box"⟩).1.toOption.isNone := by decide +kernel
    obtain ⟨error, hsave⟩ := exists_pair_eq_of_isNone hfails
    have h := save_atomic ht (hl (temporaryFor ⟨"box"⟩)) .none catalog
    rw [← save, hsave] at h
    exact ⟨error, _, hsave, h, h.restored rfl (by decide +kernel)⟩
  · have hfails : (catalog.saveAmid sealing drawer ⟨"zh.json"⟩).1.toOption.isNone := by
      decide +kernel
    obtain ⟨error, hsave⟩ := exists_pair_eq_of_isNone hfails
    have h := save_atomic ht (hl (temporaryFor ⟨"zh.json"⟩)) sealing catalog
    rw [hsave] at h
    exact ⟨error, _, hsave, h, h.restored rfl (by decide +kernel)⟩

def bridge : FileTree :=
  ⟨[(["d"], .directory Entry.newDirectoryMode), (["l"], .link "d")], []⟩

/-- A link to the file that bears the name of the temporary one, in a directory in which no names
may be changed. -/
def lockedLink : FileTree :=
  ⟨[(["d"], .directory 0o555), (["d", "zh.json"], .link "zh.json.tmp"),
    (["d", "zh.json.tmp"], .file "{}".toUTF8 Entry.newFileMode)], []⟩

/-- A path over a link to a directory and back to that link leads nowhere once it is saved to, and a
link to the temporary file leads to the new text after a save that fails. Rights that may not be
looked up are not kept, and a temporary file that may not be removed stays. -/
theorem save_falls_short :
    (¬ ∀ (catalog : Catalog) (tree : FileTree) (path : Path) (left : FileTree),
      tree.WellFormed → ¬ tree.IsLink (temporaryFor path) →
      catalog.save tree path = (.ok (), left) →
      ∃ place mode, left.find path = .ok (place, .file catalog.toText.toUTF8 mode)) ∧
    (¬ ∀ (catalog : Catalog) (tree : FileTree) (path : Path) (error : ProjectError)
        (left : FileTree),
      tree.WellFormed → ¬ tree.IsLink (temporaryFor path) →
      catalog.save tree path = (.error error, left) → left.find path = tree.find path) ∧
    (¬ ∀ (refusals : Refusals) (catalog : Catalog) (tree : FileTree) (path : Path)
        (left : FileTree) (mode : Nat),
      tree.WellFormed → ¬ tree.IsLink (temporaryFor path) →
      catalog.saveAmid refusals tree path = (.ok (), left) → tree.modeOf path = .ok mode →
      left.modeOf path = .ok mode) ∧
    (¬ ∀ (refusals : Refusals) (catalog : Catalog) (tree : FileTree) (path : Path)
        (error : ProjectError) (left : FileTree),
      tree.WellFormed → ¬ tree.IsLink (temporaryFor path) →
      catalog.saveAmid refusals tree path = (.error error, left) →
      left.IsTaken (temporaryFor path) → tree.IsTaken (temporaryFor path)) := by
  refine ⟨?_, ?_, ?_, ?_⟩ <;> intro hall
  · obtain ⟨place, mode, hfind⟩ := hall ⟨[]⟩ bridge ⟨"l/../l"⟩ _ (by decide +kernel)
      (by decide +kernel) (pair_eq_of_mem_toOption (by decide +kernel))
    have hnone : ((save ⟨[]⟩ bridge ⟨"l/../l"⟩).2.place? ⟨"l/../l"⟩) = none := by decide +kernel
    have hsome := mem_place? hfind
    rw [hnone] at hsome
    cases hsome
  · have hfails : (save ⟨[]⟩ lockedLink ⟨"d/zh.json"⟩).1.toOption.isNone := by decide +kernel
    obtain ⟨error, hsave⟩ := exists_pair_eq_of_isNone hfails
    have hsame := hall ⟨[]⟩ lockedLink ⟨"d/zh.json"⟩ error _ (by decide +kernel)
      (by decide +kernel) hsave
    have hdiffer : ((save ⟨[]⟩ lockedLink ⟨"d/zh.json"⟩).2.readBytes ⟨"d/zh.json"⟩).toOption ≠
        (lockedLink.readBytes ⟨"d/zh.json"⟩).toOption := by
      decide +kernel
    apply hdiffer
    rw [readBytes, findReadable, hsame]
    rfl
  · have hkept := hall { Refusals.none with look := some .denied } ⟨[]⟩ drawer ⟨"zh.json"⟩ _ 0o600
      (by decide +kernel) (by decide +kernel)
      (pair_eq_of_mem_toOption (by decide +kernel)) (by decide +kernel)
    revert hkept
    decide +kernel
  · have hfails : (saveAmid { Refusals.none with rename := some .busy, remove := some .busy } ⟨[]⟩
        drawer ⟨"zh.json"⟩).1.toOption.isNone := by
      decide +kernel
    obtain ⟨error, hsave⟩ := exists_pair_eq_of_isNone hfails
    have hthere := hall _ ⟨[]⟩ drawer ⟨"zh.json"⟩ error _ (by decide +kernel) (by decide +kernel)
      hsave (by decide +kernel)
    revert hthere
    decide +kernel

end LocaleTidy.Catalog
