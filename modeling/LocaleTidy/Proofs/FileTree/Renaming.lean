import LocaleTidy.Proofs.FileTree.Writing

/-!
# What renaming changes

A file takes the place of another one, or of the link that leads to it. The path of the old file
leads to the new one then.
-/

namespace LocaleTidy.FileTree

variable {tree other after : FileTree} {places : List Location} {path source target : Path}
  {place site : Location}

/-! ### The place of a name -/

theorem splitLast_eq {before : List String} {name : String}
    (h : splitLast path = (before, some name, false)) :
    Text.split '/' path.text = before ++ [name] ∧ name ≠ "" ∧ name ≠ "." ∧ name ≠ ".." := by
  unfold splitLast at h
  simp only at h
  split at h
  · cases h
  · rename_i last front hlast
    split at h
    · cases h
    · rename_i hdots
      obtain ⟨rfl, rfl, hslash⟩ : front.reverse = before ∧ last = name ∧ _ := by
        simpa using h
      have hne : last ≠ "" := by
        rintro rfl
        have := List.head?_dropWhile_not (· == "") (Text.split '/' path.text).reverse
        simp [hlast] at this
      have hreverse : (Text.split '/' path.text).reverse = last :: front := by
        cases hpieces : (Text.split '/' path.text).reverse with
        | nil => simp [hpieces] at hlast
        | cons first more =>
            have hfirst : first ≠ "" := by
              rintro rfl
              apply hslash
              rw [List.getLast?_eq_head?_reverse, hpieces, List.head?_cons]
            rw [hpieces, List.dropWhile_cons_of_neg (by simpa using hfirst)] at hlast
            rw [hlast]
      refine ⟨?_, hne, fun h => hdots (.inl h), fun h => hdots (.inr h)⟩
      rw [← List.reverse_reverse (Text.split '/' path.text), hreverse, List.reverse_cons]

/-- The place of a path's last name is in the directory that the names before it lead to. -/
theorem placeFor_eq_ok (ht : tree.Rooted) (hd : tree.IsDirectory (tree.start path))
    (h : tree.placeFor path = .ok place) :
    ∃ before name parent mode, place = parent ++ [name] ∧ checkForm path = .ok () ∧
      Text.split '/' path.text = before ++ [name] ∧
      walkWithin tree .use maxLinks (tree.start path) before =
        .ok ⟨parent, some (.directory mode)⟩ ∧
      withoutLook? (tree.permits .enter parent) .use parent name [] = none := by
  rw [placeFor, bind_eq_ok] at h
  rcases h with ⟨⟨⟩, hform, h⟩
  rcases hsplit : splitLast path with ⟨before, last, slash⟩
  rw [hsplit] at h
  simp only [bind_eq_ok] at h
  rcases h with ⟨⟨parent, entry⟩, hwalk, h⟩
  cases entry with
  | none => cases h
  | some entry =>
      rw [if_neg (by simp)] at h
      cases last with
      | none => cases h
      | some name =>
          simp only at h
          split at h
          · cases h
          rename_i hopen
          split at h
          · cases h
          rename_i hshort
          split at h
          · cases h
          rename_i hslash
          cases h
          obtain ⟨hpieces, hne, hhere, hup⟩ :=
            splitLast_eq (hsplit.trans (by rw [Bool.eq_false_iff.mpr hslash]))
          obtain ⟨mode, -, hbefore⟩ := walkWithin_slash ht hd hwalk
          refine ⟨before, name, parent, mode, rfl, hform, hpieces, hbefore, ?_⟩
          simp [withoutLook?, hne, hhere, hup, hopen, hshort]

theorem parent_of_placeFor (ht : tree.Rooted) (hd : tree.IsDirectory (tree.start path))
    (h : tree.placeFor path = .ok place) : place ≠ [] ∧ tree.IsDirectory place.dropLast := by
  obtain ⟨before, name, parent, mode, rfl, -, -, hbefore, -⟩ := placeFor_eq_ok ht hd h
  rw [List.dropLast_concat]
  exact ⟨by simp, mode, (entry_of_walkWithin hbefore).symm⟩

theorem AgreeOutside.placeFor_eq_ok (ha : AgreeOutside places tree other) (ht : tree.Rooted)
    (hb : ∀ site ∈ places, tree.Blocks site) (hd : tree.IsDirectory (tree.start path))
    (h : tree.placeFor path = .ok place) : other.placeFor path = .ok place := by
  rw [placeFor, bind_eq_ok] at h
  rcases h with ⟨⟨⟩, hform, h⟩
  rw [placeFor, hform]
  rcases hsplit : splitLast path with ⟨before, last, slash⟩
  rw [hsplit] at h
  simp only [bind_eq_ok] at h
  rcases h with ⟨⟨parent, entry⟩, hwalk, h⟩
  cases entry with
  | none => cases h
  | some entry =>
      obtain ⟨mode, rfl, -⟩ := walkWithin_slash ht hd hwalk
      have hagain := ha.walkWithin_directory ht hb hd hwalk
      have hparent : tree.IsDirectory parent := ⟨mode, (entry_of_walkWithin hwalk).symm⟩
      have hpermits : other.permits .enter parent = tree.permits .enter parent := by
        rw [permits, permits, ha.get? fun hmem => (hb parent hmem).notDirectory hparent]
      rw [start, ← ha.current] at hagain
      simp only [bind, Except.bind]
      rw [hagain]
      simp only [hpermits]
      exact h

theorem ChangedAt.placeFor_eq_ok (hc : ChangedAt places tree other)
    (h : tree.placeFor path = .ok place) : other.placeFor path = .ok place :=
  hc.agree.placeFor_eq_ok hc.rooted hc.blocks (hc.isDirectory_start path) h

theorem find_of_placeFor (ht : tree.Rooted) (hd : tree.IsDirectory (tree.start path))
    (hplace : tree.placeFor path = .ok place) {bytes : ByteArray} {mode : Nat}
    (hfile : tree.get? place = some (.file bytes mode)) :
    tree.find path = .ok (place, .file bytes mode) := by
  obtain ⟨before, name, parent, rights, rfl, hform, hpieces, hbefore, hlook⟩ :=
    placeFor_eq_ok ht hd hplace
  obtain ⟨left, hleft⟩ := walkWithin_directory ht hd hbefore
  rw [find_eq_ok, resolve_eq_ok, hpieces, hleft [name] (by simp),
    walkWithin_plain hlook (by simp [hfile, IsPlain]), hfile]
  exact ⟨hform, rfl⟩

theorem rename_eq_ok {entry : Entry}
    (hspot : tree.resolve .handle source = .ok ⟨site, some entry⟩)
    (h : tree.rename source target = .ok after) :
    ∃ place, tree.placeFor target = .ok place ∧
      (place = site ∧ after = tree ∨
        place ≠ site ∧ (∀ mode, tree.get? place ≠ some (.directory mode)) ∧
          after = (tree.erase site).set place entry) := by
  rw [rename, hspot] at h
  simp only [bind_eq_ok] at h
  rcases h with ⟨spot, hsame, place, hplace, h⟩
  cases hsame
  refine ⟨place, hplace, ?_⟩
  simp only at h
  split at h
  · cases h
    exact .inl ⟨by assumption, rfl⟩
  rename_i hne
  split at h
  · cases h
  split at h
  · cases h
  rename_i hdirectory
  cases h
  exact .inr ⟨hne, hdirectory, rfl⟩

/-! ### A written file is renamed -/

/-- The last name of a path is that of a link. -/
def IsLink (tree : FileTree) (path : Path) : Prop :=
  ∃ place target, tree.resolve .handle path = .ok ⟨place, some (.link target)⟩

instance (tree : FileTree) (path : Path) : Decidable (tree.IsLink path) :=
  match h : tree.resolve .handle path with
  | .ok ⟨place, some (.link target)⟩ => isTrue ⟨place, target, h⟩
  | .ok ⟨_, some (.directory _)⟩ | .ok ⟨_, some (.file _ _)⟩ | .ok ⟨_, none⟩ | .error _ =>
      isFalse (by simp [IsLink, h])

theorem not_isLink (h : ∀ item ∈ tree.entries, ∀ target, item.2 ≠ .link target) :
    ¬ tree.IsLink path := by
  intro hx
  rcases hx with ⟨place, target, hlink⟩
  have hentry := entry_of_walkWithin (resolve_eq_ok.mp hlink).2
  unfold get? at hentry
  split at hentry
  · rename_i entry hlookup
    cases hentry
    obtain ⟨front, back, hentries, -⟩ := List.lookup_eq_some_iff.mp hlookup
    exact h (place, .link target) (by simp [hentries]) target rfl
  · split at hentry <;> cases hentry

theorem WrittenAt.resolve_handle (hw : WrittenAt places tree other) (ht : tree.WellFormed)
    (hl : ¬ tree.IsLink path) (htargets : tree.Targets path site) {bytes : ByteArray} {mode : Nat}
    (hfile : other.get? site = some (.file bytes mode)) :
    other.resolve .handle path = .ok ⟨site, some (.file bytes mode)⟩ := by
  have hfind := ((hw.targets_iff ht).mpr htargets).find hfile
  rcases resolve_purpose other .handle path with
    hsame | ⟨hwrite, -⟩ | ⟨location, target, hlink⟩
  · rw [hsame, find_eq_ok.mp hfind]
  · cases hwrite
  · rcases (hw.changedAt ht).symm.resolve_eq_or_meets .handle path with
      hsame | hmeet
    · exact (hl ⟨location, target, hsame.trans hlink⟩).elim
    · rcases hmeet with ⟨left, parent, name, rest, hmem, hlook, -, hwalks⟩
      have hwalk := (resolve_eq_ok.mp hlink).2
      have hplain := hw.plainAfter _ hmem
      rw [(hwalks .handle (.inl rfl)).1, walkWithin_plain hlook hplain] at hwalk
      obtain ⟨-, hspot⟩ := landing_eq_ok hlook hwalk (.inr rfl)
      cases hentry : other.get? (parent ++ [name]) with
      | none => simp [hentry] at hspot
      | some entry =>
          rw [hentry] at hspot hplain
          cases hspot
          exact hplain.elim

theorem get?_erase_of_ne (h : place ≠ site) : (tree.erase site).get? place = tree.get? place := by
  by_cases hroot : place = []
  · simp only [get?, erase, lookup_filter_ne, h, if_false]
  · rw [get?_erase _ _ _ hroot, if_neg h]

theorem Rooted.ne_nil_of_file (ht : tree.Rooted) {bytes : ByteArray} {mode : Nat}
    (hfile : tree.get? place = some (.file bytes mode)) : place ≠ [] := by
  rintro rfl
  obtain ⟨rights, hroot⟩ := ht.root
  rw [hroot] at hfile
  cases hfile

/-- What a rename of a written file changes, apart from what walks do. -/
structure Moved (places : List Location) (site goal : Location) (entry : Entry)
    (tree other after : FileTree) : Prop where
  agree : AgreeOutside (goal :: places) tree after
  distinct : (after.entries.map (·.1)).Nodup
  notDirectory : ¬ tree.IsDirectory goal
  get?_goal : after.get? goal = some entry
  get?_of_ne : ∀ place, place ≠ goal →
    after.get? place = if place = site then none else other.get? place

theorem WrittenAt.moved (hw : WrittenAt places tree other) (ht : tree.WellFormed)
    (hp : site ∈ places) {bytes : ByteArray} {mode : Nat}
    (hfile : other.get? site = some (.file bytes mode))
    (h : place = site ∧ after = other ∨
      place ≠ site ∧ (∀ mode, other.get? place ≠ some (.directory mode)) ∧
        after = (other.erase site).set place (.file bytes mode)) :
    Moved places site place (.file bytes mode) tree other after := by
  have hc := hw.changedAt ht
  have hmono := hw.agree.mono (List.subset_cons_self place places)
  rcases h with ⟨rfl, rfl⟩ | ⟨hne, hdirectory, rfl⟩
  · refine ⟨hmono, hw.distinct, (hc.blocks _ hp).notDirectory, hfile, ?_⟩
    intro other' hne
    rw [if_neg hne]
  · have hroot := hc.rootedAfter.ne_nil_of_file hfile
    refine ⟨(hmono.erase (List.mem_cons_of_mem _ hp)).set List.mem_cons_self _,
      nodup_set (nodup_erase hw.distinct) _, ?_, by rw [get?_set, if_pos rfl], ?_⟩
    · intro hd
      obtain ⟨mode, hmode⟩ := hc.isDirectory hd
      exact hdirectory mode hmode
    · intro other' hne'
      rw [get?_set, if_neg hne']
      by_cases hs : other' = site
      · rw [hs, get?_erase _ _ _ hroot, if_pos rfl]
      · rw [get?_erase_of_ne hs, if_neg hs]

theorem Moved.isPlain {goal : Location} {bytes : ByteArray} {mode : Nat}
    (hm : Moved places site goal (.file bytes mode) tree other after)
    (hw : WrittenAt places tree other) :
    ∀ place ∈ goal :: places, IsPlain (after.get? place) := by
  intro place hmem
  by_cases hg : place = goal
  · rw [hg, hm.get?_goal]
    trivial
  · rw [hm.get?_of_ne place hg]
    split
    · trivial
    · exact hw.plainAfter place ((List.mem_cons.mp hmem).resolve_left hg)

theorem WrittenAt.rename (hw : WrittenAt places tree other) (ht : tree.WellFormed)
    (hl : ¬ tree.IsLink source) (htargets : tree.Targets source site) (hp : site ∈ places)
    {bytes held : ByteArray} {mode right : Nat}
    (hfile : other.get? site = some (.file bytes mode))
    (hfind : tree.find target = .ok (place, .file held right))
    (h : other.rename source target = .ok after) :
    ∃ goal, ChangedAt (goal :: places) tree after ∧
      after.find target = .ok (goal, .file bytes mode) ∧
      Moved places site goal (.file bytes mode) tree other after := by
  have hc := hw.changedAt ht
  obtain ⟨goal, hgoal, hcases⟩ := rename_eq_ok (hw.resolve_handle ht hl htargets hfile) h
  have hmoved := hw.moved ht hp hfile hcases
  have hplace := hc.symm.placeFor_eq_ok hgoal
  obtain ⟨before, name, parent, rights, rfl, -, hpieces, hbefore, -⟩ :=
    placeFor_eq_ok ht.toRooted (hc.isDirectory_start target) hplace
  have hparent : tree.IsDirectory parent := ⟨rights, (entry_of_walkWithin hbefore).symm⟩
  obtain ⟨left, hleft⟩ := walkWithin_directory ht.toRooted (hc.isDirectory_start target) hbefore
  have hblocks : tree.Blocks (parent ++ [name]) := by
    have hlast : walkWithin tree .use left parent [name] =
        .ok ⟨place, some (.file held right)⟩ := by
      rw [← hleft [name] (by simp), ← hpieces]
      exact (resolve_eq_ok.mp (find_eq_ok.mp hfind)).2
    exact blocks_of_walkWithin ht.toRooted hparent hmoved.notDirectory hlast
  have hplain := hmoved.isPlain hw
  have hchanged : ChangedAt ((parent ++ [name]) :: places) tree after := by
    apply ht.changedAt hmoved.agree hmoved.distinct
    · exact List.forall_mem_cons.mpr ⟨hblocks, hc.blocks⟩
    · exact fun place hmem => blocks_of_isPlain (hplain place hmem)
    · exact List.forall_mem_cons.mpr ⟨by rwa [List.dropLast_concat], hw.parents⟩
  exact ⟨parent ++ [name], hchanged, find_of_placeFor hchanged.rootedAfter
    (hchanged.symm.isDirectory_start target) (hchanged.placeFor_eq_ok hplace) hmoved.get?_goal,
    hmoved⟩

end LocaleTidy.FileTree
