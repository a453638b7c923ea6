import LocaleTidy.Proofs.FileTree.Renaming

/-!
# Where walks through a place end

A walk through a file ends there, and one through the name of a link to a file ends at that file.
What is done at such places is not seen by a path that leads elsewhere: renaming and removing
change the tree at the places of the last names of their paths, and at no others.
-/

namespace LocaleTidy.FileTree

variable {tree other after : FileTree} {places : List Location} {path source target : Path}
  {place site goal : Location} {name : String} {links : Nat} {here : Location}
  {pieces : List String}

/-! ### Places and their targets -/

/-- Whatever is found on a walk through a place is found at its target. -/
structure LeadsTo (tree : FileTree) (place goal : Location) : Prop where
  notDirectory : ¬ tree.IsDirectory place
  ends : ∀ {site name links rest spot}, site ++ [name] = place →
    withoutLook? (tree.permits .enter site) .use site name rest = none →
    walkWithin tree .use links site (name :: rest) = .ok spot → spot.entry.isSome →
    spot.location = goal

theorem leadsTo_of_isPlain (h : IsPlain (tree.get? place)) : tree.LeadsTo place place where
  notDirectory := (blocks_of_isPlain h).notDirectory
  ends := by
    intro site name links rest spot hplace hlook hwalk hsome
    subst hplace
    rw [walkWithin_plain hlook h] at hwalk
    obtain ⟨-, rfl⟩ := landing_eq_ok hlook hwalk (.inr hsome)
    rfl

theorem leadsTo_of_walkWithin (ht : tree.Rooted) (hd : tree.IsDirectory site)
    (hplace : ¬ tree.IsDirectory (site ++ [name])) {bytes : ByteArray} {mode : Nat}
    (h : walkWithin tree .use links site [name] = .ok ⟨goal, some (.file bytes mode)⟩) :
    tree.LeadsTo (site ++ [name]) goal where
  notDirectory := hplace
  ends := by
    intro other last more rest spot hplace hlook hwalk hsome
    obtain ⟨rfl, hlast⟩ := List.append_inj' hplace rfl
    cases hlast
    have hmore : walkWithin tree .use more other ([name] ++ rest) = .ok spot := hwalk
    obtain ⟨-, rfl⟩ := walkWithin_past_file ht hd h hmore
    rfl

/-- A change at some places is not seen by a path that leads to none of their targets. -/
theorem AgreeOutside.find_eq_ok (ha : AgreeOutside places tree other) (ht : tree.Rooted)
    (hd : tree.IsDirectory (tree.start path)) {entry : Entry}
    (hleads : ∀ place ∈ places, ∃ goal, tree.LeadsTo place goal ∧ goal ≠ site)
    (h : tree.find path = .ok (site, entry)) : other.find path = .ok (site, entry) := by
  rw [FileTree.find_eq_ok, resolve_eq_ok] at h ⊢
  rcases h with ⟨hform, hwalk⟩
  have hstart : other.start path = tree.start path := by rw [start, start, ha.current]
  refine ⟨hform, ?_⟩
  rw [hstart]
  have hplaces : ∀ place ∈ places, ¬ tree.IsDirectory place := by
    intro place hp
    obtain ⟨goal, hgoal, -⟩ := hleads place hp
    exact hgoal.notDirectory
  rcases walkWithin_agree_or_meets ht ha hplaces hd .use maxLinks (Text.split '/' path.text) with
    hsame | ⟨left, parent, name, rest, hmem, hlook, -, hwalks⟩
  · rw [hsame, hwalk]
  · obtain ⟨goal, hgoal, hne⟩ := hleads _ hmem
    rw [(hwalks .use (.inl rfl)).1] at hwalk
    exact (hne (hgoal.ends rfl hlook hwalk rfl).symm).elim

namespace WrittenAt

variable (hw : WrittenAt places tree other) (ht : tree.WellFormed)

include hw ht

/-- Files that are written are not seen by a path that leads elsewhere. -/
theorem find_iff_of_notMem {entry : Entry} (hout : site ∉ places) :
    other.find path = .ok (site, entry) ↔ tree.find path = .ok (site, entry) := by
  have hc := hw.changedAt ht
  constructor
  · apply hc.symm.agree.find_eq_ok hc.rootedAfter (hc.symm.isDirectory_start path)
    intro place hp
    exact ⟨place, leadsTo_of_isPlain (hw.plainAfter place hp), fun heq => hout (heq ▸ hp)⟩
  · apply hc.agree.find_eq_ok hc.rooted (hc.isDirectory_start path)
    intro place hp
    exact ⟨place, leadsTo_of_isPlain (hw.plain place hp), fun heq => hout (heq ▸ hp)⟩

/-- Files that are written are not seen by a path that none of them may be written by. -/
theorem find_iff {entry : Entry} (hout : ∀ place ∈ places, ¬ tree.Targets path place) :
    other.find path = .ok (site, entry) ↔ tree.find path = .ok (site, entry) := by
  have hc := hw.changedAt ht
  by_cases hp : site ∈ places
  · constructor
    · intro h
      have htargets := targets_of_plain hc.rootedAfter (hc.symm.isDirectory_start path)
        (hw.plainAfter site hp) h
      exact (hout site hp ((hw.targets_iff ht).mp htargets)).elim
    · intro h
      have htargets := targets_of_plain hc.rooted (hc.isDirectory_start path)
        (hw.plain site hp) h
      exact (hout site hp htargets).elim
  · exact find_iff_of_notMem hw ht hp

theorem find_at {entry new : Entry} (h : tree.find path = .ok (site, entry))
    (hnew : other.get? site = some new) : other.find path = .ok (site, new) := by
  rw [find_eq_ok] at h ⊢
  rw [resolve_again (hw.changedAt ht) hw.plain hw.plainAfter h (.inr rfl), hnew]

end WrittenAt

/-! ### Last names -/

/-- What a path leads to for handling, if it is no directory, stands at the place of its last
name, and the walk over the path goes through that name. -/
theorem walkWithin_handle (ht : tree.Rooted) (hd : tree.IsDirectory here) {entry : Entry}
    (h : walkWithin tree .handle links here pieces = .ok ⟨place, some entry⟩)
    (hentry : ∀ mode, entry ≠ .directory mode) :
    ∃ left site name, place = site ++ [name] ∧ tree.IsDirectory site ∧
      walkWithin tree .use links here pieces = walkWithin tree .use left site [name] := by
  induction links, here, pieces using walk_induction tree .handle with
  | done links here =>
      rcases hd with ⟨mode, hmode⟩
      rw [walkWithin_nil, hmode] at h
      cases h
      exact (hentry mode rfl).elim
  | stop links here piece rest result hstep hwalk =>
      rw [hwalk] at h
      subst h
      obtain ⟨hplace, -, -, hrest⟩ := step_stop hstep
      obtain rfl := hrest rfl
      exact ⟨links, here, piece, hplace, hd, rfl⟩
  | go links here piece rest there hstep hwalk ih =>
      obtain ⟨left, site, name, hplace, hsite, huse⟩ := ih (isDirectory_go ht hd hstep) (hwalk ▸ h)
      refine ⟨left, site, name, hplace, hsite, ?_⟩
      rw [walkWithin_cons, step_use_of_ne_stop hstep (by simp), goOn, huse]
  | tired here piece rest start pieces hstep hwalk =>
      rw [hwalk] at h
      cases h
  | follow links here piece rest start pieces hstep hwalk ih =>
      obtain ⟨left, site, name, hplace, hsite, huse⟩ :=
        ih (isDirectory_follow ht hd hstep) (hwalk ▸ h)
      refine ⟨left, site, name, hplace, hsite, ?_⟩
      rw [walkWithin_cons, step_use_of_ne_stop hstep (by simp), goOn, huse]

/-- What bears the last name of a path to a file: the file or a link to it. -/
theorem resolve_handle_of_find (ht : tree.Rooted) (hd : tree.IsDirectory (tree.start path))
    {bytes : ByteArray} {mode : Nat} (h : tree.find path = .ok (goal, .file bytes mode)) :
    ∃ place entry, tree.resolve .handle path = .ok ⟨place, some entry⟩ ∧
      tree.LeadsTo place goal := by
  have hlast : ∃ place entry, tree.resolve .handle path = .ok ⟨place, some entry⟩ ∧
      ∀ mode, entry ≠ .directory mode := by
    rcases resolve_purpose tree .handle path with hsame | ⟨hwrite, -⟩ | ⟨place, link, hlink⟩
    · exact ⟨goal, _, hsame.trans (find_eq_ok.mp h), by simp⟩
    · cases hwrite
    · exact ⟨place, _, hlink, by simp⟩
  obtain ⟨place, entry, hplace, hentry⟩ := hlast
  obtain ⟨left, site, name, rfl, hsite, hwalk⟩ :=
    walkWithin_handle ht hd (resolve_eq_ok.mp hplace).2 hentry
  have hfound := (resolve_eq_ok.mp (find_eq_ok.mp h)).2
  refine ⟨_, entry, hplace, leadsTo_of_walkWithin ht hsite ?_ (hwalk.symm.trans hfound)⟩
  rintro ⟨rights, hrights⟩
  have hthere : some entry = tree.get? (site ++ [name]) :=
    entry_of_walkWithin (resolve_eq_ok.mp hplace).2
  rw [hrights] at hthere
  exact hentry rights (Option.some.inj hthere)

theorem leadsTo_of_placeFor (ht : tree.Rooted) (hd : tree.IsDirectory (tree.start path))
    {bytes : ByteArray} {mode : Nat} (h : tree.find path = .ok (goal, .file bytes mode))
    (hplace : tree.placeFor path = .ok place) (hdirectory : ¬ tree.IsDirectory place) :
    tree.LeadsTo place goal := by
  obtain ⟨before, name, parent, rights, rfl, -, hpieces, hbefore, -⟩ :=
    placeFor_eq_ok ht hd hplace
  have hparent : tree.IsDirectory parent := ⟨rights, (entry_of_walkWithin hbefore).symm⟩
  obtain ⟨left, hleft⟩ := walkWithin_directory ht hd hbefore
  have hwalk := (resolve_eq_ok.mp (find_eq_ok.mp h)).2
  rw [hpieces, hleft [name] (by simp)] at hwalk
  exact leadsTo_of_walkWithin ht hparent hdirectory hwalk

/-! ### Renaming and removing -/

theorem rename_agree (ht : tree.Rooted) (hcurrent : tree.IsDirectory tree.current)
    {bytes held : ByteArray} {mode rights : Nat}
    (hsource : tree.find source = .ok (site, .file bytes mode))
    (htarget : tree.find target = .ok (goal, .file held rights))
    (h : tree.rename source target = .ok after) :
    ∃ origin place, AgreeOutside [place, origin] tree after ∧ tree.LeadsTo origin site ∧
      tree.LeadsTo place goal := by
  have hstart := isDirectory_start ht hcurrent
  obtain ⟨origin, entry, horigin, hleads⟩ := resolve_handle_of_find ht (hstart source) hsource
  obtain ⟨place, hplace, hcases⟩ := rename_eq_ok horigin h
  have hdirectory : ¬ tree.IsDirectory place := by
    rcases hcases with ⟨rfl, -⟩ | ⟨-, hnone, -⟩
    · exact hleads.notDirectory
    · rintro ⟨mode, hmode⟩
      exact hnone mode hmode
  refine ⟨origin, place, ?_, hleads,
    leadsTo_of_placeFor ht (hstart target) htarget hplace hdirectory⟩
  rcases hcases with ⟨-, rfl⟩ | ⟨-, -, rfl⟩
  · exact .refl _ _
  · exact ((AgreeOutside.refl _ tree).erase (by simp)).set (by simp) entry

theorem remove_agree (ht : tree.Rooted) (hd : tree.IsDirectory (tree.start path))
    {bytes : ByteArray} {mode : Nat} (hfind : tree.find path = .ok (goal, .file bytes mode))
    (h : tree.remove path = .ok after) :
    ∃ place, AgreeOutside [place] tree after ∧ tree.LeadsTo place goal := by
  obtain ⟨place, entry, hplace, hleads⟩ := resolve_handle_of_find ht hd hfind
  refine ⟨place, ?_, hleads⟩
  rw [remove, hplace] at h
  simp only [bind, Except.bind] at h
  split at h
  · cases h
  split at h
  · cases h
  · cases h
    exact (AgreeOutside.refl _ tree).erase (by simp)

end LocaleTidy.FileTree
