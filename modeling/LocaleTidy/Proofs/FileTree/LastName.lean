import LocaleTidy.Proofs.FileTree.Leading

/-!
# Last names

A path that ends in a name, and not in that of a link, leads to a place with the same last name.
A file that is renamed to such a path takes the very place of the file there.
-/

namespace LocaleTidy

open Text (split)

namespace Path

variable {path : Path} {before : List String} {name other : String}

theorem getLast?_components (h : split '/' path.text = before ++ [name])
    (hn : FileTree.IsName name) : path.components.getLast? = some (.name name) := by
  have hstep : stepOf? name = some (.name name) := by
    simp [stepOf?, isVoid, hn.nonempty, hn.ne_here, hn.ne_up]
  cases before with
  | nil =>
      simp [components, Path.pieces, h, firstStep?, hn.nonempty, hn.ne_here, hstep]
  | cons first more =>
      simp [components, Path.pieces, h, hstep]

theorem fileName?_eq (h : split '/' path.text = before ++ [name]) (hn : FileTree.IsName name) :
    path.fileName? = some name := by
  rw [fileName?, getLast?_components h hn]

theorem text_ofPieces_ne (first : String) (rest : List String) :
    (ofPieces first rest).text ≠ "" := by
  unfold ofPieces
  split
  · simp
  · rename_i hpieces
    intro htext
    have hlist := congrArg String.toList htext
    rw [String.toList_intercalate] at hlist
    cases rest with
    | nil => simp_all
    | cons second more => simp at hlist

/-- What a path without its last name is: nothing, or a path of its own. -/
theorem parent?_eq (h : split '/' path.text = before ++ [name]) (hn : FileTree.IsName name) :
    path.parent? = some ⟨""⟩ ∨ ∃ parent, path.parent? = some parent ∧ parent.text ≠ "" := by
  cases before with
  | nil =>
      left
      simp [parent?, Path.pieces, h, trimEnd, hn.nonempty]
  | cons first more => exact .inr ⟨_, parent?_of_split h hn, text_ofPieces_ne _ _⟩

theorem split_withFileName (h : split '/' path.text = before ++ [name])
    (hn : FileTree.IsName name) (ho : FileTree.IsName other) :
    ∃ front, split '/' (path.withFileName other).text = front ++ [other] := by
  rw [withFileName, fileName?_eq h hn, Option.isSome_some, if_pos rfl]
  rcases parent?_eq h hn with hparent | ⟨parent, hparent, htext⟩
  · refine ⟨[], ?_⟩
    rw [hparent, Option.getD_some, join, startsWith_slash_name ho]
    simp [split_name ho]
  · rw [hparent, Option.getD_some]
    obtain ⟨front, -, hfront, -⟩ := join_name htext ho
    exact ⟨front, hfront⟩

end Path

namespace FileTree

variable {tree other after : FileTree} {places : List Location} {path source target : Path}
  {place site : Location} {name : String} {links : Nat} {here : Location}
  {pieces : List String}

/-! ### Places with the last name of a path -/

theorem step_handle_name (tree : FileTree) (here : Location) (hn : IsName name) :
    ∃ result, step tree .handle here name [] = .stop result := by
  unfold step
  cases hlook : withoutLook? (tree.permits .enter here) .handle here name [] with
  | some found =>
      obtain ⟨error, rfl⟩ := withoutLook?_name hn hlook
      exact ⟨_, rfl⟩
  | none =>
      rw [Option.getD_none]
      unfold stepTo
      split <;> exact ⟨_, rfl⟩

theorem getLast?_of_walkWithin {spot : Spot} (hn : IsName name)
    (hlast : pieces.getLast? = some name)
    (h : walkWithin tree .handle links here pieces = .ok spot) :
    spot.location.getLast? = some name := by
  -- The last name is either the next piece or among those that are left.
  have hrest : ∀ {piece : String} {rest : List String}, (piece :: rest).getLast? = some name →
      rest = [] ∧ piece = name ∨ rest.getLast? = some name := by
    intro piece rest hall
    cases rest with
    | nil => exact .inl ⟨rfl, by simpa using hall⟩
    | cons next more => exact .inr (by simpa using hall)
  induction links, here, pieces using walk_induction tree .handle with
  | done links here => cases hlast
  | stop links here piece rest result hstep hwalk =>
      rw [hwalk] at h
      subst h
      obtain ⟨hplace, -, hblank, -⟩ := step_stop hstep
      rcases hrest hlast with ⟨-, rfl⟩ | hmore
      · simp [hplace]
      · have hmem := List.mem_of_getLast? hmore
        exact (hn.nonempty (by simpa using List.all_eq_true.mp hblank _ hmem)).elim
  | go links here piece rest there hstep hwalk ih =>
      rcases hrest hlast with ⟨rfl, rfl⟩ | hmore
      · obtain ⟨result, hstop⟩ := step_handle_name tree here hn
        cases hstep.symm.trans hstop
      · exact ih hmore (hwalk ▸ h)
  | tired here piece rest start pieces hstep hwalk =>
      rw [hwalk] at h
      cases h
  | follow links here piece rest start pieces hstep hwalk ih =>
      rcases hrest hlast with ⟨rfl, rfl⟩ | hmore
      · obtain ⟨result, hstop⟩ := step_handle_name tree here hn
        cases hstep.symm.trans hstop
      · obtain ⟨target, -, -, rfl⟩ := step_follow hstep
        exact ih (by simp [hmore]) (hwalk ▸ h)

theorem isName_of_withoutLook? {opened : Bool} {purpose : Purpose} {rest : List String}
    (hslash : '/' ∉ name.toList) (h : withoutLook? opened purpose here name rest = none) :
    IsName name := by
  rw [withoutLook?] at h
  split at h
  · cases h
  rename_i hempty
  split at h
  · cases h
  split at h
  · cases h
  rename_i hhere
  split at h
  · cases h
  rename_i hup
  exact ⟨by simpa using hempty, hhere, hup, hslash⟩

/-- A walk for handling ends at the last name that it looks up, whatever bears it. -/
theorem walkWithin_handle_name
    (h : withoutLook? (tree.permits .enter here) .handle here name [] = none) :
    walkWithin tree .handle links here [name] =
      .ok ⟨here ++ [name], tree.get? (here ++ [name])⟩ := by
  rw [walkWithin_look h]
  rcases hentry : tree.get? (here ++ [name]) with _ | _ | _ | _ <;> simp [stepTo, landing, goOn]

theorem resolve_handle_of_placeFor (ht : tree.Rooted) (hd : tree.IsDirectory (tree.start path))
    (h : tree.placeFor path = .ok place) :
    tree.resolve .handle path = .ok ⟨place, tree.get? place⟩ := by
  obtain ⟨before, name, parent, mode, rfl, hform, hpieces, hbefore, hlook⟩ :=
    placeFor_eq_ok ht hd h
  have hn : IsName name :=
    isName_of_withoutLook? (Text.notMem_of_mem_split (hpieces ▸ List.mem_concat_self)) hlook
  obtain ⟨left, hleft⟩ := walkWithin_directory_for ht hd hbefore
  rw [resolve_of_checkForm hform, hpieces, hleft .handle [name] (by simp [hn.nonempty]),
    walkWithin_handle_name hlook]

theorem placeFor_eq_of_handle (ht : tree.Rooted) (hd : tree.IsDirectory (tree.start path))
    {spot : Spot} (h : tree.resolve .handle path = .ok spot)
    (hplace : tree.placeFor path = .ok place) : spot.location = place := by
  rw [resolve_handle_of_placeFor ht hd hplace] at h
  cases h
  rfl

/-- A written file that is renamed to the path of a file, neither by the path of a link, takes
the place of that file. -/
theorem WrittenAt.rename_onto (hw : WrittenAt places tree other) (ht : tree.WellFormed)
    (hsource : ¬ tree.IsLink source) (htargets : tree.Targets source site) (hp : site ∈ places)
    {bytes held : ByteArray} {mode right : Nat}
    (hfile : other.get? site = some (.file bytes mode)) (htarget : ¬ tree.IsLink target)
    (hfind : tree.find target = .ok (place, .file held right))
    (hheld : other.HasMode place right) (hne : place ≠ site)
    (h : other.rename source target = .ok after) :
    WrittenAt (place :: places) tree after ∧ after.get? place = some (.file bytes mode) ∧
      after.get? site = none ∧
      ∀ spot, spot ≠ place → spot ≠ site → after.get? spot = other.get? spot := by
  have hc := (hw.changedAt ht).symm
  obtain ⟨goal, hgoal, hcases⟩ :=
    rename_eq_ok (hw.resolve_handle ht hsource htargets hfile) h
  have hmoved := hw.moved ht hp hfile hcases
  obtain ⟨now, hnow⟩ := hheld
  have hstart := isDirectory_start ht.toRooted ht.current target
  have hhandle := hw.resolve_handle ht htarget (targets_of_find ht.toRooted hstart hfind) hnow
  obtain rfl : place = goal :=
    placeFor_eq_of_handle hc.rooted (hc.isDirectory_start target) hhandle hgoal
  have hplace := get?_of_find hfind
  refine ⟨⟨hmoved.agree, hmoved.distinct, ?_, ?_, ?_⟩, hmoved.get?_goal, ?_, ?_⟩
  · exact List.forall_mem_cons.mpr ⟨by simp [hplace, IsPlain], hw.plain⟩
  · exact hmoved.isPlain hw
  · exact List.forall_mem_cons.mpr ⟨ht.parents place (by simp [hplace]), hw.parents⟩
  · rw [hmoved.get?_of_ne site (Ne.symm hne), if_pos rfl]
  · intro spot hspot hother
    rw [hmoved.get?_of_ne spot hspot, if_neg hother]

end FileTree

end LocaleTidy
