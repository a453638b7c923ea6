import LocaleTidy.Proofs.Corpus.Reached
import LocaleTidy.Proofs.FileTree.LastName

/-!
# Ways down without links

A walk that leads downwards from a directory ends where its names tell, as long as none of them
bears a link. So the steps of such a path tell the place that it leads to.
-/

namespace LocaleTidy

open Text (split)
open LocaleTidy.Path (Component IsInner stepNames isVoid)

namespace FileTree

variable {tree : FileTree} {purpose : Purpose} {links : Nat} {here place : Location}
  {names pieces : List String} {text : String} {root path : Path} {entry : Entry}

/-- No link bears one of some names, taken downwards from a place. -/
def FreeOfLinks (tree : FileTree) (here : Location) (names : List String) : Prop :=
  ∀ front, front <+: names → ∀ target, tree.get? (here ++ front) ≠ some (.link target)

theorem FreeOfLinks.of_prefix (h : tree.FreeOfLinks here names) {front : List String}
    (hfront : front <+: names) : tree.FreeOfLinks here front :=
  fun above habove => h above (habove.trans hfront)

theorem FreeOfLinks.deeper {above : List String} (h : tree.FreeOfLinks here (above ++ names)) :
    tree.FreeOfLinks (here ++ above) names := by
  intro front hfront target
  rw [List.append_assoc]
  exact h _ ((List.prefix_append_right_inj above).mpr hfront) target

theorem FreeOfLinks.append {above : List String} (h : tree.FreeOfLinks here above)
    (hbelow : tree.FreeOfLinks (here ++ above) names) :
    tree.FreeOfLinks here (above ++ names) := by
  intro front hfront
  rcases List.prefix_or_prefix_of_prefix hfront (List.prefix_append above names) with
    hshort | ⟨more, rfl⟩
  · exact h front hshort
  · rw [← List.append_assoc]
    exact hbelow more ((List.prefix_append_right_inj above).mp hfront)

theorem freeOfLinks_of_file (ht : tree.Rooted) {bytes : ByteArray} {mode : Nat}
    (hfile : tree.get? (here ++ names) = some (.file bytes mode)) :
    tree.FreeOfLinks here names := by
  rintro front ⟨more, rfl⟩ target hlink
  rw [← List.append_assoc] at hfile
  by_cases hmore : more = []
  · rw [hmore, List.append_nil, hlink] at hfile
    cases hfile
  · obtain ⟨rights, hdirectory⟩ := ht.isDirectory_above (by rw [hfile]; rfl) hmore
    rw [hlink] at hdirectory
    cases hdirectory

/-! ## Walks -/

/-- A walk that leads downwards ends where its names tell if none of them bears a link. -/
theorem location_of_walkWithin {spot : Spot} (hup : ".." ∉ pieces)
    (hfree : tree.FreeOfLinks here (pieces.filter fun piece => !isVoid piece))
    (h : walkWithin tree purpose links here pieces = .ok spot) :
    spot.location = here ++ pieces.filter fun piece => !isVoid piece := by
  induction pieces generalizing here with
  | nil =>
      rw [walkWithin_nil] at h
      cases h
      simp
  | cons piece rest ih =>
      rw [List.mem_cons, not_or] at hup
      rw [walkWithin_cons] at h
      rcases step_cases tree purpose here piece rest with
        ⟨error, hstep⟩ | ⟨hvoid, hstep⟩ | ⟨rfl, -⟩ | ⟨hvoid, -, hstep⟩
      · rw [hstep] at h
        cases h
      · rw [hstep] at h
        rw [List.filter_cons_of_neg (by simp [hvoid])] at hfree ⊢
        exact ih hup.2 hfree h
      · exact (hup.1 rfl).elim
      · rw [hstep] at h
        rw [List.filter_cons_of_pos (by simp [hvoid])] at hfree ⊢
        cases hto : stepTo purpose here (here ++ [piece]) rest (tree.get? (here ++ [piece])) with
        | stop result =>
            rw [hto, goOn] at h
            subst h
            obtain ⟨hplace, -, hslashes, -⟩ := step_stop (hstep.trans hto)
            rw [hplace, filter_isVoid_of_all hslashes]
        | go there =>
            obtain ⟨-, rfl⟩ := of_stepTo_go hto
            rw [hto, goOn] at h
            rw [ih hup.2 (FreeOfLinks.deeper hfree) h, List.append_assoc, List.singleton_append]
        | follow start target =>
            obtain ⟨name, hlink, -⟩ := of_stepTo_follow hto
            exact (hfree [piece] (List.prefix_append _ _) name hlink).elim

/-! ## Paths below a directory -/

theorem exists_find_of_join (ht : tree.WellFormed) (hroot : root.text ≠ "")
    (hrelative : text.startsWith "/" = false)
    (h : tree.find (root.join text) = .ok (place, entry)) :
    ∃ here mode, tree.find root = .ok (here, .directory mode) := by
  obtain ⟨hform, hwalk⟩ := resolve_eq_ok.mp (find_eq_ok.mp h)
  obtain ⟨-, hzero, hshort⟩ := checkForm_eq_ok.mp hform
  have hd := isDirectory_start ht.toRooted ht.current (root.join text)
  obtain ⟨before, hbefore, hjoined, habsolute, -⟩ := Path.split_join hroot hrelative
  obtain ⟨first, rest, hsplit⟩ := Path.exists_split text
  rw [hjoined] at hwalk
  obtain ⟨-, here, mode, hhere, -⟩ :=
    walkWithin_append_eq_ok ht.toRooted hd (by simp [hsplit]) hwalk
  have hshorter : checkForm root = .ok () := by
    obtain ⟨front, hfront, -, hjoin⟩ := Path.exists_join_eq hroot
    refine checkForm_eq_ok.mpr ⟨hroot, fun hmem => hzero ?_, ?_⟩
    · exact (Path.mem_join hroot hrelative (by decide)).mpr (.inl hmem)
    · rw [hjoin text hrelative] at hshort
      rcases hfront with rfl | rfl <;> simp only [String.utf8ByteSize_append] at hshort <;> omega
  have hstart : tree.start root = tree.start (root.join text) := by
    rw [start, start, habsolute]
  refine ⟨here, mode, find_eq_ok.mpr (resolve_eq_ok.mpr ⟨hshorter, ?_⟩)⟩
  rw [hstart]
  rcases hbefore with hbefore | hbefore
  · rw [hbefore, hhere]
  · obtain ⟨left, hleft⟩ := walkWithin_directory ht.toRooted hd hhere
    have hentry := entry_of_walkWithin hhere
    rw [hbefore, hleft [""] (by simp), walkWithin_cons]
    simp [step, withoutLook?, goOn, walkWithin_nil, ← hentry]

variable {mode : Nat}

theorem location_of_find_join (ht : tree.WellFormed) (hi : IsInner text)
    (hroot : tree.find root = .ok (here, .directory mode))
    (hfree : tree.FreeOfLinks here (stepNames text))
    (h : tree.find (root.join text) = .ok (place, entry)) : place = here ++ stepNames text := by
  obtain ⟨⟨left, hleft⟩, -⟩ := resolve_join ht hroot hi.relative
    (resolve_eq_ok.mp (find_eq_ok.mp h)).1
  exact location_of_walkWithin hi.noUp hfree (hleft.symm.trans (find_eq_ok.mp h))

/-- The last name of a path to a file may bear a link. -/
theorem location_of_resolve_handle {bytes : ByteArray} {rights : Nat} {spot : Spot}
    (ht : tree.WellFormed) (hi : IsInner text)
    (hroot : tree.find root = .ok (here, .directory mode))
    (hfree : tree.FreeOfLinks here (stepNames text).dropLast)
    (hfile : tree.find (root.join text) = .ok (place, .file bytes rights))
    (h : tree.resolve .handle (root.join text) = .ok spot) :
    spot.location = here ++ stepNames text := by
  have hd : tree.IsDirectory here := ⟨mode, get?_of_find hroot⟩
  obtain ⟨⟨left, hleft⟩, hany⟩ := resolve_join ht hroot hi.relative (resolve_eq_ok.mp h).1
  obtain ⟨first, rest, hpieces⟩ := Path.exists_split text
  obtain ⟨last, hlast, hvoid⟩ := getLast?_of_file ht.toRooted hd (by simp [hpieces])
    (hleft.symm.trans (find_eq_ok.mp hfile))
  have hnonempty : last ≠ "" ∧ last ≠ "." := by simpa [isVoid] using hvoid
  obtain ⟨front, hsplit⟩ := List.getLast?_eq_some_iff.mp hlast
  have hname : IsName last :=
    { nonempty := hnonempty.1
      ne_here := hnonempty.2
      ne_up := fun hup => hi.noUp (by simp [hsplit, hup])
      noSlash := Text.notMem_of_mem_split (List.mem_of_getLast? hlast) }
  have hsteps : stepNames text = (front.filter fun piece => !isVoid piece) ++ [last] := by
    simp [stepNames, hsplit, hvoid]
  obtain ⟨fewer, hfewer⟩ := hany (by simp [hsplit, hnonempty.1])
  have hwalk := (hfewer .use).symm.trans (find_eq_ok.mp hfile)
  have hhandle := (hfewer .handle).symm.trans h
  rw [hsplit] at hwalk hhandle
  obtain ⟨-, site, bits, hsite, -⟩ := walkWithin_append_eq_ok ht.toRooted hd (by simp) hwalk
  -- only the last name is looked up for handling, in the directory that the others lead to
  obtain ⟨less, hless⟩ := walkWithin_directory_for ht.toRooted hd hsite
  obtain ⟨result, hresult⟩ := step_handle_name tree site hname
  rw [hless .handle [last] (by simp [hnonempty.1]), walkWithin_cons, hresult, goOn] at hhandle
  subst hhandle
  have hup : ".." ∉ front := fun hmem => hi.noUp (by simp [hsplit, hmem])
  rw [hsteps, List.dropLast_concat] at hfree
  rw [(step_stop hresult).1, hsteps, ← List.append_assoc]
  exact congrArg (· ++ [last]) (location_of_walkWithin hup hfree hsite)

/-- The steps of a path under which a file is reached tell its place. -/
theorem Reaches.exists_place {bytes : ByteArray} {rights : Nat} (ht : tree.WellFormed)
    (hi : IsInner text) (hroot : tree.find root = .ok (here, .directory mode))
    (hfree : tree.FreeOfLinks here (stepNames text))
    (h : tree.Reaches (root.join text) path bytes rights)
    (hfile : tree.find path = .ok (place, entry)) :
    ∃ names : List String, path.components = root.components ++ names.map Component.name ∧
      place = here ++ names := by
  have hne := text_ne_of_checkForm (resolve_eq_ok.mp (find_eq_ok.mp hroot)).1
  have hcomponents := hi.components_join hne
  cases h with
  | itself _ => exact ⟨stepNames text, hcomponents, location_of_find_join ht hi hroot hfree hfile⟩
  | @below start names _ _ _ hstart hentry =>
      have hn := ht.isName_below hentry
      obtain ⟨hinner, hsteps, -⟩ := hi.below hn
      refine ⟨stepNames text ++ names, ?_, ?_⟩
      · rw [Path.components_foldl_join
          (text_ne_of_checkForm (resolve_eq_ok.mp (find_eq_ok.mp hstart)).1) hn, hcomponents,
          List.map_append, List.append_assoc]
      · rw [Path.foldl_join_join hne hi hn] at hfile
        rw [← hsteps]
        refine location_of_find_join ht hinner hroot ?_ hfile
        rw [hsteps]
        have hplace := location_of_find_join ht hi hroot hfree hstart
        exact hfree.append (hplace ▸ freeOfLinks_of_file ht.toRooted hentry)

end FileTree

end LocaleTidy
