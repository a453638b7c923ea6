import LocaleTidy.Proofs.FileTree.Walk

/-!
# Longer paths

A walk over the first pieces of a path decides how the walk over all of them goes on. Past a
directory it goes on from there; past anything else it does not get.
-/

namespace LocaleTidy.FileTree

variable {tree : FileTree} {links : Nat} {here : Location} {piece : String}
  {rest pieces more : List String}

/-- The walk over more pieces, after what the walk over the first ones has come to. -/
def afterwards (tree : FileTree) (left : Nat) (more : List String) :
    Except FileError Spot → Except FileError Spot
  | .error error => .error error
  | .ok ⟨place, some (.directory _)⟩ => walkWithin tree .use left place more
  | .ok ⟨place, entry⟩ => landing place more entry

/-- What a step becomes if more pieces follow. -/
def Step.before (more : List String) : Step → Step
  | .stop (.error error) => .stop (.error error)
  | .stop (.ok ⟨place, some (.directory _)⟩) => .go place
  | .stop (.ok ⟨place, entry⟩) => .stop (landing place more entry)
  | .go there => .go there
  | .follow start pieces => .follow start (pieces ++ more)

theorem withoutLook?_use_rest {opened : Bool} (other : List String) :
    withoutLook? opened .use here piece rest = withoutLook? opened .use here piece other := by
  simp [withoutLook?]

theorem step_append (h : more ≠ []) :
    step tree .use here piece (rest ++ more) = (step tree .use here piece rest).before more := by
  unfold step
  rw [withoutLook?_use_rest rest]
  cases hlook : withoutLook? (tree.permits .enter here) .use here piece rest with
  | some found =>
      rw [Option.getD_some, Option.getD_some]
      rcases withoutLook?_eq_some hlook with ⟨error, rfl⟩ | rfl | rfl <;> rfl
  | none =>
      rw [Option.getD_none, Option.getD_none]
      unfold stepTo
      split
      · cases rest <;> simp [h, Step.before]
      · simp [Step.before]
      · cases rest <;> simp [landing, h, Step.before]
      · by_cases hblank : rest.all (· == "")
        · simp [landing, hblank, Step.before]
        · simp [landing, hblank, Step.before]

theorem walkWithin_append (ht : tree.Rooted) (hd : tree.IsDirectory here) (links : Nat)
    (pieces : List String) :
    ∃ left, ∀ more, more ≠ [] →
      walkWithin tree .use links here (pieces ++ more) =
        afterwards tree left more (walkWithin tree .use links here pieces) := by
  induction links, here, pieces using walk_induction tree .use with
  | done links here =>
      rcases hd with ⟨mode, hmode⟩
      exact ⟨links, fun more _ => by rw [walkWithin_nil, hmode, List.nil_append, afterwards]⟩
  | stop links here piece rest result hstep hwalk =>
      refine ⟨links, fun more hm => ?_⟩
      rw [hwalk, List.cons_append, walkWithin_cons, step_append hm, hstep]
      rcases result with error | ⟨place, _ | _ | _ | _⟩
      · rfl
      · rfl
      · rw [(step_stop hstep).2.2.2 rfl]
        rfl
      · rfl
      · rfl
  | go links here piece rest there hstep hwalk ih =>
      obtain ⟨left, hleft⟩ := ih (isDirectory_go ht hd hstep)
      refine ⟨left, fun more hm => ?_⟩
      rw [hwalk, List.cons_append, walkWithin_cons, step_append hm, hstep]
      exact hleft more hm
  | tired here piece rest start pieces hstep hwalk =>
      refine ⟨0, fun more hm => ?_⟩
      rw [hwalk, List.cons_append, walkWithin_cons, step_append hm, hstep]
      rfl
  | follow links here piece rest start pieces hstep hwalk ih =>
      obtain ⟨left, hleft⟩ := ih (isDirectory_follow ht hd hstep)
      refine ⟨left, fun more hm => ?_⟩
      rw [hwalk, List.cons_append, walkWithin_cons, step_append hm, hstep]
      exact hleft more hm

theorem walkWithin_directory (ht : tree.Rooted) (hd : tree.IsDirectory here)
    {place : Location} {mode : Nat}
    (h : walkWithin tree .use links here pieces = .ok ⟨place, some (.directory mode)⟩) :
    ∃ left, ∀ more, more ≠ [] →
      walkWithin tree .use links here (pieces ++ more) = walkWithin tree .use left place more := by
  obtain ⟨left, hleft⟩ := walkWithin_append ht hd links pieces
  refine ⟨left, fun more hm => ?_⟩
  rw [hleft more hm, h, afterwards]

/-- A walk that finds something has come to a directory before its last pieces. -/
theorem walkWithin_append_eq_ok (ht : tree.Rooted) (hd : tree.IsDirectory here) (hmore : more ≠ [])
    {place : Location} {entry : Entry}
    (h : walkWithin tree .use links here (pieces ++ more) = .ok ⟨place, some entry⟩) :
    ∃ left site mode,
      walkWithin tree .use links here pieces = .ok ⟨site, some (.directory mode)⟩ ∧
        walkWithin tree .use left site more = .ok ⟨place, some entry⟩ := by
  obtain ⟨left, hleft⟩ := walkWithin_append ht hd links pieces
  rw [hleft more hmore] at h
  cases hfirst : walkWithin tree .use links here pieces with
  | error error =>
      rw [hfirst] at h
      cases h
  | ok spot =>
      rw [hfirst] at h
      rcases spot with ⟨site, _ | mode | _ | _⟩
      · simp only [afterwards, landing] at h
        split at h <;> cases h
      · exact ⟨left, site, mode, rfl, h⟩
      · simp [afterwards, landing, hmore] at h
      · simp [afterwards, landing, hmore] at h

/-- What a walk is for does not show before the last name of its path. -/
theorem step_of_more (purpose : Purpose) (h : rest.all (· == "") = false) :
    step tree purpose here piece rest = step tree .use here piece rest := by
  have hne : rest.isEmpty = false := by
    cases rest with
    | nil => simp at h
    | cons name rest => rfl
  have hlook : withoutLook? (tree.permits .enter here) purpose here piece rest =
      withoutLook? (tree.permits .enter here) .use here piece rest := by
    simp [withoutLook?, endsInSlash, h]
  rw [step, step, hlook]
  congr 1
  unfold stepTo
  split
  · rfl
  · simp [hne]
  · rfl
  · rfl

/-- Past the directory that the first pieces lead to, a walk for any purpose goes on from
there. -/
theorem walkWithin_directory_for (ht : tree.Rooted) (hd : tree.IsDirectory here)
    {place : Location} {mode : Nat}
    (h : walkWithin tree .use links here pieces = .ok ⟨place, some (.directory mode)⟩) :
    ∃ left, ∀ purpose more, more.all (· == "") = false →
      walkWithin tree purpose links here (pieces ++ more) =
        walkWithin tree purpose left place more := by
  have hstep : ∀ (purpose : Purpose) (here : Location) (piece : String)
      (rest more : List String), more.all (· == "") = false →
      step tree purpose here piece (rest ++ more) =
        (step tree .use here piece rest).before more := by
    intro purpose here piece rest more hmore
    rw [step_of_more purpose (by simp [hmore]), step_append (by rintro rfl; simp at hmore)]
  induction links, here, pieces using walk_induction tree .use with
  | done links here =>
      rw [walkWithin_nil] at h
      obtain rfl : here = place := (Spot.mk.inj (Except.ok.inj h)).1
      exact ⟨links, fun _ _ _ => rfl⟩
  | stop links here piece rest result hpiece hwalk =>
      rw [hwalk] at h
      subst h
      obtain rfl := (step_stop hpiece).2.2.2 rfl
      refine ⟨links, fun purpose more hmore => ?_⟩
      rw [List.cons_append, walkWithin_cons, hstep purpose here piece [] more hmore, hpiece]
      rfl
  | go links here piece rest there hpiece hwalk ih =>
      obtain ⟨left, hleft⟩ := ih (isDirectory_go ht hd hpiece) (hwalk ▸ h)
      refine ⟨left, fun purpose more hmore => ?_⟩
      rw [List.cons_append, walkWithin_cons, hstep purpose here piece rest more hmore, hpiece]
      exact hleft purpose more hmore
  | tired here piece rest start pieces hpiece hwalk =>
      rw [hwalk] at h
      cases h
  | follow links here piece rest start pieces hpiece hwalk ih =>
      obtain ⟨left, hleft⟩ := ih (isDirectory_follow ht hd hpiece) (hwalk ▸ h)
      refine ⟨left, fun purpose more hmore => ?_⟩
      rw [List.cons_append, walkWithin_cons, hstep purpose here piece rest more hmore, hpiece]
      exact hleft purpose more hmore

theorem walkWithin_slash (ht : tree.Rooted) (hd : tree.IsDirectory here)
    {place : Location} {entry : Entry}
    (h : walkWithin tree .use links here (pieces ++ [""]) = .ok ⟨place, some entry⟩) :
    ∃ mode, entry = .directory mode ∧
      walkWithin tree .use links here pieces = .ok ⟨place, some (.directory mode)⟩ := by
  obtain ⟨left, site, mode, hfirst, hlast⟩ := walkWithin_append_eq_ok ht hd (by simp) h
  have hentry := entry_of_walkWithin hfirst
  have hblank : walkWithin tree .use left site [""] = .ok ⟨site, tree.get? site⟩ := by
    rw [walkWithin_cons]
    exact walkWithin_nil
  rw [hblank, ← hentry] at hlast
  cases hlast
  exact ⟨mode, rfl, hfirst⟩

/-- The number of links that may be followed matters only if it is too small. -/
theorem walkWithin_links (tree : FileTree) (purpose : Purpose) (links : Nat) (here : Location)
    (pieces : List String) (other : Nat) :
    walkWithin tree purpose other here pieces = walkWithin tree purpose links here pieces ∨
      walkWithin tree purpose other here pieces = .error .tooManyLinks ∨
      walkWithin tree purpose links here pieces = .error .tooManyLinks := by
  induction links, here, pieces using walk_induction tree purpose generalizing other with
  | done links here => exact .inl (by rw [walkWithin_nil, walkWithin_nil])
  | stop links here piece rest result hstep hwalk =>
      exact .inl (by rw [hwalk, walkWithin_cons, hstep, goOn])
  | go links here piece rest there hstep hwalk ih =>
      rw [hwalk, walkWithin_cons, hstep]
      exact ih other
  | tired here piece rest start pieces hstep hwalk => exact .inr (.inr hwalk)
  | follow links here piece rest start pieces hstep hwalk ih =>
      rw [hwalk, walkWithin_cons, hstep]
      cases other with
      | zero => exact .inr (.inl rfl)
      | succ other => exact ih other

/-- No walk gets past a path that leads to a file, however many links it may follow. -/
theorem walkWithin_past_file (ht : tree.Rooted) (hd : tree.IsDirectory here)
    {place : Location} {bytes : ByteArray} {mode other : Nat} {spot : Spot}
    (hfile : walkWithin tree .use links here pieces = .ok ⟨place, some (.file bytes mode)⟩)
    (h : walkWithin tree .use other here (pieces ++ more) = .ok spot) :
    more = [] ∧ spot = ⟨place, some (.file bytes mode)⟩ := by
  have hfew : walkWithin tree .use other here pieces = .ok ⟨place, some (.file bytes mode)⟩ ∨
      walkWithin tree .use other here pieces = .error .tooManyLinks := by
    rcases walkWithin_links tree .use links here pieces other with hsame | hfew | hfew
    · exact .inl (hsame.trans hfile)
    · exact .inr hfew
    · rw [hfile] at hfew
      cases hfew
  by_cases hm : more = []
  · rw [hm, List.append_nil] at h
    rcases hfew with hsame | hfew
    · rw [hsame] at h
      cases h
      exact ⟨hm, rfl⟩
    · rw [hfew] at h
      cases h
  · obtain ⟨left, hleft⟩ := walkWithin_append ht hd other pieces
    rw [hleft more hm] at h
    rcases hfew with hsame | hfew
    · rw [hsame] at h
      simp [afterwards, landing, hm] at h
    · rw [hfew] at h
      cases h

end LocaleTidy.FileTree
