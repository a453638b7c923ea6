import Mathlib.Data.List.Induction
import LocaleTidy.Proofs.FileTree.Joined

/-!
# Paths relative to a directory

A text that is joined to a directory adds its own steps to those of the directory, and taking the
path relative to the directory gives the steps of the text back, whatever the directory is.
-/

namespace LocaleTidy.Path

open Text (split pieces)

variable {directory path parent : Path} {name text : String} {names : List String}

/-! ## Pieces that are steps -/

/-- The pieces of a text that are names or lead upwards. -/
def stepNames (text : String) : List String :=
  (split '/' text).filter fun piece => !isVoid piece

theorem stepOf?_eq_none {piece : String} : stepOf? piece = none ↔ isVoid piece = true := by
  unfold stepOf?
  split
  · simp_all
  · split <;> simp_all

theorem exists_stepOf? {piece : String} (h : isVoid piece = false) :
    ∃ step, stepOf? piece = some step := by
  cases hstep : stepOf? piece with
  | none => simp [stepOf?_eq_none.mp hstep] at h
  | some step => exact ⟨step, rfl⟩

/-- No piece after the first one stands for the root directory or for the current one. -/
theorem ne_of_mem_filterMap_stepOf? {pieces : List String} {step : Component}
    (h : step ∈ pieces.filterMap stepOf?) : step ≠ .root ∧ step ≠ .here := by
  obtain ⟨piece, -, hpiece⟩ := List.mem_filterMap.mp h
  unfold stepOf? at hpiece
  split at hpiece
  · cases hpiece
  · split at hpiece <;> cases hpiece <;> simp

theorem filterMap_dropWhile_isVoid (pieces : List String) :
    (pieces.dropWhile isVoid).filterMap stepOf? = pieces.filterMap stepOf? := by
  induction pieces with
  | nil => rfl
  | cons piece rest ih =>
      cases hvoid : isVoid piece with
      | true => rw [List.dropWhile_cons_of_pos hvoid, ih,
          List.filterMap_cons_none (stepOf?_eq_none.mpr hvoid)]
      | false => rw [List.dropWhile_cons_of_neg (by simp [hvoid])]

theorem filterMap_trimEnd (pieces : List String) :
    (trimEnd pieces).filterMap stepOf? = pieces.filterMap stepOf? := by
  rw [trimEnd, List.filterMap_reverse, filterMap_dropWhile_isVoid, List.filterMap_reverse,
    List.reverse_reverse]

theorem trimEnd_sublist (pieces : List String) : (trimEnd pieces).Sublist pieces := by
  have h := (List.dropWhile_sublist isVoid (l := pieces.reverse)).reverse
  rwa [List.reverse_reverse] at h

theorem filterMap_dropLast_trimEnd (pieces : List String) :
    (trimEnd pieces).dropLast.filterMap stepOf? = (pieces.filterMap stepOf?).dropLast ∧
      (trimEnd pieces ≠ [] → pieces.filterMap stepOf? ≠ []) := by
  rw [← filterMap_trimEnd pieces]
  rcases List.eq_nil_or_concat (trimEnd pieces) with hnil | ⟨front, last, hfront⟩
  · simp [hnil]
  · have hlast : isVoid last = false := by
      have hhead := List.head?_dropWhile_not isVoid pieces.reverse
      rw [← List.getLast?_reverse, ← trimEnd, hfront] at hhead
      simpa using hhead
    obtain ⟨step, hstep⟩ := exists_stepOf? hlast
    rw [hfront, List.concat_eq_append, List.dropLast_concat, List.filterMap_append]
    simp [hstep]

/-! ## Steps of paths -/

theorem firstStep?_of_ne {first : String} (h : first ≠ "") (more : Bool) :
    firstStep? first more = firstStep? first true := by
  simp [firstStep?, h]

theorem components_of_split {first : String} {rest : List String}
    (h : split '/' path.text = first :: rest) :
    path.components = (firstStep? first !rest.isEmpty).toList ++ rest.filterMap stepOf? := by
  rw [components, Path.pieces, h]

/-- The first piece of a path is a step, unless nothing follows an empty one. -/
theorem components_of_ne {first : String} {rest : List String} (hpath : path.text ≠ "")
    (h : split '/' path.text = first :: rest) :
    path.components = (firstStep? first true).toList ++ rest.filterMap stepOf? := by
  rw [components_of_split h]
  by_cases hfirst : first = ""
  · have hrest : rest ≠ [] := by
      rintro rfl
      apply hpath
      rw [← Text.intercalate_split '/' path.text, h, hfirst]
      rfl
    rw [List.isEmpty_eq_false_iff.mpr hrest]
    rfl
  · rw [firstStep?_of_ne hfirst]

theorem exists_split (text : String) : ∃ first rest, split '/' text = first :: rest := by
  cases h : split '/' text with
  | nil => exact (Text.pieces_ne_nil '/' text.toList (by simpa [split] using h)).elim
  | cons first rest => exact ⟨first, rest, rfl⟩

theorem components_join (hd : directory.text ≠ "") (ht : text.startsWith "/" = false) :
    (directory.join text).components =
      directory.components ++ (split '/' text).filterMap stepOf? := by
  obtain ⟨before, hbefore, hjoined, -, hne⟩ := split_join hd ht
  obtain ⟨first, more, rfl⟩ := exists_first_piece hd hbefore
  rw [List.cons_append] at hjoined
  rw [components_of_ne hne hjoined]
  rcases hbefore with hbefore | hbefore
  · rw [components_of_ne hd hbefore, List.filterMap_append, List.append_assoc]
  · rw [List.cons_append] at hbefore
    rw [components_of_ne hd hbefore, List.filterMap_append, List.filterMap_append,
      List.append_assoc]
    simp [stepOf?, isVoid]

theorem components_of_relative (h : text.startsWith "/" = false) :
    (Path.mk text).components = (split '/' text).filterMap stepOf? ∨
      (Path.mk text).components = .here :: (split '/' text).filterMap stepOf? := by
  obtain ⟨first, rest, hsplit⟩ := exists_split text
  rw [components_of_split hsplit, hsplit]
  by_cases hdot : first = "."
  · right
    simp [hdot, firstStep?, stepOf?, isVoid]
  left
  by_cases hempty : first = ""
  · -- nothing follows, or else the text would begin with a slash
    cases rest with
    | nil => simp [hempty, firstStep?, stepOf?, isVoid]
    | cons second more =>
        exfalso
        have htext := Text.intercalate_split '/' text
        rw [hsplit, hempty] at htext
        rw [String.startsWith_string_eq_false_iff] at h
        apply h
        rw [← htext]
        simp [String.toList_intercalate]
  · cases hstep : stepOf? first with
    | none => simp [firstStep?, hdot, hempty, hstep]
    | some step => simp [firstStep?, hdot, hempty, hstep]

/-- The piece that a step is written as, unless it is the first one. -/
def Component.piece? : Component → Option String
  | .root | .here => none
  | .up => some ".."
  | .name text => some text

theorem filterMap_piece?_stepOf? (pieces : List String) :
    (pieces.filterMap stepOf?).filterMap Component.piece? =
      pieces.filter fun piece => !isVoid piece := by
  induction pieces with
  | nil => rfl
  | cons piece rest ih =>
      cases hvoid : isVoid piece with
      | true => simp [List.filterMap_cons_none (stepOf?_eq_none.mpr hvoid), hvoid, ih]
      | false =>
          by_cases hup : piece = ".."
          · subst hup
            simpa [stepOf?, isVoid, Component.piece?] using ih
          · simp [stepOf?, hvoid, hup, Component.piece?, ih]

/-- The names of a path and how often it leads upwards are those of its steps. -/
theorem stepNames_eq (path : Path) :
    stepNames path.text = path.components.filterMap Component.piece? := by
  obtain ⟨first, rest, hsplit⟩ := exists_split path.text
  rw [stepNames, ← filterMap_piece?_stepOf?, components_of_split hsplit, hsplit,
    List.filterMap_append]
  by_cases hempty : first = ""
  · cases rest <;> simp [hempty, firstStep?, stepOf?, isVoid, Component.piece?]
  by_cases hdot : first = "."
  · simp [hdot, firstStep?, stepOf?, isVoid, Component.piece?]
  · rw [firstStep?, if_neg hempty, if_neg hdot, ← List.filterMap_append]
    cases hstep : stepOf? first <;> simp [hstep]

theorem isAbsolute_iff : path.isAbsolute = true ↔ path.components.head? = some .root := by
  constructor
  · intro h
    obtain ⟨tail, htail⟩ := String.startsWith_string_iff.mp h
    have htext : path.text = "" ++ "/" ++ String.ofList tail := String.ext (by simp [← htail])
    obtain ⟨first, rest, hsplit⟩ := exists_split (String.ofList tail)
    rw [components, Path.pieces, htext, split_append_slash_append, hsplit]
    rfl
  · intro h
    by_contra hrelative
    have hrelative : path.text.startsWith "/" = false := by simpa [isAbsolute] using hrelative
    rcases components_of_relative hrelative with hsteps | hsteps
    · exact (ne_of_mem_filterMap_stepOf? (hsteps ▸ List.mem_of_head? h)).1 rfl
    · rw [hsteps] at h
      cases h

/-! ## Parents -/

theorem components_ofPieces {first : String} {rest : List String}
    (h : ∀ piece ∈ first :: rest, '/' ∉ piece.toList) :
    (ofPieces first rest).components =
      (firstStep? first true).toList ++ rest.filterMap stepOf? := by
  unfold ofPieces
  split
  · rename_i hempty
    obtain ⟨rfl, rfl⟩ := hempty
    rfl
  · rename_i hpieces
    have hsplit : split '/' (Path.mk (String.intercalate "/" (first :: rest))).text =
        first :: rest := Text.split_intercalate (by simp) h
    rw [components_of_split hsplit]
    by_cases hfirst : first = ""
    · have hrest : rest ≠ [] := fun hrest => hpieces ⟨hfirst, hrest⟩
      rw [List.isEmpty_eq_false_iff.mpr hrest]
      rfl
    · rw [firstStep?_of_ne hfirst]

theorem components_of_parent? (h : path.parent? = some parent) :
    parent.components = path.components.dropLast := by
  obtain ⟨first, rest, hsplit⟩ := exists_split path.text
  have hsteps := filterMap_trimEnd rest
  rw [parent?, Path.pieces, hsplit] at h
  simp only at h
  cases htrim : trimEnd rest with
  | nil =>
      rw [htrim] at h hsteps
      simp only at h
      split at h
      · cases h
      · rename_i hfirst
        cases h
        rw [components_of_split hsplit, ← hsteps, firstStep?_of_ne hfirst]
        cases firstStep? first true <;> rfl
  | cons piece more =>
      rw [htrim] at h hsteps
      simp only [Option.some.injEq] at h
      subst h
      have hslash : ∀ other ∈ first :: rest, '/' ∉ other.toList := fun other hother =>
        Text.notMem_of_mem_split (hsplit ▸ hother)
      have hpath : path.text ≠ "" := by
        intro htext
        rw [htext] at hsplit
        cases hsplit
        cases htrim
      have hsub : (trimEnd (piece :: more).dropLast).Sublist rest :=
        (trimEnd_sublist _).trans ((List.dropLast_sublist _).trans (htrim ▸ trimEnd_sublist rest))
      obtain ⟨hlast, hne⟩ := filterMap_dropLast_trimEnd rest
      rw [components_ofPieces, components_of_ne hpath hsplit, filterMap_trimEnd, ← htrim, hlast,
        List.dropLast_append_of_ne_nil (hne (by simp [htrim]))]
      · intro other hother
        rcases List.mem_cons.mp hother with rfl | hmem
        · exact hslash _ List.mem_cons_self
        · exact hslash _ (List.mem_cons_of_mem _ (hsub.subset hmem))

theorem isAbsolute_withFileName (h : path.isAbsolute = true) (name : String) :
    (path.withFileName name).isAbsolute = true := by
  unfold withFileName
  split
  · rename_i hname
    apply isAbsolute_join
    cases hparent : path.parent? with
    | none => exact h
    | some parent =>
        rw [isAbsolute_iff] at h
        rw [Option.getD_some, isAbsolute_iff, components_of_parent? hparent]
        rw [fileName?] at hname
        obtain ⟨steps, hsteps⟩ := List.head?_eq_some_iff.mp h
        rw [hsteps] at hname ⊢
        cases steps with
        | nil => cases hname
        | cons step rest => rfl
  · exact isAbsolute_join h name

theorem dropLast_components_of_parent? (h : path.parent? = none) :
    path.components.dropLast = [] := by
  obtain ⟨first, rest, hsplit⟩ := exists_split path.text
  have hsteps := filterMap_trimEnd rest
  rw [parent?, Path.pieces, hsplit] at h
  simp only at h
  cases htrim : trimEnd rest with
  | nil =>
      rw [htrim] at hsteps
      rw [components_of_split hsplit, ← hsteps]
      cases firstStep? first !rest.isEmpty <;> simp
  | cons piece more => simp [htrim] at h

/-! ## Relative paths -/

/-- The text of a path without the pieces at its ends that are no steps. -/
def tidy (text : String) : Path :=
  ⟨String.intercalate "/" (trimEnd ((split '/' text).dropWhile isVoid))⟩

theorem dropSteps_append (front back : List String) :
    dropSteps (front.filterMap stepOf?).length (front ++ back) = back.dropWhile isVoid := by
  induction front with
  | nil => rfl
  | cons piece front ih =>
      cases hvoid : isVoid piece with
      | true =>
          rw [List.filterMap_cons_none (stepOf?_eq_none.mpr hvoid), ← ih, List.cons_append]
          cases (front.filterMap stepOf?).length <;>
            rw [dropSteps, dropSteps, List.dropWhile_cons_of_pos hvoid]
      | false =>
          obtain ⟨step, hstep⟩ := exists_stepOf? hvoid
          rw [List.filterMap_cons_some hstep, List.length_cons, List.cons_append, dropSteps,
            List.dropWhile_cons_of_neg (by simp [hvoid]), List.drop_one, List.tail_cons, ih]

theorem length_components_of_ne {first : String} {rest : List String} (hpath : path.text ≠ "")
    (h : split '/' path.text = first :: rest) :
    path.components.length = (rest.filterMap stepOf?).length + 1 := by
  rw [components_of_ne hpath h, List.length_append, Nat.add_comm]
  congr 1
  unfold firstStep? stepOf? isVoid
  split
  · rfl
  · split
    · rfl
    · rw [if_neg (by simp_all)]
      split <;> rfl

theorem relativeTo?_join (hd : directory.text ≠ "") (ht : text.startsWith "/" = false) :
    (directory.join text).relativeTo? directory = some (tidy text) := by
  obtain ⟨before, hbefore, hjoined, -, hne⟩ := split_join hd ht
  have hstarts : (directory.join text).startsWith directory = true := by
    rw [startsWith, components_join hd ht, List.isPrefixOf_iff_prefix]
    exact List.prefix_append _ _
  obtain ⟨first, more, rfl⟩ := exists_first_piece hd hbefore
  have hlength : directory.components.length = (more.filterMap stepOf?).length + 1 := by
    rcases hbefore with hbefore | hbefore
    · exact length_components_of_ne hd hbefore
    · rw [List.cons_append] at hbefore
      rw [length_components_of_ne hd hbefore, List.filterMap_append]
      simp [stepOf?, isVoid]
  rw [relativeTo?, if_pos hstarts, Path.pieces, hjoined, hlength]
  simp only [List.cons_append, dropSteps_append]
  rfl

/-- Pieces without those at their ends that are no steps still have all the steps. -/
theorem components_intercalate_trimEnd {pieces : List String}
    (h : ∀ piece ∈ pieces, '/' ∉ piece.toList) :
    (Path.mk (String.intercalate "/" (trimEnd (pieces.dropWhile isVoid)))).components =
      pieces.filterMap stepOf? := by
  rw [← filterMap_dropWhile_isVoid, ← filterMap_trimEnd]
  cases htrim : trimEnd (pieces.dropWhile isVoid) with
  | nil => rfl
  | cons first rest =>
      have hslash : ∀ piece ∈ first :: rest, '/' ∉ piece.toList := fun piece hpiece =>
        h piece (((trimEnd_sublist _).trans (List.dropWhile_sublist _)).subset (htrim ▸ hpiece))
      have hfirst : isVoid first = false := by
        -- only void pieces at the end are taken away
        have hhead := List.head?_dropWhile_not isVoid pieces
        obtain ⟨back, hback⟩ : trimEnd (pieces.dropWhile isVoid) <+: pieces.dropWhile isVoid := by
          have h := List.dropWhile_suffix isVoid (l := (pieces.dropWhile isVoid).reverse)
          rwa [← List.reverse_prefix, List.reverse_reverse] at h
        rw [← hback, htrim] at hhead
        simpa using hhead
      have hne : first ≠ "" ∧ first ≠ "." := by simpa [isVoid] using hfirst
      have hsplit : split '/' (Path.mk (String.intercalate "/" (first :: rest))).text =
          first :: rest := Text.split_intercalate (by simp) hslash
      rw [components_of_split hsplit]
      cases hstep : stepOf? first with
      | none => cases (stepOf?_eq_none.mp hstep).symm.trans hfirst
      | some step => simp [firstStep?, hne.1, hne.2, hstep]

theorem components_tidy (text : String) :
    (tidy text).components = (split '/' text).filterMap stepOf? :=
  components_intercalate_trimEnd fun _ => Text.notMem_of_mem_split

/-- What is left of some pieces are the last ones of them, and these have the last steps. -/
theorem exists_suffix_dropSteps (count : Nat) (pieces : List String) :
    ∃ back, back <:+ pieces ∧ dropSteps count pieces = back.dropWhile isVoid ∧
      back.filterMap stepOf? = (pieces.filterMap stepOf?).drop count := by
  induction count generalizing pieces with
  | zero => exact ⟨pieces, List.suffix_refl _, rfl, rfl⟩
  | succ count ih =>
      obtain ⟨back, hback, hdrop, hsteps⟩ := ih ((pieces.dropWhile isVoid).drop 1)
      refine ⟨back, hback.trans ((List.drop_suffix ..).trans (List.dropWhile_suffix _)), hdrop, ?_⟩
      have hhead := List.head?_dropWhile_not isVoid pieces
      rw [hsteps, ← filterMap_dropWhile_isVoid pieces]
      cases hpieces : pieces.dropWhile isVoid with
      | nil => simp
      | cons first rest =>
          have hfirst : isVoid first = false := by simpa [hpieces] using hhead
          obtain ⟨step, hstep⟩ := exists_stepOf? hfirst
          rw [List.filterMap_cons_some hstep]
          rfl

/-- Relative to a directory that it begins with, a path has the steps that follow. -/
theorem exists_relativeTo? {base : Path} (h : base.components <+: path.components) :
    ∃ relative, path.relativeTo? base = some relative ∧
      relative.components = path.components.drop base.components.length := by
  obtain ⟨first, rest, hsplit⟩ := exists_split path.text
  have hslash : ∀ piece ∈ first :: rest, '/' ∉ piece.toList := fun piece hpiece =>
    Text.notMem_of_mem_split (hsplit ▸ hpiece)
  rw [relativeTo?, if_pos (by rwa [startsWith, List.isPrefixOf_iff_prefix]), Path.pieces, hsplit]
  cases hlength : base.components.length with
  | zero =>
      refine ⟨_, rfl, ?_⟩
      rw [List.drop_zero]
      split
      · rfl
      · rename_i hne
        rw [components_ofPieces, filterMap_trimEnd, components_of_ne (by simpa using hne) hsplit]
        intro piece hpiece
        rcases List.mem_cons.mp hpiece with rfl | hmem
        · exact hslash _ List.mem_cons_self
        · exact hslash _ (List.mem_cons_of_mem _ ((trimEnd_sublist _).subset hmem))
  | succ count =>
      obtain ⟨back, hback, hdrop, hsteps⟩ := exists_suffix_dropSteps count rest
      have hpath : path.text ≠ "" := by
        intro hempty
        obtain rfl : path = ⟨""⟩ := by cases path; simp_all
        have hnil : base.components.length ≤ (Path.mk "").components.length := h.length_le
        rw [hlength] at hnil
        cases hnil
      refine ⟨_, rfl, ?_⟩
      rw [hdrop, components_intercalate_trimEnd, hsteps, components_of_ne hpath hsplit]
      · cases hfirst : firstStep? first true with
        | some step => rfl
        | none =>
            have hone := length_components_of_ne hpath hsplit
            simp [components_of_ne hpath hsplit, hfirst] at hone
      · exact fun piece hpiece => hslash _ (List.mem_cons_of_mem _ (hback.subset hpiece))

/-! ## Texts that lead downwards -/

/-- A text that neither begins at the root directory nor leads upwards. -/
structure IsInner (text : String) : Prop where
  relative : text.startsWith "/" = false
  noUp : ".." ∉ split '/' text

instance (text : String) : Decidable (IsInner text) :=
  decidable_of_iff (text.startsWith "/" = false ∧ ".." ∉ split '/' text)
    ⟨fun h => ⟨h.1, h.2⟩, fun h => ⟨h.relative, h.noUp⟩⟩

def below (text : String) (names : List String) : String :=
  (names.foldl join ⟨text⟩).text

theorem IsInner.filterMap_stepOf? (h : IsInner text) :
    (split '/' text).filterMap stepOf? = (stepNames text).map Component.name := by
  have hnoUp := h.noUp
  rw [stepNames]
  generalize split '/' text = pieces at hnoUp ⊢
  induction pieces with
  | nil => rfl
  | cons piece pieces ih =>
      rw [List.mem_cons, not_or] at hnoUp
      cases hvoid : isVoid piece with
      | true => simp [stepOf?, hvoid, ih hnoUp.2]
      | false => simp [stepOf?, hvoid, Ne.symm hnoUp.1, ih hnoUp.2]

theorem IsInner.components_join (h : IsInner text) (hd : directory.text ≠ "") :
    (directory.join text).components =
      directory.components ++ (stepNames text).map Component.name := by
  rw [Path.components_join hd h.relative, h.filterMap_stepOf?]

theorem IsInner.components_tidy (h : IsInner text) :
    (tidy text).components = (stepNames text).map Component.name := by
  rw [Path.components_tidy, h.filterMap_stepOf?]

theorem stepNames_name (hn : FileTree.IsName name) : stepNames name = [name] := by
  rw [stepNames, split_name hn]
  simp [isVoid, hn.nonempty, hn.ne_here]

theorem components_foldl_join (hd : directory.text ≠ "")
    (hn : ∀ name ∈ names, FileTree.IsName name) :
    (names.foldl join directory).components = directory.components ++ names.map .name := by
  induction names generalizing directory with
  | nil => simp
  | cons name names ih =>
      have hname := hn name List.mem_cons_self
      obtain ⟨-, -, -, -, hne, -⟩ := join_name hd hname
      rw [List.foldl_cons, ih hne fun other hother => hn other (List.mem_cons_of_mem _ hother),
        components_join hd (startsWith_slash_name hname), split_name hname]
      simp [stepOf?, isVoid, hname.nonempty, hname.ne_here, hname.ne_up]

/-- A path of names alone: a relative one that neither begins with a dot nor leads upwards. -/
def OnlyNames (path : Path) : Prop :=
  ∀ step ∈ path.components, ∃ name, step = .name name

instance (path : Path) : Decidable path.OnlyNames :=
  decidable_of_iff (∀ step ∈ path.components, step.piece?.isSome ∧ step ≠ .up) <| by
    refine forall₂_congr fun step _ => ?_
    cases step <;> simp [Component.piece?]

/-- Names that are joined to a path are its last steps, also if the path is empty. -/
theorem OnlyNames.components_join (h : (Path.mk text).OnlyNames) :
    (directory.join text).components = directory.components ++ (Path.mk text).components := by
  have hrelative : text.startsWith "/" = false := by
    rw [← Bool.not_eq_true]
    intro habsolute
    obtain ⟨name, hname⟩ := h _ (List.mem_of_head? (isAbsolute_iff.mp habsolute))
    cases hname
  by_cases hd : directory.text = ""
  · obtain rfl : directory = ⟨""⟩ := by cases directory; simp_all
    have hjoin : (Path.mk "").join text = ⟨text⟩ := by simp [join, hrelative]
    rw [hjoin]
    rfl
  · rw [Path.components_join hd hrelative]
    rcases components_of_relative hrelative with hsteps | hsteps
    · rw [hsteps]
    · obtain ⟨name, hname⟩ := h .here (by simp [hsteps])
      cases hname

theorem endsWith_slash_append (front : String) (h : text ≠ "") :
    (front ++ text).endsWith "/" = text.endsWith "/" := by
  have hlast : (front.toList ++ text.toList).getLast? = text.toList.getLast? := by
    rw [List.getLast?_append, List.getLast?_eq_some_getLast (by simpa using h), Option.some_or]
  rw [Bool.eq_iff_iff, endsWith_slash_iff, endsWith_slash_iff, String.toList_append,
    List.singleton_suffix_iff_getLast?_eq_some, List.singleton_suffix_iff_getLast?_eq_some, hlast]

theorem exists_join_eq (hd : directory.text ≠ "") :
    ∃ front, (front = directory.text ∨ front = directory.text ++ "/") ∧
      front.endsWith "/" = true ∧
      ∀ text : String, text.startsWith "/" = false → directory.join text = ⟨front ++ text⟩ := by
  cases hslash : directory.text.endsWith "/" with
  | true => exact ⟨directory.text, .inl rfl, hslash, fun text ht => by simp [join, ht, hslash]⟩
  | false =>
      refine ⟨directory.text ++ "/", .inr rfl, ?_, fun text ht => by simp [join, ht, hd, hslash]⟩
      rw [endsWith_slash_append _ (by decide), endsWith_slash_iff]
      exact List.suffix_refl _

theorem mem_join (hd : directory.text ≠ "") (ht : text.startsWith "/" = false) {c : Char}
    (hc : c ≠ '/') :
    c ∈ (directory.join text).text.toList ↔ c ∈ directory.text.toList ∨ c ∈ text.toList := by
  obtain ⟨front, hfront, -, hjoin⟩ := exists_join_eq hd
  rw [hjoin text ht]
  rcases hfront with rfl | rfl <;> simp [hc]

/-- The characters of a text, but for slashes and dots, are those of its steps. -/
theorem mem_toList_iff_stepNames {c : Char} (hslash : c ≠ '/') (hdot : c ≠ '.') :
    c ∈ text.toList ↔ ∃ piece ∈ stepNames text, c ∈ piece.toList := by
  rw [Text.mem_iff_exists_split hslash, stepNames]
  constructor
  · intro h
    obtain ⟨piece, hpiece, hmem⟩ := h
    refine ⟨piece, List.mem_filter.mpr ⟨hpiece, ?_⟩, hmem⟩
    cases hvoid : isVoid piece with
    | false => rfl
    | true =>
        rcases (show piece = "" ∨ piece = "." by simpa [isVoid] using hvoid) with rfl | rfl
        · cases hmem
        · simp [hdot] at hmem
  · intro h
    obtain ⟨piece, hpiece, hmem⟩ := h
    exact ⟨piece, (List.mem_filter.mp hpiece).1, hmem⟩

/-- A name that is joined to a text is joined at its end, to whatever the text is joined. -/
theorem join_join_name (hd : directory.text ≠ "") (ht : text.startsWith "/" = false)
    (hn : FileTree.IsName name) :
    (directory.join text).join name = directory.join ((Path.mk text).join name).text := by
  have hname := startsWith_slash_name hn
  obtain ⟨front, -, hfront, hjoin⟩ := exists_join_eq hd
  rw [hjoin text ht]
  by_cases hempty : text = ""
  · subst hempty
    have hempty : (Path.mk "").join name = ⟨name⟩ := by simp [join, hname]
    rw [hempty, hjoin name hname]
    simp [join, hname, hfront]
  · cases hslash : text.endsWith "/" with
    | true =>
        rw [hjoin]
        · simp [join, hname, endsWith_slash_append _ hempty, hslash, String.append_assoc]
        · simp [join, hname, hslash, startsWith_slash_append hempty, ht]
    | false =>
        rw [hjoin]
        · simp [join, hname, endsWith_slash_append _ hempty, hslash, hempty, String.append_assoc]
        · simp [join, hname, hslash, hempty, String.append_assoc,
            startsWith_slash_append hempty, ht]

def EndsInStep (text : String) : Prop :=
  ∃ last, (split '/' text).getLast? = some last ∧ isVoid last = false

theorem IsInner.join_name (h : IsInner text) (hn : FileTree.IsName name) :
    IsInner ((Path.mk text).join name).text ∧
      stepNames ((Path.mk text).join name).text = stepNames text ++ [name] ∧
      EndsInStep ((Path.mk text).join name).text := by
  have hvoid : isVoid name = false := by simp [isVoid, hn.nonempty, hn.ne_here]
  by_cases hempty : text = ""
  · subst hempty
    have hempty : (Path.mk "").join name = ⟨name⟩ := by simp [join, startsWith_slash_name hn]
    rw [hempty]
    exact ⟨⟨startsWith_slash_name hn, by simp [split_name hn, hn.ne_up.symm]⟩, stepNames_name hn,
      name, by simp [split_name hn], hvoid⟩
  · obtain ⟨before, hbefore, hjoined, habsolute, -⟩ :=
      Path.join_name (show (Path.mk text).text ≠ "" from hempty) hn
    have hsteps : ".." ∉ before ∧
        stepNames text = before.filter fun piece => !isVoid piece := by
      have hnoUp := h.noUp
      rw [stepNames]
      rcases hbefore with hbefore | hbefore <;> simp only at hbefore <;> rw [hbefore] at hnoUp ⊢
      · exact ⟨hnoUp, rfl⟩
      · exact ⟨fun hmem => hnoUp (List.mem_append_left _ hmem), by simp [isVoid]⟩
    refine ⟨⟨habsolute.trans h.relative, ?_⟩, ?_, name, by simp [hjoined], hvoid⟩
    · rw [hjoined]
      simpa [hn.ne_up.symm] using hsteps.1
    · rw [stepNames, hjoined, List.filter_append, hsteps.2]
      simp [hvoid]

theorem below_concat (text : String) (names : List String) (name : String) :
    below text (names ++ [name]) = ((Path.mk (below text names)).join name).text := by
  rw [below, List.foldl_append]
  rfl

/-- Names that are joined to a text are its last steps. -/
theorem IsInner.below (h : IsInner text) (hn : ∀ name ∈ names, FileTree.IsName name) :
    IsInner (below text names) ∧ stepNames (below text names) = stepNames text ++ names ∧
      (names ≠ [] → EndsInStep (below text names)) := by
  induction names using List.reverseRecOn with
  | nil => exact ⟨h, by simp [Path.below], by simp⟩
  | append_singleton names name ih =>
      obtain ⟨hinner, hsteps, -⟩ := ih fun other hother => hn other (List.mem_append_left _ hother)
      rw [below_concat]
      obtain ⟨hone, hname, hend⟩ := hinner.join_name (hn name (by simp))
      exact ⟨hone, by rw [hname, hsteps, List.append_assoc], fun _ => hend⟩

theorem foldl_join_join (hd : directory.text ≠ "") (ht : IsInner text)
    (hn : ∀ name ∈ names, FileTree.IsName name) :
    names.foldl join (directory.join text) = directory.join (Path.below text names) := by
  induction names using List.reverseRecOn with
  | nil => rfl
  | append_singleton names name ih =>
      have hfront : ∀ other ∈ names, FileTree.IsName other :=
        fun other hother => hn other (List.mem_append_left _ hother)
      rw [List.foldl_append, List.foldl_cons, List.foldl_nil, ih hfront, below_concat,
        join_join_name hd (ht.below hfront).1.relative (hn name (by simp))]

end LocaleTidy.Path
