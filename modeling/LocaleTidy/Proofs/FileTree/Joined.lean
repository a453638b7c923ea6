import LocaleTidy.Proofs.FileTree.Longer
import LocaleTidy.Proofs.Text.Pieces

/-!
# Paths below a directory

The pieces of a path with names joined to it are the pieces of the path and the names. Below a
directory such names are looked up one after the other, and no link is met.
-/

namespace LocaleTidy

open Text (split pieces)

namespace Path

variable {directory path : Path} {name : String} {names : List String}

theorem split_append_slash (text : String) :
    split '/' (text ++ "/") = split '/' text ++ [""] := by
  rw [split, split, String.toList_append, show "/".toList = '/' :: [] from rfl,
    Text.pieces_append, List.map_append]
  rfl

theorem split_append_slash_append (text other : String) :
    split '/' (text ++ "/" ++ other) = split '/' text ++ split '/' other := by
  rw [split, split, split, String.toList_append, String.toList_append,
    show "/".toList = '/' :: [] from rfl, List.append_assoc, List.cons_append, List.nil_append,
    Text.pieces_append, List.map_append]

theorem startsWith_slash_append {text : String} (h : text ≠ "") (tail : String) :
    (text ++ tail).startsWith "/" = text.startsWith "/" := by
  rw [Bool.eq_iff_iff, String.startsWith_string_iff, String.startsWith_string_iff,
    String.toList_append, show "/".toList = ['/'] from rfl]
  have hne : text.toList ≠ [] := by simpa using h
  cases htext : text.toList with
  | nil => exact (hne htext).elim
  | cons c rest => simp [List.cons_prefix_cons]

theorem endsWith_slash_iff {text : String} :
    text.endsWith "/" = true ↔ ['/'] <:+ text.toList := by
  rw [String.endsWith, String.Slice.endsWith_string_iff, String.copy_toSlice]
  rfl

theorem exists_of_endsWith_slash {text : String} (h : text.endsWith "/" = true) :
    ∃ front, text = front ++ "/" := by
  obtain ⟨front, hfront⟩ := endsWith_slash_iff.mp h
  exact ⟨String.ofList front, String.ext (by simp [← hfront])⟩

/-- What is joined to a path: the pieces of the path come first, but for an empty one that a
slash at its end leaves. -/
theorem split_join {text : String} (hd : directory.text ≠ "")
    (ht : text.startsWith "/" = false) :
    ∃ before, (split '/' directory.text = before ∨ split '/' directory.text = before ++ [""]) ∧
      split '/' (directory.join text).text = before ++ split '/' text ∧
      (directory.join text).isAbsolute = directory.isAbsolute ∧
      (directory.join text).text ≠ "" := by
  cases hslash : directory.text.endsWith "/" with
  | false =>
      have hjoin : directory.join text = ⟨directory.text ++ "/" ++ text⟩ := by
        simp [join, ht, hd, hslash]
      refine ⟨split '/' directory.text, .inl rfl, ?_, ?_, ?_⟩
      · rw [hjoin, split_append_slash_append]
      · rw [hjoin, isAbsolute, isAbsolute, String.append_assoc, startsWith_slash_append hd]
      · rw [hjoin]
        simp
  | true =>
      have hjoin : directory.join text = ⟨directory.text ++ text⟩ := by
        simp [join, ht, hslash]
      obtain ⟨front, hfront⟩ := exists_of_endsWith_slash hslash
      refine ⟨split '/' front, .inr ?_, ?_, ?_, ?_⟩
      · rw [hfront, split_append_slash]
      · rw [hjoin, hfront, split_append_slash_append]
      · rw [hjoin, isAbsolute, isAbsolute, startsWith_slash_append hd]
      · rw [hjoin]
        simp [hd]

/-- A path that is not empty has a piece that is not the one which a slash at its end leaves. -/
theorem exists_first_piece {before : List String} (hd : directory.text ≠ "")
    (h : split '/' directory.text = before ∨ split '/' directory.text = before ++ [""]) :
    ∃ first more, before = first :: more := by
  cases before with
  | cons first more => exact ⟨first, more, rfl⟩
  | nil =>
      exfalso
      apply hd
      rw [← Text.intercalate_split '/' directory.text]
      rcases h with h | h <;> rw [h] <;> rfl

theorem startsWith_slash_name (hn : FileTree.IsName name) : name.startsWith "/" = false := by
  rw [String.startsWith_string_eq_false_iff]
  intro hpre
  exact hn.noSlash (hpre.subset (by simp))

theorem split_name (hn : FileTree.IsName name) : split '/' name = [name] := by
  simp [split, Text.pieces_eq_singleton hn.noSlash]

/-- What is joined to a path: the text of the path is the beginning of the new one, and a slash
divides them. -/
theorem join_name (hd : directory.text ≠ "") (hn : FileTree.IsName name) :
    ∃ before, (split '/' directory.text = before ∨ split '/' directory.text = before ++ [""]) ∧
      split '/' (directory.join name).text = before ++ [name] ∧
      (directory.join name).isAbsolute = directory.isAbsolute ∧
      (directory.join name).text ≠ "" ∧ (directory.join name).text.endsWith "/" = false := by
  obtain ⟨before, hbefore, hjoined, habsolute, hne⟩ := split_join hd (startsWith_slash_name hn)
  rw [split_name hn] at hjoined
  refine ⟨before, hbefore, hjoined, habsolute, hne, ?_⟩
  rw [← Bool.not_eq_true]
  intro hslash
  obtain ⟨front, hfront⟩ := exists_of_endsWith_slash hslash
  rw [hfront, split_append_slash] at hjoined
  exact hn.nonempty (by simpa using (congrArg List.getLast? hjoined).symm)

/-! ### Absolute directories -/

theorem ne_of_isAbsolute (h : directory.isAbsolute = true) : directory.text ≠ "" := by
  intro hempty
  simp [isAbsolute, hempty] at h

theorem isAbsolute_join (h : directory.isAbsolute = true) (text : String) :
    (directory.join text).isAbsolute = true := by
  cases htext : text.startsWith "/" with
  | true => rw [join, if_pos htext, isAbsolute, htext]
  | false =>
      obtain ⟨before, -, -, hsame, -⟩ := split_join (ne_of_isAbsolute h) htext
      exact hsame.trans h

theorem isAbsolute_foldl_join (h : directory.isAbsolute = true) (names : List String) :
    (names.foldl join directory).isAbsolute = true := by
  induction names generalizing directory with
  | nil => exact h
  | cons name rest ih => exact ih (isAbsolute_join h name)

theorem isAbsolute_append (h : path.isAbsolute = true) (text : String) :
    (Path.mk (path.text ++ text)).isAbsolute = true := by
  rw [isAbsolute, startsWith_slash_append (ne_of_isAbsolute h)]
  exact h

/-! ### Parents -/

theorem trimEnd_append_name (before : List String) (hn : FileTree.IsName name) :
    trimEnd (before ++ [name]) = before ++ [name] := by
  simp [trimEnd, isVoid, hn.nonempty, hn.ne_here]

theorem trimEnd_append_empty (before : List String) :
    trimEnd (before ++ [""]) = trimEnd before := by
  simp [trimEnd, isVoid]

theorem trimEnd_of_isName (hn : ∀ name ∈ names, FileTree.IsName name) : trimEnd names = names := by
  rcases List.eq_nil_or_concat names with rfl | ⟨front, last, rfl⟩
  · rfl
  · rw [List.concat_eq_append] at hn ⊢
    exact trimEnd_append_name front (hn last (by simp))

theorem parent?_of_split {first : String} {more : List String}
    (h : split '/' path.text = first :: more ++ [name]) (hn : FileTree.IsName name) :
    path.parent? = some (ofPieces first (trimEnd more)) := by
  rw [parent?, Path.pieces, h]
  simp only [List.cons_append, trimEnd_append_name more hn]
  cases hfront : more ++ [name] with
  | nil => simp at hfront
  | cons last others => simp only [← hfront, List.dropLast_concat]

/-- The parent of a name below a directory is that directory, without what is void at its end. -/
theorem parent?_join_name (hd : directory.text ≠ "") (hn : FileTree.IsName name) {first : String}
    {rest : List String} (hsplit : split '/' directory.text = first :: rest) :
    (directory.join name).parent? = some (ofPieces first (trimEnd rest)) := by
  obtain ⟨before, hbefore, hjoined, -, -⟩ := join_name hd hn
  obtain ⟨other, more, rfl⟩ := exists_first_piece hd hbefore
  rw [parent?_of_split hjoined hn]
  rcases hbefore with hbefore | hbefore
  · rw [hsplit, List.cons.injEq] at hbefore
    rw [hbefore.1, hbefore.2]
  · rw [hsplit, List.cons_append, List.cons.injEq] at hbefore
    rw [hbefore.1, hbefore.2, trimEnd_append_empty]

theorem split_foldl_join (hd : directory.text ≠ "")
    (hn : ∀ name ∈ names, FileTree.IsName name) (hne : names ≠ []) :
    ∃ before, (split '/' directory.text = before ∨ split '/' directory.text = before ++ [""]) ∧
      split '/' (names.foldl join directory).text = before ++ names ∧
      (names.foldl join directory).isAbsolute = directory.isAbsolute := by
  induction names generalizing directory with
  | nil => exact (hne rfl).elim
  | cons name names ih =>
      obtain ⟨before, hbefore, hjoined, habsolute, hfull, hend⟩ :=
        join_name hd (hn name (by simp))
      by_cases hnames : names = []
      · subst hnames
        exact ⟨before, hbefore, hjoined, habsolute⟩
      · obtain ⟨front, hfront, hall, hsame⟩ :=
          ih hfull (fun other ho => hn other (by simp [ho])) hnames
        have heq : front = before ++ [name] := by
          rcases hfront with hfront | hfront
          · rw [← hfront, hjoined]
          · have hlast := congrArg List.getLast? (hjoined.symm.trans hfront)
            simp at hlast
            exact ((hn name (by simp)).nonempty hlast).elim
        refine ⟨before, hbefore, ?_, ?_⟩
        · rw [List.foldl_cons, hall, heq, List.append_assoc, List.cons_append, List.nil_append]
        · rw [List.foldl_cons, hsame, habsolute]

end Path

namespace FileTree

variable {tree other : FileTree} {here : Location} {names : List String}

/-! ### The current directory -/

theorem currentPath_ne (tree : FileTree) : tree.currentPath.text ≠ "" := by
  simp [currentPath]

theorem isAbsolute_currentPath (tree : FileTree) : tree.currentPath.isAbsolute = true := by
  simp [currentPath, Path.isAbsolute, String.startsWith_string_iff]

theorem currentPath_eq_ofPieces (tree : FileTree) :
    tree.currentPath = Path.ofPieces "" tree.current := by
  unfold currentPath Path.ofPieces
  cases tree.current with
  | nil => rfl
  | cons first rest => simp [String.intercalate_cons_cons]

theorem exists_split_currentPath (hc : ∀ step ∈ tree.current, IsName step) :
    ∃ rest, split '/' tree.currentPath.text = "" :: rest ∧ Path.trimEnd rest = tree.current := by
  cases hcurrent : tree.current with
  | nil =>
      refine ⟨[""], ?_, rfl⟩
      simp only [currentPath, hcurrent]
      rfl
  | cons first rest =>
      have htext : tree.currentPath.text = String.intercalate "/" ("" :: tree.current) := by
        simp [currentPath, hcurrent, String.intercalate_cons_cons]
      refine ⟨tree.current, ?_, by rw [Path.trimEnd_of_isName hc, hcurrent]⟩
      rw [htext]
      refine Text.split_intercalate (by simp) fun piece hpiece => ?_
      rcases List.mem_cons.mp hpiece with rfl | hmem
      · simp
      · exact (hc piece hmem).noSlash

/-- The parent of a name in the current directory is the current directory, as it is written. -/
theorem parent?_join_currentPath (hc : ∀ step ∈ tree.current, IsName step) {name : String}
    (hn : IsName name) : (tree.currentPath.join name).parent? = some tree.currentPath := by
  obtain ⟨rest, hsplit, htrim⟩ := exists_split_currentPath hc
  rw [Path.parent?_join_name tree.currentPath_ne hn hsplit, htrim, currentPath_eq_ofPieces]

theorem WellFormed.isName_current (ht : tree.WellFormed) : ∀ step ∈ tree.current, IsName step := by
  intro step hstep
  obtain ⟨mode, hmode⟩ := ht.current
  unfold get? at hmode
  split at hmode
  · rename_i entry hlookup
    obtain ⟨front, back, hentries, -⟩ := List.lookup_eq_some_iff.mp hlookup
    exact ht.names (tree.current, entry) (by simp [hentries]) step hstep
  · split at hmode
    · rename_i hroot
      rw [hroot] at hstep
      cases hstep
    · cases hmode

/-! ### Names below a directory -/

theorem Rooted.isDirectory_above (ht : tree.Rooted) (h : (tree.get? (here ++ names)).isSome)
    (hne : names ≠ []) : tree.IsDirectory here := by
  induction names generalizing here with
  | nil => exact (hne rfl).elim
  | cons name names ih =>
      have hsome : (tree.get? (here ++ [name])).isSome := by
        by_cases hnames : names = []
        · rwa [hnames] at h
        · have hbelow : (tree.get? (here ++ [name] ++ names)).isSome := by simpa using h
          obtain ⟨mode, hmode⟩ := ih hbelow hnames
          simp [hmode]
      have hparent := ht.parents _ hsome
      rwa [List.dropLast_concat] at hparent

theorem withoutLook?_name {opened : Bool} {purpose : Purpose} {name : String}
    {rest : List String} {found : Step} (hn : IsName name)
    (h : withoutLook? opened purpose here name rest = some found) :
    ∃ error, found = .stop (.error error) := by
  revert h
  unfold withoutLook?
  rw [if_neg (by simpa using hn.nonempty), if_neg hn.ne_here, if_neg hn.ne_up]
  repeat' split
  all_goals (intro h; cases h <;> simp)

/-- Names that lead down to a file are walked alike in two trees that have the same directories
and the same file, however many links may be followed. -/
theorem walkWithin_names (ht : tree.Rooted) (links fewer : Nat) {bytes : ByteArray} {mode : Nat}
    (hn : ∀ name ∈ names, IsName name) (hne : names ≠ [])
    (hfile : tree.get? (here ++ names) = some (.file bytes mode))
    (hsame : ∀ location, tree.IsDirectory location → other.get? location = tree.get? location)
    (hend : other.get? (here ++ names) = tree.get? (here ++ names)) :
    walkWithin other .use fewer here names = walkWithin tree .use links here names := by
  induction names generalizing here with
  | nil => exact (hne rfl).elim
  | cons name names ih =>
      have hhere := hsame here (ht.isDirectory_above (by simp [hfile]) hne)
      have hpermits : other.permits .enter here = tree.permits .enter here := by
        rw [permits, permits, hhere]
      rw [walkWithin_cons, walkWithin_cons, step, step, hpermits]
      cases hlook : withoutLook? (tree.permits .enter here) .use here name names with
      | some found =>
          obtain ⟨error, rfl⟩ := withoutLook?_name (hn name (by simp)) hlook
          rfl
      | none =>
          rw [Option.getD_none, Option.getD_none]
          by_cases hnames : names = []
          · subst hnames
            rw [hend, hfile]
            rfl
          · have hbelow : here ++ [name] ++ names = here ++ name :: names := by simp
            have hdirectory : tree.IsDirectory (here ++ [name]) :=
              ht.isDirectory_above (by rw [hbelow, hfile]; rfl) hnames
            rcases hdirectory with ⟨mode, hmode⟩
            rw [hsame _ ⟨mode, hmode⟩, hmode, stepTo, if_neg (by simpa using hnames)]
            exact ih (fun other ho => hn other (by simp [ho])) hnames (by rw [hbelow, hfile])
              (by rw [hbelow, hend])

end FileTree

end LocaleTidy
