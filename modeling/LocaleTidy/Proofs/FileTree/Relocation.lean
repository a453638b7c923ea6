import LocaleTidy.Proofs.FileTree.Listing
import LocaleTidy.Proofs.FileTree.Spelling

/-!
# Directories with the same contents

Below two directories that hold the same files and directories, and no links, walks that lead
downwards go the same ways. What stands above the directories does not show.
-/

namespace LocaleTidy

open Text (split)
open LocaleTidy.Path (IsInner EndsInStep stepNames isVoid below tidy)

namespace FileTree

/-- The second tree holds below one place what the first one holds below another, and there are
no links. -/
structure SameBelow (tree other : FileTree) (here there : Location) : Prop where
  same : ∀ names, other.get? (there ++ names) = tree.get? (here ++ names)
  noLink : ∀ names target, tree.get? (here ++ names) ≠ some (.link target)

variable {tree other : FileTree} {here there place : Location} {names pieces : List String}
  {purpose goal : Purpose} {root copy : Path} {text : String} {entry : Entry}

theorem SameBelow.symm (h : SameBelow tree other here there) :
    SameBelow other tree there here where
  same names := (h.same names).symm
  noLink names target := by
    rw [h.same]
    exact h.noLink names target

theorem SameBelow.refl_of (h : SameBelow tree other here there) :
    SameBelow tree tree here here :=
  ⟨fun _ => rfl, h.noLink⟩

theorem SameBelow.deeper (h : SameBelow tree other here there) (steps : List String) :
    SameBelow tree other (here ++ steps) (there ++ steps) where
  same names := by rw [List.append_assoc, h.same, List.append_assoc]
  noLink names target := by
    rw [List.append_assoc]
    exact h.noLink _ target

theorem SameBelow.permits (h : SameBelow tree other here there) (right : Right)
    (names : List String) :
    other.permits right (there ++ names) = tree.permits right (here ++ names) := by
  rw [FileTree.permits, FileTree.permits, h.same]

/-! ### Walks -/

/-- Two walks that fail alike, or end at the same names below two places. -/
def EndAlike (tree : FileTree) (here there : Location) (names : List String) :
    Except FileError Spot → Except FileError Spot → Prop
  | .error error, .error fault => error = fault
  | .ok spot, .ok twin =>
      spot = ⟨here ++ names, tree.get? (here ++ names)⟩ ∧
        twin = ⟨there ++ names, tree.get? (here ++ names)⟩
  | _, _ => False

/-- A step that does not lead upwards fails alike in both trees, stays in both, or looks up the
same entry. -/
theorem SameBelow.step_cases (h : SameBelow tree other here there) (names : List String)
    (hpurpose : purpose ≠ .write) (hgoal : goal ≠ .write) {piece : String} (hup : piece ≠ "..")
    (rest : List String) :
    (∃ error, step tree purpose (here ++ names) piece rest = .stop (.error error) ∧
        step other goal (there ++ names) piece rest = .stop (.error error)) ∨
      (isVoid piece = true ∧ step tree purpose (here ++ names) piece rest = .go (here ++ names) ∧
        step other goal (there ++ names) piece rest = .go (there ++ names)) ∨
      (isVoid piece = false ∧
        step tree purpose (here ++ names) piece rest =
          stepTo purpose (here ++ names) (here ++ (names ++ [piece])) rest
            (tree.get? (here ++ (names ++ [piece]))) ∧
        step other goal (there ++ names) piece rest =
          stepTo goal (there ++ names) (there ++ (names ++ [piece])) rest
            (tree.get? (here ++ (names ++ [piece])))) := by
  rw [step, step, withoutLook?, withoutLook?, h.permits]
  by_cases hempty : piece = ""
  · exact .inr (.inl (by simp [hempty, isVoid]))
  by_cases hopened : tree.permits .enter (here ++ names) = true
  swap
  · exact .inl ⟨.denied, by simp [hempty, hopened]⟩
  by_cases hdot : piece = "."
  · exact .inr (.inl (by simp [hdot, hopened, isVoid]))
  by_cases hlong : maxNameBytes < piece.utf8ByteSize
  · exact .inl ⟨.nameTooLong, by simp [hempty, hopened, hdot, hup, hlong, hpurpose, hgoal]⟩
  · exact .inr (.inr ⟨by simp [isVoid, hempty, hdot],
      by simp [hempty, hopened, hdot, hup, hlong, hpurpose, hgoal, h.same]⟩)

/-- A walk that leads downwards comes to what its pieces name, in both trees. -/
theorem SameBelow.endAlike (h : SameBelow tree other here there) (names : List String)
    (links more : Nat) (hpurpose : purpose ≠ .write) (hgoal : goal ≠ .write)
    (hup : ".." ∉ pieces) :
    EndAlike tree here there (names ++ pieces.filter fun piece => !isVoid piece)
      (walkWithin tree purpose links (here ++ names) pieces)
      (walkWithin other goal more (there ++ names) pieces) := by
  induction pieces generalizing names with
  | nil =>
      rw [walkWithin_nil, walkWithin_nil, h.same]
      simp [EndAlike]
  | cons piece rest ih =>
      rw [List.mem_cons, not_or] at hup
      have ih := fun names => ih names hup.2
      rw [walkWithin_cons, walkWithin_cons]
      rcases h.step_cases names hpurpose hgoal (Ne.symm hup.1) rest with
        ⟨error, hstep, hother⟩ | ⟨hvoid, hstep, hother⟩ | ⟨hvoid, hstep, hother⟩ <;>
        rw [hstep, hother]
      · rfl
      · rw [List.filter_cons_of_neg (by simp [hvoid])]
        exact ih names
      rw [List.filter_cons_of_pos (by simp [hvoid])]
      cases hentry : tree.get? (here ++ (names ++ [piece])) with
      | none =>
          by_cases hrest : rest.all (· == "") = true
          · simp only [stepTo, goOn, landing, hrest, if_true, EndAlike,
              filter_isVoid_of_all hrest, hentry, and_self]
          · simp [stepTo, goOn, landing, hrest, EndAlike]
      | some entry =>
          cases entry with
          | link target => exact (h.noLink _ _ hentry).elim
          | directory mode =>
              by_cases hrest : rest = []
              · simp [stepTo, goOn, hrest, EndAlike, hentry]
              · simpa [stepTo, goOn, hrest] using ih (names ++ [piece])
          | file bytes mode =>
              by_cases hrest : rest = []
              · simp [stepTo, goOn, landing, hrest, EndAlike, hentry]
              · simp [stepTo, goOn, landing, hrest, EndAlike]

theorem EndAlike.eq {left right : Except FileError Spot}
    (h : EndAlike tree here here names left right) : left = right := by
  cases left <;> cases right <;> simp_all [EndAlike]

/-- What a walk that leads downwards is for does not matter, and how many links it may follow. -/
theorem SameBelow.walkWithin_eq (h : SameBelow tree other here there) (links more : Nat)
    (hpurpose : purpose ≠ .write) (hup : ".." ∉ pieces) :
    walkWithin tree purpose links here pieces = walkWithin tree .use more here pieces := by
  have hends := h.refl_of.endAlike [] links more hpurpose
    (show Purpose.use ≠ .write by simp) hup
  rw [List.append_nil] at hends
  exact hends.eq

theorem getLast?_of_file (ht : tree.Rooted) (hd : tree.IsDirectory here) {links : Nat}
    {bytes : ByteArray} {mode : Nat} (hne : pieces ≠ [])
    (h : walkWithin tree .use links here pieces = .ok ⟨place, some (.file bytes mode)⟩) :
    ∃ last, pieces.getLast? = some last ∧ isVoid last = false := by
  obtain ⟨front, last, rfl⟩ := (List.eq_nil_or_concat pieces).resolve_left hne
  rw [List.concat_eq_append] at h ⊢
  refine ⟨last, by simp, ?_⟩
  by_contra hvoid
  rw [Bool.not_eq_false] at hvoid
  obtain ⟨left, site, rights, hfront, hlast⟩ := walkWithin_append_eq_ok ht hd (by simp) h
  have hentry := entry_of_walkWithin hfront
  rw [walkWithin_cons, step, withoutLook?] at hlast
  -- after the directory that the pieces before it lead to, a void piece leads nowhere else
  rcases (show last = "" ∨ last = "." by simpa [isVoid] using hvoid) with rfl | rfl
  · simp [goOn, walkWithin_nil, ← hentry] at hlast
  · by_cases hopened : tree.permits .enter site = true
    · simp [hopened, goOn, walkWithin_nil, ← hentry] at hlast
    · simp [hopened, goOn] at hlast

/-! ### Paths -/

variable {mode : Nat}

theorem resolve_join (ht : tree.WellFormed) (hroot : tree.find root = .ok (here, .directory mode))
    (hrelative : text.startsWith "/" = false) (hform : checkForm (root.join text) = .ok ()) :
    (∃ left, tree.resolve .use (root.join text) =
      walkWithin tree .use left here (split '/' text)) ∧
    ((split '/' text).all (· == "") = false → ∃ left, ∀ purpose,
      tree.resolve purpose (root.join text) =
        walkWithin tree purpose left here (split '/' text)) := by
  have hpath := (resolve_eq_ok.mp (find_eq_ok.mp hroot)).1
  have hd := isDirectory_start ht.toRooted ht.current root
  obtain ⟨before, hbefore, hjoined, habsolute, -⟩ :=
    Path.split_join (text_ne_of_checkForm hpath) hrelative
  have hfirst := walkWithin_before ht.toRooted hd hroot hbefore
  have hresolve : ∀ purpose, tree.resolve purpose (root.join text) =
      walkWithin tree purpose maxLinks (tree.start root) (before ++ split '/' text) := by
    intro purpose
    rw [resolve_of_checkForm hform, hjoined, start, habsolute, ← start]
  constructor
  · obtain ⟨left, hleft⟩ := walkWithin_directory ht.toRooted hd hfirst
    obtain ⟨first, rest, hsplit⟩ := Path.exists_split text
    exact ⟨left, by rw [hresolve, hleft _ (by simp [hsplit])]⟩
  · intro hblank
    obtain ⟨left, hleft⟩ := walkWithin_directory_for ht.toRooted hd hfirst
    exact ⟨left, fun purpose => by rw [hresolve, hleft purpose _ hblank]⟩

/-- The paths to what stands at or below a place are short enough to be followed. -/
def Fits (tree : FileTree) (root : Path) (here : Location) (text : String) : Prop :=
  ∀ names, (tree.get? (here ++ stepNames text ++ names)).isSome →
    (names.foldl Path.join (root.join text)).text.utf8ByteSize < maxPathBytes

/-- Two directories with the same contents, and the paths that lead to them. -/
structure Relocation (tree other : FileTree) (root copy : Path) (here there : Location) : Prop
    extends SameBelow tree other here there where
  wellFormed : tree.WellFormed
  wellFormedCopy : other.WellFormed
  findRoot : ∃ mode, tree.find root = .ok (here, .directory mode)
  findCopy : ∃ mode, other.find copy = .ok (there, .directory mode)

namespace Relocation

variable (h : Relocation tree other root copy here there)

include h

theorem symm : Relocation other tree copy root there here where
  toSameBelow := h.toSameBelow.symm
  wellFormed := h.wellFormedCopy
  wellFormedCopy := h.wellFormed
  findRoot := h.findCopy
  findCopy := h.findRoot

theorem root_ne : root.text ≠ "" := by
  obtain ⟨mode, hmode⟩ := h.findRoot
  exact text_ne_of_checkForm (resolve_eq_ok.mp (find_eq_ok.mp hmode)).1

theorem noZero : '\x00' ∉ root.text.toList := by
  obtain ⟨mode, hmode⟩ := h.findRoot
  exact (checkForm_eq_ok.mp (resolve_eq_ok.mp (find_eq_ok.mp hmode)).1).2.1

/-- The form of a path below the directory, unless it is too long, is that of its steps. -/
theorem checkForm_join (ht : IsInner text)
    (hshort : (root.join text).text.utf8ByteSize < maxPathBytes) :
    checkForm (root.join text) =
      if ∃ piece ∈ stepNames text, '\x00' ∈ piece.toList then .error .zeroInName else .ok () := by
  have hne := (Path.split_join h.root_ne ht.relative).choose_spec.2.2.2
  have hmem : '\x00' ∈ (root.join text).text.toList ↔
      ∃ piece ∈ stepNames text, '\x00' ∈ piece.toList := by
    rw [Path.mem_join h.root_ne ht.relative (by decide), or_iff_right h.noZero,
      Path.mem_toList_iff_stepNames (by decide) (by decide)]
  simp [checkForm, hne, hmem, Nat.not_le.mpr hshort]

/-- Paths that are walked over the same pieces from the two directories lead to the same. -/
theorem find_of_walks {path twin : Path} {left fewer : Nat} (hup : ".." ∉ pieces)
    (hleft : tree.resolve .use path = walkWithin tree .use left here pieces)
    (hfewer : other.resolve .use twin = walkWithin other .use fewer there pieces)
    (hfind : tree.find path = .ok (place, entry)) :
    place = here ++ pieces.filter (fun piece => !isVoid piece) ∧
      other.find twin = .ok (there ++ pieces.filter (fun piece => !isVoid piece), entry) := by
  have hends := h.endAlike [] left fewer (show Purpose.use ≠ .write by simp)
    (show Purpose.use ≠ .write by simp) hup
  rw [find_eq_ok] at hfind
  rw [List.append_nil, List.append_nil, ← hleft, ← hfewer, hfind] at hends
  cases hother : other.resolve .use twin with
  | error error => simp [hother, EndAlike] at hends
  | ok spot =>
      rw [hother] at hends
      obtain ⟨hspot, rfl⟩ := hends
      obtain ⟨rfl, hentry⟩ := Spot.mk.inj hspot
      exact ⟨rfl, by rw [find_eq_ok, hother, hentry]; rfl⟩

theorem checkForm_copy {twin : String} (ht : IsInner text) (hi : IsInner twin)
    (hsteps : stepNames twin = stepNames text)
    (hshort : (copy.join twin).text.utf8ByteSize < maxPathBytes)
    (hform : checkForm (root.join text) = .ok ()) : checkForm (copy.join twin) = .ok () := by
  rw [h.symm.checkForm_join hi hshort, hsteps,
    ← h.checkForm_join ht (checkForm_eq_ok.mp hform).2.2, hform]

/-- What is found below a directory is looked for below the other one by a walk over the pieces of
any path with the same steps. -/
theorem exists_walks {twin : String} (ht : IsInner text) (hi : IsInner twin)
    (hsteps : stepNames twin = stepNames text)
    (hshort : (copy.join twin).text.utf8ByteSize < maxPathBytes)
    (hfind : tree.find (root.join text) = .ok (place, entry)) :
    ∃ left fewer,
      tree.resolve .use (root.join text) = walkWithin tree .use left here (split '/' text) ∧
      other.resolve .use (copy.join twin) =
        walkWithin other .use fewer there (split '/' twin) := by
  obtain ⟨mode, hroot⟩ := h.findRoot
  obtain ⟨mode', hcopy⟩ := h.findCopy
  have hform := (resolve_eq_ok.mp (find_eq_ok.mp hfind)).1
  obtain ⟨⟨left, hleft⟩, -⟩ := resolve_join h.wellFormed hroot ht.relative hform
  obtain ⟨⟨fewer, hfewer⟩, -⟩ := resolve_join h.wellFormedCopy hcopy hi.relative
    (h.checkForm_copy ht hi hsteps hshort hform)
  exact ⟨left, fewer, hleft, hfewer⟩

theorem find_join (ht : IsInner text)
    (hshort : (copy.join text).text.utf8ByteSize < maxPathBytes)
    (hfind : tree.find (root.join text) = .ok (place, entry)) :
    place = here ++ stepNames text ∧
      other.find (copy.join text) = .ok (there ++ stepNames text, entry) := by
  obtain ⟨left, fewer, hleft, hfewer⟩ := h.exists_walks ht ht rfl hshort hfind
  exact h.find_of_walks ht.noUp hleft hfewer hfind

theorem refl_of : Relocation tree tree root root here here where
  toSameBelow := h.toSameBelow.refl_of
  wellFormed := h.wellFormed
  wellFormedCopy := h.wellFormed
  findRoot := h.findRoot
  findCopy := h.findRoot

theorem place_eq (ht : IsInner text) (hfind : tree.find (root.join text) = .ok (place, entry)) :
    place = here ++ stepNames text :=
  (h.refl_of.find_join ht (checkForm_eq_ok.mp (resolve_eq_ok.mp (find_eq_ok.mp hfind)).1).2.2
    hfind).1

theorem find_join_of_fits (ht : IsInner text) (hfits : other.Fits copy there text)
    (hfind : tree.find (root.join text) = .ok (place, entry)) :
    place = here ++ stepNames text ∧
      other.find (copy.join text) = .ok (there ++ stepNames text, entry) := by
  refine h.find_join ht (hfits [] ?_) hfind
  rw [List.append_nil, h.same, ← h.place_eq ht hfind, get?_of_find hfind]
  rfl

/-- What is found below a directory is found below the other one by any path with the same steps,
if both paths end in one. -/
theorem find_join_congr {twin : String} (ht : IsInner text) (hi : IsInner twin)
    (hlast : EndsInStep text) (hend : EndsInStep twin) (hsteps : stepNames twin = stepNames text)
    (hshort : (copy.join twin).text.utf8ByteSize < maxPathBytes)
    (hfind : tree.find (root.join text) = .ok (place, entry)) :
    ∃ site, other.find (copy.join twin) = .ok (site, entry) := by
  obtain ⟨left, fewer, hleft, hfewer⟩ := h.exists_walks ht hi hsteps hshort hfind
  have hup : ".." ∉ stepNames text := fun hmem => ht.noUp (List.mem_filter.mp hmem).1
  have hwalk := walkWithin_congr tree left here (SameSteps.of_stepNames hlast)
  have hagain := walkWithin_congr other fewer there (SameSteps.of_stepNames hend)
  rw [hsteps] at hagain
  exact ⟨_, (h.find_of_walks hup (hleft.trans hwalk.symm) (hfewer.trans hagain.symm) hfind).2⟩

theorem resolve_handle_join (ht : IsInner text) {bytes : ByteArray}
    (hfind : tree.find (root.join text) = .ok (place, .file bytes mode)) :
    tree.resolve .handle (root.join text) = .ok ⟨place, some (.file bytes mode)⟩ ∧
      EndsInStep text := by
  obtain ⟨rights, hroot⟩ := h.findRoot
  rw [find_eq_ok] at hfind
  obtain ⟨hform, -⟩ := resolve_eq_ok.mp hfind
  obtain ⟨⟨left, hleft⟩, hblank⟩ := resolve_join h.wellFormed hroot ht.relative hform
  obtain ⟨first, rest, hsplit⟩ := Path.exists_split text
  have hend : EndsInStep text := getLast?_of_file h.wellFormed.toRooted
    ⟨rights, get?_of_find hroot⟩ (by simp [hsplit]) (hleft ▸ hfind)
  refine ⟨?_, hend⟩
  obtain ⟨last, hlast, hname⟩ := hend
  obtain ⟨fewer, hfewer⟩ := hblank (by
    rw [List.all_eq_false]
    exact ⟨last, List.mem_of_getLast? hlast, by rintro hempty; simp_all [isVoid]⟩)
  rw [hfewer, h.walkWithin_eq fewer left (show Purpose.handle ≠ .write by simp) ht.noUp,
    ← hleft, hfind]

end Relocation

/-! ### Listings -/

theorem isBelow_congr {directories others : List (List String)}
    (h : ∀ names, names ∈ directories ↔ names ∈ others) (names : List String) :
    isBelow directories names = isBelow others names := by
  rw [Bool.eq_iff_iff, isBelow, isBelow, List.any_eq_true, List.any_eq_true]
  simp only [h]

theorem mem_entriesBelow_of_get? (h : tree.get? (place ++ names) = some entry) :
    (names, entry) ∈ tree.entriesBelow place ∨
      names = [] ∧ entry = .directory Entry.newDirectoryMode := by
  rw [get?] at h
  split at h
  · rename_i found hlookup
    cases h
    obtain ⟨front, back, hentries, -⟩ := List.lookup_eq_some_iff.mp hlookup
    exact .inl (mem_entriesBelow.mpr (by simp [hentries]))
  · split at h
    · rename_i hnil
      cases h
      exact .inr ⟨(List.append_eq_nil_iff.mp hnil).2, rfl⟩
    · cases h

theorem fits_of_entries (hplace : (root.join text).text.utf8ByteSize < maxPathBytes)
    (h : ∀ item ∈ tree.entriesBelow (here ++ stepNames text),
      (item.1.foldl Path.join (root.join text)).text.utf8ByteSize < maxPathBytes) :
    tree.Fits root here text := by
  intro names hthere
  obtain ⟨entry, hentry⟩ := Option.isSome_iff_exists.mp hthere
  rcases mem_entriesBelow_of_get? hentry with hmem | ⟨rfl, -⟩
  · exact h _ hmem
  · exact hplace

/-- What is kept of the directories below a place is what is kept of those that are there, even if
the root has no entry of its own. -/
theorem mem_filterMap_directories {α : Type} {keep : List String × Entry → Option α} {kept : α}
    (ht : tree.WellFormed)
    (hkeep : ∀ names entry, (∀ mode, entry ≠ .directory mode) → keep (names, entry) = none)
    (hnew : tree.get? place = some (.directory Entry.newDirectoryMode) →
      keep ([], .directory Entry.newDirectoryMode) = none) :
    kept ∈ (tree.entriesBelow place).filterMap keep ↔ ∃ names mode,
      tree.get? (place ++ names) = some (.directory mode) ∧
        keep (names, .directory mode) = some kept := by
  rw [List.mem_filterMap]
  constructor
  · intro hx
    obtain ⟨⟨names, entry⟩, hmem, hkept⟩ := hx
    by_cases hdir : ∃ mode, entry = .directory mode
    · obtain ⟨mode, rfl⟩ := hdir
      exact ⟨names, mode, get?_of_mem ht.distinct (mem_entriesBelow.mp hmem), hkept⟩
    · rw [hkeep names entry (not_exists.mp hdir)] at hkept
      cases hkept
  · intro hx
    obtain ⟨names, mode, hmode, hkept⟩ := hx
    rcases mem_entriesBelow_of_get? hmode with hmem | ⟨rfl, hroot⟩
    · exact ⟨_, hmem, hkept⟩
    · rw [List.append_nil] at hmode
      rw [hroot, hnew (hroot ▸ hmode)] at hkept
      cases hkept

theorem mem_shutIn (ht : tree.WellFormed) :
    names ∈ shutIn (tree.entriesBelow place) ↔ ∃ mode,
      tree.get? (place ++ names) = some (.directory mode) ∧
        mode.testBit Right.enter.bit = false := by
  rw [shutIn, mem_filterMap_directories ht]
  · simp only [ite_eq_iff, reduceCtorEq, and_false, false_or, Option.some.injEq,
      Bool.not_eq_true]
    constructor
    · intro hx
      obtain ⟨names, mode, hmode, hshut, rfl⟩ := hx
      exact ⟨mode, hmode, hshut⟩
    · intro hx
      obtain ⟨mode, hmode, hshut⟩ := hx
      exact ⟨names, mode, hmode, hshut, rfl⟩
  · intro names entry hne
    cases entry <;> simp at hne ⊢
  · exact fun _ => rfl

theorem mem_barredIn (ht : tree.WellFormed)
    (hshort : ∀ names, (tree.get? (place ++ names)).isSome →
      (names.foldl Path.join root).text.utf8ByteSize < maxPathBytes) :
    names ∈ (barredIn root (tree.entriesBelow place)).map (·.1) ↔ ∃ mode,
      tree.get? (place ++ names) = some (.directory mode) ∧
        (isBelow (shutIn (tree.entriesBelow place)) names = true ∨
          mode.testBit Right.read.bit = false) := by
  have hbarred : ∀ {names mode}, tree.get? (place ++ names) = some (.directory mode) →
      ((listingError? (shutIn (tree.entriesBelow place)) (names.foldl Path.join root) names
        mode).isSome ↔ (isBelow (shutIn (tree.entriesBelow place)) names = true ∨
          mode.testBit Right.read.bit = false)) := by
    intro names mode hmode
    have hlength := hshort names (by simp [hmode])
    rw [listingError?, if_neg (Nat.not_le.mpr hlength)]
    split <;> simp_all
  rw [barredIn, List.map_filterMap, mem_filterMap_directories ht]
  · constructor
    · intro hx
      obtain ⟨other, mode, hmode, hkept⟩ := hx
      simp only [Option.map_map, Option.map_eq_some_iff] at hkept
      obtain ⟨error, herror, rfl⟩ := hkept
      exact ⟨mode, hmode, (hbarred hmode).mp (by simp [herror])⟩
    · intro hx
      obtain ⟨mode, hmode, hcause⟩ := hx
      obtain ⟨error, herror⟩ := Option.isSome_iff_exists.mp ((hbarred hmode).mpr hcause)
      exact ⟨names, mode, hmode, by simp [herror]⟩
  · intro names entry hne
    cases entry <;> simp at hne ⊢
  · intro hroot
    rw [← List.append_nil place] at hroot
    have hlisted : listingError? (shutIn (tree.entriesBelow place)) root []
        Entry.newDirectoryMode = none := by
      rw [← Option.not_isSome_iff_eq_none]
      intro hsome
      rcases (hbarred hroot).mp hsome with hshut | hread
      · simp [isBelow] at hshut
      · cases hread
    simp [hlisted]

theorem SameBelow.isBelow_barredIn (h : SameBelow tree other here there) (ht : tree.WellFormed)
    (ho : other.WellFormed)
    (hshort : ∀ names, (tree.get? (here ++ names)).isSome →
      (names.foldl Path.join root).text.utf8ByteSize < maxPathBytes)
    (hfew : ∀ names, (other.get? (there ++ names)).isSome →
      (names.foldl Path.join copy).text.utf8ByteSize < maxPathBytes) (names : List String) :
    isBelow ((barredIn copy (other.entriesBelow there)).map (·.1)) names =
      isBelow ((barredIn root (tree.entriesBelow here)).map (·.1)) names := by
  have hshut : ∀ names, isBelow (shutIn (other.entriesBelow there)) names =
      isBelow (shutIn (tree.entriesBelow here)) names :=
    isBelow_congr fun names => by rw [mem_shutIn ho, mem_shutIn ht, h.same]
  apply isBelow_congr
  intro names
  rw [mem_barredIn ho hfew, mem_barredIn ht hshort, h.same, hshut]

theorem mem_files_listingUnder {path : Path} :
    path ∈ (tree.listingUnder root place).files ↔ ∃ names bytes mode,
      (place ++ names, .file bytes mode) ∈ tree.entries ∧ path = names.foldl Path.join root ∧
        isBelow ((barredIn root (tree.entriesBelow place)).map (·.1)) names = false := by
  rw [files_listingUnder, List.mem_filterMap]
  constructor
  · intro hx
    obtain ⟨⟨names, entry⟩, hmem, hlisted⟩ := hx
    obtain ⟨rfl, bytes, mode, rfl⟩ := listedFile?_eq_some hlisted
    refine ⟨names, bytes, mode, mem_entriesBelow.mp hmem, rfl, ?_⟩
    simp only [listedFile?] at hlisted
    split at hlisted
    · rename_i hreached
      simpa using hreached
    · cases hlisted
  · intro hx
    obtain ⟨names, bytes, mode, hmem, rfl, hreached⟩ := hx
    exact ⟨(names, .file bytes mode), mem_entriesBelow.mpr hmem, by
      simp [listedFile?, hreached]⟩

end FileTree

end LocaleTidy
