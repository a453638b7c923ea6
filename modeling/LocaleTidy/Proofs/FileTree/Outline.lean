import LocaleTidy.FileTree.Operations
import LocaleTidy.Proofs.FileTree.Listing

/-!
# Trees without the bytes of their files

The outline of a tree is the tree with all files emptied. Where a path leads, what a walk comes
upon and whether an operation succeeds can be told from the outline: every operation on the
outline does what it does on the tree, but for the bytes.
-/

namespace LocaleTidy

def Entry.outline : Entry → Entry
  | .file _ mode => .file ByteArray.empty mode
  | .directory mode => .directory mode
  | .link target => .link target

@[simp] theorem Entry.permits_outline (right : Right) (entry : Entry) :
    entry.outline.permits right = entry.permits right := by
  cases entry <;> rfl

namespace FileTree

/-- A tree with all files emptied. -/
def outline (tree : FileTree) : FileTree :=
  { tree with entries := tree.entries.map fun item => (item.1, item.2.outline) }

def Spot.outline (spot : Spot) : Spot :=
  ⟨spot.location, spot.entry.map Entry.outline⟩

variable {tree other : FileTree} {purpose : Purpose} {path source target : Path}
  {place : Location} {bytes : ByteArray} {mode : Nat}

@[simp] theorem current_outline (tree : FileTree) : tree.outline.current = tree.current := rfl

@[simp] theorem get?_outline (tree : FileTree) (place : Location) :
    tree.outline.get? place = (tree.get? place).map Entry.outline := by
  have hlookup : tree.outline.entries.lookup place =
      (tree.entries.lookup place).map Entry.outline := by
    rw [outline]
    induction tree.entries with
    | nil => rfl
    | cons item rest ih =>
        rw [List.map_cons, List.lookup_cons, List.lookup_cons]
        cases place == item.1 with
        | true => rfl
        | false => exact ih
  rw [get?, get?, hlookup]
  cases tree.entries.lookup place with
  | some entry => rfl
  | none =>
      by_cases hroot : place = []
      · simp [hroot, Entry.outline]
      · simp [hroot]

@[simp] theorem permits_outline (tree : FileTree) (right : Right) (place : Location) :
    tree.outline.permits right place = tree.permits right place := by
  rw [permits, permits, get?_outline, Option.any_map]
  simp

@[simp] theorem permitsChange_outline (tree : FileTree) (place : Location) :
    tree.outline.permitsChange place = tree.permitsChange place :=
  permits_outline ..

theorem outline_set (tree : FileTree) (place : Location) (entry : Entry) :
    (tree.set place entry).outline = tree.outline.set place entry.outline := by
  have hset : ∀ entries : List (Location × Entry),
      (setIn place entry entries).map (fun item => (item.1, item.2.outline)) =
        setIn place entry.outline (entries.map fun item => (item.1, item.2.outline)) := by
    intro entries
    induction entries with
    | nil => rfl
    | cons item rest ih =>
        simp only [setIn, List.map_cons]
        split
        · rfl
        · rw [List.map_cons, ih]
  rw [outline, set, set, outline, hset]

theorem outline_erase (tree : FileTree) (place : Location) :
    (tree.erase place).outline = tree.outline.erase place := by
  rw [outline, erase, erase, outline, List.filter_map]
  rfl

/-! ## Walks -/

def Step.outline : Step → Step
  | .stop result => .stop (result.map Spot.outline)
  | .go there => .go there
  | .follow start pieces => .follow start pieces

theorem stepTo_outline (here there : Location) (rest : List String) (found : Option Entry) :
    stepTo purpose here there rest (found.map Entry.outline) =
      (stepTo purpose here there rest found).outline := by
  rcases found with _ | mode | _ | target
  · simp only [Option.map_none, stepTo, landing, Step.outline]
    split <;> rfl
  · simp only [Option.map_some, Entry.outline, stepTo]
    split <;> rfl
  · simp only [Option.map_some, Entry.outline, stepTo, landing, Step.outline]
    split <;> rfl
  · simp only [Option.map_some, Entry.outline, stepTo]
    split <;> rfl

theorem step_outline (tree : FileTree) (purpose : Purpose) (here : Location) (piece : String)
    (rest : List String) :
    step tree.outline purpose here piece rest = (step tree purpose here piece rest).outline := by
  rw [step, step, permits_outline, get?_outline, stepTo_outline]
  cases hlook : withoutLook? (tree.permits .enter here) purpose here piece rest with
  | none => rfl
  | some found =>
      rcases withoutLook?_eq_some hlook with ⟨error, rfl⟩ | rfl | rfl <;> rfl

theorem walkWithin_outline (tree : FileTree) (purpose : Purpose) (links : Nat) (here : Location)
    (pieces : List String) :
    walkWithin tree.outline purpose links here pieces =
      (walkWithin tree purpose links here pieces).map Spot.outline := by
  induction links, here, pieces using walk_induction tree purpose with
  | done links here =>
      rw [walkWithin_nil, walkWithin_nil, get?_outline]
      rfl
  | stop links here piece rest result hstep hwalk =>
      rw [hwalk, walkWithin_cons, step_outline, hstep]
      rfl
  | go links here piece rest there hstep hwalk ih =>
      rw [hwalk, walkWithin_cons, step_outline, hstep]
      exact ih
  | tired here piece rest start pieces hstep hwalk =>
      rw [hwalk, walkWithin_cons, step_outline, hstep]
      rfl
  | follow links here piece rest start pieces hstep hwalk ih =>
      rw [hwalk, walkWithin_cons, step_outline, hstep]
      exact ih

theorem resolve_outline (tree : FileTree) (purpose : Purpose) (path : Path) :
    tree.outline.resolve purpose path = (tree.resolve purpose path).map Spot.outline := by
  rw [resolve, resolve]
  cases checkForm path with
  | error error => rfl
  | ok _ => exact walkWithin_outline ..

theorem find_outline (tree : FileTree) (path : Path) :
    tree.outline.find path =
      (tree.find path).map fun found => (found.1, found.2.outline) := by
  rw [find, find, resolve_outline]
  rcases tree.resolve .use path with error | ⟨place, _ | entry⟩ <;> rfl

theorem isThere_outline (tree : FileTree) (path : Path) :
    tree.outline.isThere path = tree.isThere path := by
  rw [isThere, isThere, find_outline]
  cases tree.find path <;> rfl

/-! ## Operations -/

theorem findReadable_outline (tree : FileTree) (path : Path) :
    tree.outline.findReadable path =
      (tree.findReadable path).map fun found => (found.1, found.2.outline) := by
  rw [findReadable, findReadable, find_outline]
  rcases tree.find path with error | ⟨place, entry⟩
  · rfl
  · simp only [Except.map, bind, Except.bind, Entry.permits_outline]
    split <;> rfl

theorem modeOf_outline (tree : FileTree) (path : Path) :
    tree.outline.modeOf path = tree.modeOf path := by
  rw [modeOf, modeOf, find_outline]
  rcases tree.find path with error | ⟨place, _ | _ | _⟩ <;> rfl

theorem writeNew_outline (tree : FileTree) (path : Path) (bytes : ByteArray) (mode : Nat) :
    tree.outline.writeNew path ByteArray.empty mode =
      (tree.writeNew path bytes mode).map outline := by
  rw [writeNew, writeNew, resolve_outline]
  rcases tree.resolve .write path with error | ⟨place, entry⟩
  · rfl
  rcases entry with _ | _ | ⟨old, rights⟩ | _
  · simp only [Except.map, bind, Except.bind, Spot.outline, Option.map_none,
      permitsChange_outline]
    split
    · simp only [pure, Except.pure, outline_set, Entry.outline]
    · rfl
  · rfl
  · simp only [Except.map, bind, Except.bind, Spot.outline, Option.map_some, Entry.outline,
      permits_outline]
    split
    · simp only [pure, Except.pure, outline_set, Entry.outline]
    · rfl
  · rfl

theorem setMode_outline (tree : FileTree) (path : Path) (mode : Nat) :
    tree.outline.setMode path mode = (tree.setMode path mode).map outline := by
  rw [setMode, setMode, find_outline]
  rcases tree.find path with error | ⟨place, _ | _ | _⟩
  · rfl
  · simp [Except.map, bind, Except.bind, pure, Except.pure, Entry.outline, outline_set]
  · simp [Except.map, bind, Except.bind, pure, Except.pure, Entry.outline, outline_set]
  · rfl

theorem copy_outline (tree : FileTree) (source target : Path) :
    tree.outline.copy source target = (tree.copy source target).map outline := by
  rw [copy, copy, findReadable_outline]
  rcases tree.findReadable source with error | ⟨place, _ | ⟨bytes, mode⟩ | _⟩
  · rfl
  · rfl
  · simp only [Except.map, bind, Except.bind, Entry.outline,
      writeNew_outline tree target ByteArray.empty mode]
    cases tree.writeNew target ByteArray.empty mode with
    | error error => rfl
    | ok emptied =>
        simp only [resolve_outline]
        cases emptied.resolve .write target with
        | error error => rfl
        | ok spot =>
            simp only [Except.map, pure, Except.pure, Spot.outline, outline_set, Entry.outline,
              ite_self]
  · rfl

theorem placeFor_outline (tree : FileTree) (path : Path) :
    tree.outline.placeFor path = tree.placeFor path := by
  rw [placeFor, placeFor]
  simp only [walkWithin_outline, current_outline]
  cases checkForm path with
  | error error => rfl
  | ok _ =>
      simp only [bind, Except.bind]
      cases walkWithin tree .use maxLinks (if path.isAbsolute = true then [] else tree.current)
          ((splitLast path).1 ++ [""]) with
      | error error => rfl
      | ok spot =>
          simp [Except.map, Spot.outline]

theorem rename_outline (tree : FileTree) (source target : Path) :
    tree.outline.rename source target = (tree.rename source target).map outline := by
  rw [rename, rename, resolve_outline, placeFor_outline]
  rcases tree.resolve .handle source with error | ⟨start, _ | entry⟩
  · rfl
  · cases tree.placeFor target <;> rfl
  · cases tree.placeFor target with
    | error error => rfl
    | ok place =>
        simp only [Except.map, bind, Except.bind, Spot.outline, Option.map_some,
          permitsChange_outline, get?_outline]
        split
        · rfl
        split
        · rfl
        rcases tree.get? place with _ | _ | _ | _
        · simp [pure, Except.pure, outline_set, outline_erase]
        · rfl
        · simp [Entry.outline, pure, Except.pure, outline_set, outline_erase]
        · simp [Entry.outline, pure, Except.pure, outline_set, outline_erase]

theorem remove_outline (tree : FileTree) (path : Path) :
    tree.outline.remove path = (tree.remove path).map outline := by
  rw [remove, remove, resolve_outline]
  rcases tree.resolve .handle path with error | ⟨place, _ | entry⟩
  · rfl
  · rfl
  · simp only [Except.map, bind, Except.bind, Spot.outline, Option.map_some,
      permitsChange_outline]
    split
    · rfl
    · cases entry with
      | directory mode => rfl
      | file bytes mode => simp [Entry.outline, pure, Except.pure, outline_erase]
      | link target => simp [Entry.outline, pure, Except.pure, outline_erase]

/-! ## Listings -/

theorem entriesBelow_outline (tree : FileTree) (place : Location) :
    tree.outline.entriesBelow place =
      (tree.entriesBelow place).map fun item => (item.1, item.2.outline) := by
  rw [entriesBelow, entriesBelow, outline, List.filterMap_map, List.map_filterMap]
  apply List.filterMap_congr
  intro item _
  rw [Option.map_map]
  rfl

theorem shutIn_outline (entries : List (List String × Entry)) :
    shutIn (entries.map fun item => (item.1, item.2.outline)) = shutIn entries := by
  rw [shutIn, shutIn, List.filterMap_map]
  apply List.filterMap_congr
  rintro ⟨names, entry⟩ _
  cases entry <;> rfl

theorem barredIn_outline (root : Path) (entries : List (List String × Entry)) :
    barredIn root (entries.map fun item => (item.1, item.2.outline)) = barredIn root entries := by
  rw [barredIn, barredIn, shutIn_outline, List.filterMap_map]
  apply List.filterMap_congr
  rintro ⟨names, entry⟩ _
  cases entry <;> rfl

theorem listingUnder_outline (tree : FileTree) (root : Path) (place : Location) :
    tree.outline.listingUnder root place = tree.listingUnder root place := by
  simp only [listingUnder, entriesBelow_outline, barredIn_outline, List.filterMap_map]
  congr 1
  apply List.filterMap_congr
  rintro ⟨names, entry⟩ _
  cases entry <;> rfl

theorem listing_outline (tree : FileTree) (root : Path) :
    tree.outline.listing root = tree.listing root := by
  rw [listing, listing, resolve_outline]
  rcases tree.resolve .handle root with error | ⟨place, _ | _ | _ | _⟩
  · rfl
  · rfl
  · exact listingUnder_outline ..
  · rfl
  · simp only [Except.map, Spot.outline, Option.map_some, Entry.outline, find_outline]
    rcases tree.find root with error | ⟨start, _ | _ | _⟩
    · rfl
    · exact listingUnder_outline ..
    · rfl
    · rfl

/-! ## Trees with one outline -/

/-- Two attempts to change trees that fail alike, or leave trees with one outline. -/
def ChangedAlike (first second : Except FileError FileTree) : Prop :=
  (∃ error, first = .error error ∧ second = .error error) ∨
    ∃ left right, first = .ok left ∧ second = .ok right ∧ right.outline = left.outline

theorem changedAlike_iff {first second : Except FileError FileTree} :
    ChangedAlike first second ↔ second.map outline = first.map outline := by
  cases first <;> cases second <;> simp [ChangedAlike, Except.map, eq_comm]

theorem writeNew_changedAlike (h : other.outline = tree.outline) (path : Path)
    (bytes : ByteArray) (mode : Nat) :
    ChangedAlike (tree.writeNew path bytes mode) (other.writeNew path bytes mode) := by
  rw [changedAlike_iff, ← writeNew_outline, ← writeNew_outline, h]

theorem copy_changedAlike (h : other.outline = tree.outline) (source target : Path) :
    ChangedAlike (tree.copy source target) (other.copy source target) := by
  rw [changedAlike_iff, ← copy_outline, ← copy_outline, h]

theorem setIn_eq_self {entry : Entry} {entries : List (Location × Entry)}
    (h : entries.lookup place = some entry) : setIn place entry entries = entries := by
  induction entries with
  | nil => cases h
  | cons item rest ih =>
      rw [List.lookup_cons] at h
      by_cases hplace : item.1 = place
      · simp only [hplace, beq_self_eq_true] at h
        rw [setIn, if_pos hplace, ← Option.some.inj h, ← hplace]
      · rw [beq_false_of_ne (Ne.symm hplace)] at h
        rw [setIn, if_neg hplace, ih h]

theorem outline_set_of_file (h : tree.get? place = some (.file bytes mode)) (text : ByteArray) :
    (tree.set place (.file text mode)).outline = tree.outline := by
  have hlookup : tree.outline.entries.lookup place = some (.file ByteArray.empty mode) :=
    lookup_of_file (by rw [get?_outline, h]; rfl)
  rw [outline_set, set]
  simp only [Entry.outline, setIn_eq_self hlookup]

/-- Two trees that differ at most in the bytes of the file at a place. -/
structure SameBut (place : Location) (tree other : FileTree) : Prop where
  outline : other.outline = tree.outline
  get? : ∀ site, site ≠ place → other.get? site = tree.get? site

theorem sameBut_set (h : tree.get? place = some (.file bytes mode)) (text : ByteArray) :
    SameBut place tree (tree.set place (.file text mode)) where
  outline := outline_set_of_file h text
  get? site hsite := by rw [get?_set, if_neg hsite]

namespace SameBut

variable (h : SameBut place tree other)

include h

theorem isThere_eq (path : Path) : other.isThere path = tree.isThere path := by
  rw [← isThere_outline, h.outline, isThere_outline]

theorem listing_eq (root : Path) : other.listing root = tree.listing root := by
  rw [← listing_outline, h.outline, listing_outline]

theorem find_eq (hpath : tree.place? path ≠ some place) : other.find path = tree.find path := by
  have hsame := find_outline other path
  rw [h.outline, find_outline] at hsame
  cases hfind : tree.find path with
  | error error =>
      rw [hfind] at hsame
      cases hother : other.find path with
      | error fault =>
          rw [hother] at hsame
          cases hsame
          rfl
      | ok found =>
          rw [hother] at hsame
          cases hsame
  | ok found =>
      obtain ⟨site, entry⟩ := found
      rw [hfind] at hsame
      cases hother : other.find path with
      | error fault =>
          rw [hother] at hsame
          cases hsame
      | ok twin =>
          obtain ⟨location, kept⟩ := twin
          rw [hother] at hsame
          obtain rfl : site = location := (Prod.mk.inj (Except.ok.inj hsame)).1
          have hsite : site ≠ place := by
            rintro rfl
            exact hpath (mem_place? hfind)
          have hentry := h.get? site hsite
          rw [get?_of_find hother, get?_of_find hfind] at hentry
          rw [Option.some.inj hentry]

theorem readText_eq (hpath : tree.place? path ≠ some place) :
    other.readText path = tree.readText path := by
  simp only [readText, readBytes, findReadable, h.find_eq hpath]

end SameBut

end FileTree

end LocaleTidy
