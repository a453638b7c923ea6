import Mathlib.Data.List.Basic
import LocaleTidy.Proofs.FileTree.Changes
import LocaleTidy.Proofs.Path.Relative

/-!
# Spellings of a path

The pieces of a path that are no steps do not matter before a name. Two paths that have the same
steps and end in a name lead to the same, whatever links are on the way.
-/

namespace LocaleTidy.FileTree

open Text (split)
open LocaleTidy.Path (isVoid stepNames EndsInStep)

variable {tree : FileTree} {links : Nat} {here : Location} {piece : String}
  {pieces others rest more : List String}

theorem filter_isVoid_of_all {rest : List String} (h : rest.all (· == "") = true) :
    rest.filter (fun piece => !isVoid piece) = [] := by
  rw [List.filter_eq_nil_iff]
  intro piece hpiece
  have hempty : piece = "" := by simpa using List.all_eq_true.mp h piece hpiece
  simp [hempty, isVoid]

/-- Pieces with the same steps, with none at the end that is no step. -/
structure SameSteps (pieces others : List String) : Prop where
  steps : pieces.filter (fun piece => !isVoid piece) = others.filter fun piece => !isVoid piece
  trimmed : ∀ last ∈ pieces.getLast?, isVoid last = false
  trimmedOther : ∀ last ∈ others.getLast?, isVoid last = false

theorem eq_nil_of_trimmed (h : ∀ last ∈ pieces.getLast?, isVoid last = false)
    (hnone : pieces.filter (fun piece => !isVoid piece) = []) : pieces = [] := by
  rcases List.eq_nil_or_concat pieces with rfl | ⟨front, last, rfl⟩
  · rfl
  · rw [List.concat_eq_append] at h hnone
    have hlast := h last (by simp)
    simp [hlast] at hnone

theorem trimmed_of_append (front : List String) (hne : pieces ≠ [])
    (h : ∀ last ∈ (front ++ pieces).getLast?, isVoid last = false) :
    ∀ last ∈ pieces.getLast?, isVoid last = false := by
  intro last hlast
  apply h last
  rw [List.getLast?_append_of_ne_nil _ hne]
  exact hlast

theorem trimmed_of_cons (h : ∀ last ∈ (piece :: rest).getLast?, isVoid last = false) :
    ∀ last ∈ rest.getLast?, isVoid last = false := by
  by_cases hne : rest = []
  · simp [hne]
  · exact trimmed_of_append [piece] hne h

theorem trimmed_of_endsInStep {text : String} (h : EndsInStep text) :
    ∀ last ∈ (split '/' text).getLast?, isVoid last = false := by
  intro last hlast
  obtain ⟨step, hstep, hname⟩ := h
  exact Option.some.inj (hstep.symm.trans hlast) ▸ hname

namespace SameSteps

theorem of_stepNames {text : String} (h : EndsInStep text) :
    SameSteps (split '/' text) (stepNames text) where
  steps := by simp [stepNames, List.filter_filter]
  trimmed := trimmed_of_endsInStep h
  trimmedOther last hlast := by
    simpa using (List.mem_filter.mp (List.mem_of_getLast? hlast)).2

theorem eq_nil_iff (h : SameSteps pieces others) : pieces = [] ↔ others = [] := by
  constructor
  · rintro rfl
    exact eq_nil_of_trimmed h.trimmedOther h.steps.symm
  · rintro rfl
    exact eq_nil_of_trimmed h.trimmed h.steps

theorem of_void (h : SameSteps (piece :: rest) others) (hvoid : isVoid piece = true) :
    SameSteps rest others where
  steps := by simpa [hvoid] using h.steps
  trimmed := trimmed_of_cons h.trimmed
  trimmedOther := h.trimmedOther

/-- The first step comes in both after pieces that are none. -/
theorem of_step (h : SameSteps (piece :: rest) others) (hstep : isVoid piece = false) :
    ∃ voids more, others = voids ++ piece :: more ∧ (∀ void ∈ voids, isVoid void = true) ∧
      SameSteps rest more := by
  have hsteps := h.steps
  rw [List.filter_cons_of_pos (by simp [hstep]), eq_comm, List.filter_eq_cons_iff] at hsteps
  obtain ⟨voids, more, rfl, hvoids, -, hmore⟩ := hsteps
  refine ⟨voids, more, rfl, by simpa using hvoids, hmore.symm, trimmed_of_cons h.trimmed, ?_⟩
  exact trimmed_of_cons (trimmed_of_append voids (by simp) h.trimmedOther)

theorem append (h : SameSteps rest more) (front : List String) (hne : rest ≠ []) :
    SameSteps (front ++ rest) (front ++ more) where
  steps := by rw [List.filter_append, List.filter_append, h.steps]
  trimmed := by
    rw [List.getLast?_append_of_ne_nil _ hne]
    exact h.trimmed
  trimmedOther := by
    rw [List.getLast?_append_of_ne_nil _ fun hnil => hne (h.eq_nil_iff.mpr hnil)]
    exact h.trimmedOther

theorem all_slashes (h : SameSteps rest more) :
    rest.all (· == "") = more.all (· == "") := by
  have hslashes : ∀ {pieces : List String}, (∀ last ∈ pieces.getLast?, isVoid last = false) →
      (pieces.all (· == "") = true ↔ pieces = []) := by
    intro pieces htrimmed
    constructor
    · exact fun hall => eq_nil_of_trimmed htrimmed (filter_isVoid_of_all hall)
    · rintro rfl
      rfl
  rw [Bool.eq_iff_iff, hslashes h.trimmed, hslashes h.trimmedOther, h.eq_nil_iff]

end SameSteps

/-! ### Walks -/

/-- What is left of a path shows in a step only where a link is followed. -/
theorem step_congr (h : SameSteps rest more) (tree : FileTree) (here : Location)
    (piece : String) :
    step tree .use here piece more = step tree .use here piece rest ∨
      ∃ start target, step tree .use here piece rest = .follow start (target ++ rest) ∧
        step tree .use here piece more = .follow start (target ++ more) := by
  have hempty : rest.isEmpty = more.isEmpty := by
    rw [Bool.eq_iff_iff, List.isEmpty_iff, List.isEmpty_iff, h.eq_nil_iff]
  rw [step, step, withoutLook?_use_rest rest]
  cases withoutLook? (tree.permits .enter here) .use here piece rest with
  | some found => exact .inl rfl
  | none =>
      rw [Option.getD_none, Option.getD_none]
      rcases tree.get? (here ++ [piece]) with _ | mode | ⟨bytes, mode⟩ | target
      · exact .inl (by simp only [stepTo, landing, h.all_slashes])
      · exact .inl (by simp only [stepTo, hempty])
      · exact .inl (by simp only [stepTo, landing, hempty])
      · exact .inr ⟨if target.startsWith "/" then [] else here, split '/' target, by simp [stepTo],
          by simp [stepTo]⟩

/-- Pieces that are no steps lead nowhere else, as long as the directory may be entered. -/
theorem walkWithin_voids {voids : List String} (hopened : tree.permits .enter here = true)
    (hvoids : ∀ void ∈ voids, isVoid void = true) (rest : List String) :
    walkWithin tree .use links here (voids ++ rest) = walkWithin tree .use links here rest := by
  induction voids with
  | nil => rfl
  | cons void voids ih =>
      have hrest := ih fun other hother => hvoids other (List.mem_cons_of_mem _ hother)
      rw [List.cons_append, walkWithin_cons, ← hrest]
      have hvoid := hvoids void List.mem_cons_self
      rcases (show void = "" ∨ void = "." by simpa [isVoid] using hvoid) with rfl | rfl
      · simp [step, withoutLook?, goOn]
      · simp [step, withoutLook?, hopened, goOn]

theorem walkWithin_denied {links : Nat} {piece : String} {rest : List String}
    (hopened : tree.permits .enter here = false) (hpiece : piece ≠ "") :
    walkWithin tree purpose links here (piece :: rest) = .error .denied := by
  simp [walkWithin_cons, step, withoutLook?, hopened, hpiece, goOn]

theorem walkWithin_shut (hopened : tree.permits .enter here = false)
    (hslashes : pieces.all (· == "") = false) :
    walkWithin tree .use links here pieces = .error .denied := by
  induction pieces with
  | nil => cases hslashes
  | cons piece rest ih =>
      by_cases hempty : piece = ""
      · subst hempty
        rw [walkWithin_cons]
        simpa [step, withoutLook?, goOn] using ih (by simpa using hslashes)
      · exact walkWithin_denied hopened hempty

/-- What pieces with the same steps have in common before the next step: the directory is shut, or
the next piece is no step, or both walks come to the same step. -/
theorem next_of_sameSteps (h : SameSteps (piece :: rest) others) (tree : FileTree)
    (here : Location) :
    (∀ links, walkWithin tree .use links here (piece :: rest) = .error .denied ∧
      walkWithin tree .use links here others = .error .denied) ∨
    (SameSteps rest others ∧ step tree .use here piece rest = .go here) ∨
    ∃ more, SameSteps rest more ∧ ∀ links, walkWithin tree .use links here others =
      goOn tree .use links more (step tree .use here piece more) := by
  cases hopened : tree.permits .enter here with
  | false =>
      left
      have hslashes : (piece :: rest).all (· == "") = false := by
        rw [← Bool.not_eq_true]
        intro hall
        cases eq_nil_of_trimmed h.trimmed (filter_isVoid_of_all hall)
      exact fun links => ⟨walkWithin_shut hopened hslashes,
        walkWithin_shut hopened (h.all_slashes ▸ hslashes)⟩
  | true =>
      right
      cases hvoid : isVoid piece with
      | true =>
          refine .inl ⟨h.of_void hvoid, ?_⟩
          rcases (show piece = "" ∨ piece = "." by simpa [isVoid] using hvoid) with rfl | rfl
          · simp [step, withoutLook?]
          · simp [step, withoutLook?, hopened]
      | false =>
          obtain ⟨voids, more, rfl, hvoids, hmore⟩ := h.of_step hvoid
          refine .inr ⟨more, hmore, fun links => ?_⟩
          rw [walkWithin_voids hopened hvoids, walkWithin_cons]

/-- Walks over pieces with the same steps lead to the same if those behind links do. -/
theorem walkWithin_congr_of_follow (h : SameSteps pieces others)
    (hfollow : ∀ start rest more, SameSteps rest more →
      goOn tree .use links more (.follow start more) =
        goOn tree .use links rest (.follow start rest)) :
    walkWithin tree .use links here others = walkWithin tree .use links here pieces := by
  induction pieces generalizing here others with
  | nil => rw [h.eq_nil_iff.mp rfl]
  | cons piece rest ih =>
      rcases next_of_sameSteps h tree here with hshut | ⟨hrest, hgo⟩ | ⟨more, hmore, hothers⟩
      · rw [(hshut links).1, (hshut links).2]
      · rw [walkWithin_cons, hgo]
        exact ih hrest
      · rw [hothers, walkWithin_cons]
        rcases step_congr hmore tree here piece with hsame | ⟨start, target, hstep, hother⟩
        · rw [hsame]
          cases step tree .use here piece rest with
          | stop result => rfl
          | go there => exact ih hmore
          | follow start pieces => rfl
        · rw [hstep, hother]
          by_cases hnil : rest = []
          · rw [hnil, hmore.eq_nil_iff.mp hnil]
          · exact hfollow start _ _ (hmore.append target hnil)

theorem walkWithin_congr (tree : FileTree) (links : Nat) (here : Location)
    (h : SameSteps pieces others) :
    walkWithin tree .use links here others = walkWithin tree .use links here pieces := by
  induction links generalizing here pieces others with
  | zero => exact walkWithin_congr_of_follow h fun _ _ _ _ => rfl
  | succ links ih => exact walkWithin_congr_of_follow h fun start _ _ hmore => ih start hmore

/-! ### Paths -/

variable {path twin : Path}

theorem checkForm_eq_ok {path : Path} :
    checkForm path = .ok () ↔ path.text ≠ "" ∧ '\x00' ∉ path.text.toList ∧
      path.text.utf8ByteSize < maxPathBytes := by
  unfold checkForm
  split
  · simp_all
  · split
    · simp_all
    · split <;> simp_all

theorem text_ne_of_endsInStep {text : String} (h : EndsInStep text) : text ≠ "" := by
  rintro rfl
  revert h
  simp [EndsInStep, split, Text.pieces, isVoid]

/-- Paths with the same steps that end in a step are spellings of one path. -/
structure Respells (path twin : Path) : Prop where
  components : path.components = twin.components
  ends : EndsInStep path.text
  endsTwin : EndsInStep twin.text

theorem Respells.symm (h : Respells path twin) : Respells twin path :=
  ⟨h.components.symm, h.endsTwin, h.ends⟩

theorem Respells.sameSteps (h : Respells path twin) :
    SameSteps (split '/' path.text) (split '/' twin.text) where
  steps := by
    have hsteps := Path.stepNames_eq path
    rwa [h.components, ← Path.stepNames_eq twin] at hsteps
  trimmed := trimmed_of_endsInStep h.ends
  trimmedOther := trimmed_of_endsInStep h.endsTwin

theorem Respells.start_eq (h : Respells path twin) (tree : FileTree) :
    tree.start twin = tree.start path := by
  have habsolute : twin.isAbsolute = path.isAbsolute := by
    rw [Bool.eq_iff_iff, Path.isAbsolute_iff, Path.isAbsolute_iff, h.components]
  rw [start, start, habsolute]

theorem Respells.walkWithin_eq (h : Respells path twin) (tree : FileTree) (links : Nat) :
    walkWithin tree .use links (tree.start twin) (split '/' twin.text) =
      walkWithin tree .use links (tree.start path) (split '/' path.text) := by
  rw [h.start_eq, walkWithin_congr tree links _ h.sameSteps]

/-- Spellings of one path lead to the same, unless one of them is too long. -/
theorem Respells.find_eq_ok (h : Respells path twin)
    (hshort : twin.text.utf8ByteSize < maxPathBytes) {place : Location} {entry : Entry}
    (hfind : tree.find path = .ok (place, entry)) : tree.find twin = .ok (place, entry) := by
  rw [FileTree.find_eq_ok, resolve_eq_ok, checkForm_eq_ok] at hfind ⊢
  obtain ⟨⟨-, hzero, -⟩, hwalk⟩ := hfind
  refine ⟨⟨text_ne_of_endsInStep h.endsTwin, ?_, hshort⟩, by rw [h.walkWithin_eq, hwalk]⟩
  rwa [Path.mem_toList_iff_stepNames (by decide) (by decide), Path.stepNames_eq, ← h.components,
    ← Path.stepNames_eq, ← Path.mem_toList_iff_stepNames (by decide) (by decide)]

end LocaleTidy.FileTree
