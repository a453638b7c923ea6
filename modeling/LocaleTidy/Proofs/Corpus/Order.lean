import Mathlib.Data.List.Forall2
import Mathlib.Data.List.Sort
import Mathlib.Data.List.TakeWhile
import LocaleTidy.Proofs.Corpus.Unchanged
import LocaleTidy.Proofs.Path.Order

/-!
# The order of source files

Source files are in the order of their steps, each once, whatever the order was in which the walks
came upon them. The steps of a directory that all of them lie below do not count.
-/

namespace LocaleTidy.Corpus

open LocaleTidy.Path (Component keyOf)

variable {items others : List (Path × Bool)} {item other : Path × Bool}

theorem not_before_iff {left right : Path} :
    (!right.before left) = true ↔ keyOf left.components ≤ keyOf right.components := by
  rw [Bool.not_eq_true', ← Bool.not_eq_true, Path.before_iff, not_lt]

theorem not_before_trans (a b c : Path × Bool) (hab : (!b.1.before a.1) = true)
    (hbc : (!c.1.before b.1) = true) : (!c.1.before a.1) = true := by
  rw [not_before_iff] at hab hbc ⊢
  exact hab.trans hbc

theorem not_before_total (a b : Path × Bool) :
    ((!b.1.before a.1) || (!a.1.before b.1)) = true := by
  rw [Bool.or_eq_true, not_before_iff, not_before_iff]
  exact le_total _ _

theorem pairwise_mergeSort_paths (items : List (Path × Bool)) :
    (items.mergeSort fun left right => !right.1.before left.1).Pairwise fun left right =>
      keyOf left.1.components ≤ keyOf right.1.components :=
  (List.pairwise_mergeSort not_before_trans not_before_total items).imp not_before_iff.mp

theorem mem_dropWhile_iff {path : Path}
    (h : items.Pairwise fun left right =>
      keyOf left.1.components < keyOf right.1.components) :
    item ∈ items.dropWhile (fun other => !path.before other.1) ↔
      item ∈ items ∧ keyOf path.components < keyOf item.1.components := by
  induction items with
  | nil => simp
  | cons head rest ih =>
      by_cases hbefore : path.before head.1 = true
      · rw [List.dropWhile_cons_of_neg (by simp [hbefore])]
        refine (and_iff_left_of_imp fun hmem => ?_).symm
        rw [Path.before_iff] at hbefore
        rcases List.mem_cons.mp hmem with rfl | hrest
        · exact hbefore
        · exact hbefore.trans (List.rel_of_pairwise_cons h hrest)
      · rw [List.dropWhile_cons_of_pos (by simp [hbefore]), ih h.of_cons, List.mem_cons]
        rw [Path.before_iff] at hbefore
        refine and_congr_left fun hlt => (or_iff_right ?_).symm
        rintro rfl
        exact hbefore hlt

theorem pairwise_firstSpellings
    (h : items.Pairwise fun left right =>
      keyOf left.1.components ≤ keyOf right.1.components) :
    (firstSpellings items).Pairwise fun left right =>
      keyOf left.1.components < keyOf right.1.components := by
  induction items with
  | nil => exact .nil
  | cons item rest ih =>
      have hrest := ih h.of_cons
      exact .cons (fun other hother => ((mem_dropWhile_iff hrest).mp hother).2)
        (hrest.sublist (List.dropWhile_sublist _))

def sameSteps (item other : Path × Bool) : Bool :=
  other.1.components == item.1.components

theorem sameSteps_iff : sameSteps item other = true ↔ other.1.components = item.1.components :=
  beq_iff_eq

/-- Of items in order, those stay that come first among the items with the same steps. -/
theorem mem_firstSpellings_iff
    (h : items.Pairwise fun left right =>
      keyOf left.1.components ≤ keyOf right.1.components) :
    item ∈ firstSpellings items ↔ items.find? (sameSteps item) = some item := by
  induction items with
  | nil => simp [firstSpellings]
  | cons head rest ih =>
      have hrest := pairwise_firstSpellings h.of_cons
      rw [firstSpellings, List.mem_cons, mem_dropWhile_iff hrest]
      by_cases hsame : sameSteps item head = true
      · rw [List.find?_cons_of_pos hsame, Option.some.injEq, eq_comm]
        refine or_iff_left fun hlater => ?_
        exact hlater.2.ne (by rw [sameSteps_iff.mp hsame])
      · rw [List.find?_cons_of_neg hsame, ← ih h.of_cons]
        rw [sameSteps_iff] at hsame
        constructor
        · rintro (rfl | ⟨hmem, -⟩)
          · exact (hsame rfl).elim
          · exact hmem
        · intro hmem
          have hle := List.rel_of_pairwise_cons h (mem_of_mem_firstSpellings hmem)
          exact .inr ⟨hmem, hle.lt_of_ne fun heq => hsame (Path.keyOf_injective heq)⟩

/-- Items with the same steps keep their order when all are put in order. -/
theorem filter_mergeSort_paths (item : Path × Bool) (items : List (Path × Bool)) :
    (items.mergeSort fun left right => !right.1.before left.1).filter (sameSteps item) =
      items.filter (sameSteps item) := by
  have hsame : (items.filter (sameSteps item)).Pairwise fun left right =>
      (!right.1.before left.1) = true := by
    refine List.pairwise_of_forall_mem_list fun left hleft right hright => ?_
    have hleft := sameSteps_iff.mp (List.mem_filter.mp hleft).2
    have hright := sameSteps_iff.mp (List.mem_filter.mp hright).2
    rw [not_before_iff, hleft, hright]
  have hsub := (List.sublist_mergeSort not_before_trans not_before_total hsame
    List.filter_sublist).filter (sameSteps item)
  simp only [List.filter_filter, Bool.and_self] at hsub
  exact (hsub.eq_of_length ((List.mergeSort_perm items _).filter _).length_eq.symm).symm

theorem mem_inOrder_iff : item ∈ inOrder items ↔ items.find? (sameSteps item) = some item := by
  rw [inOrder, mem_firstSpellings_iff (pairwise_mergeSort_paths items), ← List.head?_filter,
    filter_mergeSort_paths, List.head?_filter]

theorem pairwise_inOrder (items : List (Path × Bool)) :
    (inOrder items).Pairwise fun left right =>
      keyOf left.1.components < keyOf right.1.components :=
  pairwise_firstSpellings (pairwise_mergeSort_paths items)

theorem filter_sameSteps
    (h : items.Pairwise fun left right =>
      keyOf left.1.components < keyOf right.1.components) (hitem : item ∈ items) :
    items.filter (sameSteps item) = [item] := by
  induction items with
  | nil => cases hitem
  | cons head rest ih =>
      have hlater : ∀ other ∈ rest, other.1.components ≠ head.1.components :=
        fun other hother heq => (List.rel_of_pairwise_cons h hother).ne (by rw [heq])
      rcases List.mem_cons.mp hitem with rfl | hmem
      · rw [List.filter_cons_of_pos (sameSteps_iff.mpr rfl), List.cons.injEq,
          List.filter_eq_nil_iff]
        exact ⟨rfl, fun other hother hsame => hlater other hother (sameSteps_iff.mp hsame)⟩
      · rw [List.filter_cons_of_neg, ih h.of_cons hmem]
        exact fun hsame => hlater item hmem (sameSteps_iff.mp hsame).symm

theorem inOrder_unique (hitem : item ∈ inOrder items) (hother : other ∈ inOrder items)
    (hsame : other.1.components = item.1.components) : other = item := by
  have hmem : other ∈ (inOrder items).filter (sameSteps item) :=
    List.mem_filter.mpr ⟨hother, sameSteps_iff.mpr hsame⟩
  rw [filter_sameSteps (pairwise_inOrder items) hitem] at hmem
  exact List.mem_singleton.mp hmem

theorem exists_mem_inOrder (h : item ∈ items) :
    ∃ first ∈ inOrder items, first.1.components = item.1.components := by
  obtain ⟨first, hfirst⟩ := Option.isSome_iff_exists.mp
    (List.find?_isSome.mpr ⟨item, h, sameSteps_iff.mpr rfl⟩)
  have hsame := sameSteps_iff.mp (List.find?_some hfirst)
  refine ⟨first, mem_inOrder_iff.mpr ?_, hsame⟩
  rw [← hfirst]
  congr 1
  funext other
  rw [sameSteps, sameSteps, hsame]

def orderedSteps (front : List Component) (items : List (Path × Bool)) :
    List (List Component) :=
  (inOrder items).map fun item => item.1.components.drop front.length

variable {front back steps : List Component}

theorem pairwise_orderedSteps
    (h : ∀ item ∈ items, ∃ steps, item.1.components = front ++ steps) :
    (orderedSteps front items).Pairwise fun left right => keyOf left < keyOf right := by
  rw [orderedSteps, List.pairwise_map]
  refine (pairwise_inOrder items).imp_of_mem fun {left right} hleft hright hlt => ?_
  obtain ⟨lefts, hlefts⟩ := h left (mem_of_mem_inOrder hleft)
  obtain ⟨rights, hrights⟩ := h right (mem_of_mem_inOrder hright)
  rw [hlefts, hrights, Path.keyOf_append_lt_iff] at hlt
  simpa [hlefts, hrights] using hlt

theorem mem_orderedSteps (h : ∀ item ∈ items, ∃ steps, item.1.components = front ++ steps) :
    steps ∈ orderedSteps front items ↔ ∃ item ∈ items, item.1.components = front ++ steps := by
  rw [orderedSteps, List.mem_map]
  constructor
  · intro hx
    obtain ⟨item, hitem, rfl⟩ := hx
    obtain ⟨steps, hsteps⟩ := h item (mem_of_mem_inOrder hitem)
    exact ⟨item, mem_of_mem_inOrder hitem, by simp [hsteps]⟩
  · intro hx
    obtain ⟨item, hitem, hsteps⟩ := hx
    obtain ⟨first, hfirst, heq⟩ := exists_mem_inOrder hitem
    exact ⟨first, hfirst, by simp [heq, hsteps]⟩

/-- Each of some items has the steps of another one, below two directories. -/
def MatchedBy (front back : List Component) (items others : List (Path × Bool)) : Prop :=
  ∀ item ∈ items, ∃ steps, item.1.components = front ++ steps ∧
    ∃ twin ∈ others, twin.1.components = back ++ steps

theorem MatchedBy.exists_of_steps (h : MatchedBy front back items others)
    (hitem : ∃ item ∈ items, item.1.components = front ++ steps) :
    ∃ twin ∈ others, twin.1.components = back ++ steps := by
  obtain ⟨item, hmem, hsteps⟩ := hitem
  obtain ⟨more, hmore, twin, htwin, hback⟩ := h item hmem
  exact ⟨twin, htwin, by rw [hback, List.append_cancel_left (hmore.symm.trans hsteps)]⟩

/-- Two lists of paths are in the same order if the steps below two directories are the same in
both, in whatever order they were. -/
theorem forall₂_inOrder (hitems : MatchedBy front back items others)
    (hothers : MatchedBy back front others items) :
    List.Forall₂ (fun item other => item ∈ items ∧ other ∈ others ∧
      ∃ steps, item.1.components = front ++ steps ∧ other.1.components = back ++ steps)
      (inOrder items) (inOrder others) := by
  have hfront : ∀ item ∈ items, ∃ steps, item.1.components = front ++ steps := fun item hitem =>
    (hitems item hitem).imp fun _ h => h.1
  have hback : ∀ item ∈ others, ∃ steps, item.1.components = back ++ steps := fun item hitem =>
    (hothers item hitem).imp fun _ h => h.1
  have : Std.Irrefl fun left right : List Component => keyOf left < keyOf right :=
    ⟨fun _ => lt_irrefl _⟩
  have : Std.Antisymm fun left right : List Component => keyOf left < keyOf right :=
    ⟨fun _ _ hlt hgt => (lt_asymm hlt hgt).elim⟩
  have heq : orderedSteps front items = orderedSteps back others :=
    (pairwise_orderedSteps hfront).eq_of_mem_iff (pairwise_orderedSteps hback) fun steps => by
      rw [mem_orderedSteps hfront, mem_orderedSteps hback]
      exact ⟨hitems.exists_of_steps, hothers.exists_of_steps⟩
  rw [orderedSteps, orderedSteps, ← List.forall₂_eq_eq_eq, List.forall₂_map_left_iff,
    List.forall₂_map_right_iff, List.forall₂_iff_zip] at heq
  refine List.forall₂_iff_zip.mpr ⟨heq.1, fun {item other} hzip => ?_⟩
  obtain ⟨hitem, hother⟩ := List.of_mem_zip hzip
  obtain ⟨steps, hsteps⟩ := hfront item (mem_of_mem_inOrder hitem)
  obtain ⟨more, hmore⟩ := hback other (mem_of_mem_inOrder hother)
  have hdrop : steps = more := by simpa [hsteps, hmore] using heq.2 hzip
  exact ⟨mem_of_mem_inOrder hitem, mem_of_mem_inOrder hother, steps, hsteps, hdrop ▸ hmore⟩

end LocaleTidy.Corpus
