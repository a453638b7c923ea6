import Mathlib.Algebra.Order.BigOperators.Group.List
import Mathlib.Algebra.Order.Ring.Nat
import LocaleTidy.Proofs.Usage.Classification

/-!
# Keys that are decided side by side

Several keys may be under way at once. Each is decided, counted, reported and put into its place, in
that order, and the steps for different keys come in any order; but from the count of a decision to
its report a lock is held. However the steps are interleaved, the board ends as if the decisions had
come in one after the other, in the order in which they were counted.
-/

namespace LocaleTidy

/-- How far a key is. -/
inductive Stage where
  | waiting
  | decided (verdict : Verdict)
  /-- The decision is counted, and the lock is held until the count is reported. -/
  | counted (verdict : Verdict)
  | reported (verdict : Verdict)
  | placed
  deriving DecidableEq, Repr

/-- A classification with several keys under way. -/
structure Workshop where
  stages : List Stage
  /-- The index of the key that holds the lock. -/
  holder : Option Nat
  board : Board

namespace Workshop

def start (total : Nat) : Workshop :=
  ⟨List.replicate total .waiting, none, .empty total⟩

/-- The decision for the key at an index is there. -/
def decide (workshop : Workshop) (index : Nat) (verdict : Verdict) : Workshop :=
  { workshop with stages := workshop.stages.set index (.decided verdict) }

/-- The key at an index takes the lock, and its decision is counted. -/
def count (workshop : Workshop) (index : Nat) (verdict : Verdict) : Workshop where
  stages := workshop.stages.set index (.counted verdict)
  holder := some index
  board := { workshop.board with done := workshop.board.done + 1 }

/-- The count is reported as it stands, and the lock is free. -/
def report (workshop : Workshop) (index : Nat) (verdict : Verdict) : Workshop where
  stages := workshop.stages.set index (.reported verdict)
  holder := none
  board :=
    { workshop.board with
      reports := workshop.board.reports ++ [⟨workshop.board.done, workshop.board.slots.length⟩] }

/-- The verdict is put into the place of its key. -/
def place (workshop : Workshop) (index : Nat) (verdict : Verdict) : Workshop :=
  { workshop with
    stages := workshop.stages.set index .placed
    board := { workshop.board with slots := workshop.board.slots.set index (some verdict) } }

/-- The next step for the key at an index. There is none if it takes the lock and another key has
it, or if the verdict is in its place. -/
def advance? (corpus : Corpus) (options : UsageOptions) (keys : List String) (workshop : Workshop)
    (index : Nat) : Option Workshop :=
  match workshop.stages[index]? with
  | some .waiting => keys[index]?.map fun key => workshop.decide index (corpus.decide options key)
  | some (.decided verdict) =>
      if workshop.holder.isSome then none else some (workshop.count index verdict)
  | some (.counted verdict) => some (workshop.report index verdict)
  | some (.reported verdict) => some (workshop.place index verdict)
  | some .placed | none => none

/-- Carries out steps for the keys at some indices, from the beginning on. -/
def run? (corpus : Corpus) (options : UsageOptions) (keys : List String) (turns : List Nat) :
    Option Workshop :=
  turns.foldlM (advance? corpus options keys) (start keys.length)

def Finished (workshop : Workshop) : Prop :=
  ∀ stage ∈ workshop.stages, stage = .placed

instance (workshop : Workshop) : Decidable workshop.Finished :=
  inferInstanceAs (Decidable (∀ stage ∈ workshop.stages, stage = .placed))

/-- What a step for the key at an index can be. -/
inductive Advances (corpus : Corpus) (options : UsageOptions) (keys : List String)
    (workshop : Workshop) (index : Nat) : Workshop → Prop where
  | decide {key : String} (hkey : keys[index]? = some key)
      (hstage : workshop.stages[index]? = some .waiting) :
      Advances corpus options keys workshop index
        (workshop.decide index (corpus.decide options key))
  | count {verdict : Verdict} (hstage : workshop.stages[index]? = some (.decided verdict))
      (hfree : workshop.holder = none) :
      Advances corpus options keys workshop index (workshop.count index verdict)
  | report {verdict : Verdict} (hstage : workshop.stages[index]? = some (.counted verdict)) :
      Advances corpus options keys workshop index (workshop.report index verdict)
  | place {verdict : Verdict} (hstage : workshop.stages[index]? = some (.reported verdict)) :
      Advances corpus options keys workshop index (workshop.place index verdict)

theorem advance?_eq_some_iff {corpus : Corpus} {options : UsageOptions} {keys : List String}
    {workshop next : Workshop} {index : Nat} :
    workshop.advance? corpus options keys index = some next ↔
      Advances corpus options keys workshop index next := by
  constructor
  · intro h
    unfold advance? at h
    split at h
    case h_1 hstage =>
      obtain ⟨key, hkey, rfl⟩ := Option.map_eq_some_iff.mp h
      exact .decide hkey hstage
    case h_2 verdict hstage =>
      split at h
      · cases h
      · rename_i hfree
        obtain rfl := Option.some.inj h
        exact .count hstage (by simpa using hfree)
    case h_3 verdict hstage =>
      obtain rfl := Option.some.inj h
      exact .report hstage
    case h_4 verdict hstage =>
      obtain rfl := Option.some.inj h
      exact .place hstage
    case h_5 => cases h
    case h_6 => cases h
  · intro h
    cases h with
    | decide hkey hstage => simp [advance?, hstage, hkey]
    | count hstage hfree => simp [advance?, hstage, hfree]
    | report hstage => simp [advance?, hstage]
    | place hstage => simp [advance?, hstage]

end Workshop

/-- How many steps have been carried out for a key. -/
def Stage.rank : Stage → Nat
  | .waiting => 0
  | .decided _ => 1
  | .counted _ => 2
  | .reported _ => 3
  | .placed => 4

/-- What the stage of a key says: its verdict, whether the decision has been counted, and whether
the key holds the lock. -/
def Stage.Means (verdict : Verdict) (isCounted holds : Prop) : Stage → Prop
  | .waiting => ¬ isCounted ∧ ¬ holds
  | .decided found => found = verdict ∧ ¬ isCounted ∧ ¬ holds
  | .counted found => found = verdict ∧ isCounted ∧ holds
  | .reported found => found = verdict ∧ isCounted ∧ ¬ holds
  | .placed => isCounted ∧ ¬ holds

theorem Stage.means_congr {verdict : Verdict} {isCounted holds isCounted' holds' : Prop}
    {stage : Stage} (hcounted : isCounted' ↔ isCounted) (hholds : holds' ↔ holds)
    (h : stage.Means verdict isCounted holds) : stage.Means verdict isCounted' holds' := by
  rwa [propext hcounted, propext hholds]

namespace Workshop

variable {corpus : Corpus} {options : UsageOptions} {keys : List String} {workshop next : Workshop}
  {order : List Nat} {index : Nat}

/-- What holds of a classification under way after the decisions at some indices were counted, in
this order. Only the report of the last one may still be due. -/
structure Underway (corpus : Corpus) (options : UsageOptions) (keys : List String)
    (order : List Nat) (workshop : Workshop) : Prop where
  nodup : order.Nodup
  inBounds : ∀ index ∈ order, index < keys.length
  length : workshop.stages.length = keys.length
  done : workshop.board.done = order.length
  reports : workshop.board.reports ++
      (if workshop.holder.isSome then [⟨order.length, keys.length⟩] else []) =
    Corpus.reportsUpTo order.length keys.length
  slots : workshop.board.slots = keys.mapIdx fun index key =>
    if workshop.stages[index]? = some .placed then some (corpus.decide options key) else none
  holder : ∀ index ∈ workshop.holder, index ∈ order
  means : ∀ index key (stage : Stage), keys[index]? = some key →
    workshop.stages[index]? = some stage →
    stage.Means (corpus.decide options key) (index ∈ order) (workshop.holder = some index)

theorem underway_start : Underway corpus options keys [] (start keys.length) where
  nodup := .nil
  inBounds := by simp
  length := List.length_replicate
  done := rfl
  reports := rfl
  slots := by
    refine List.ext_getElem ?_ fun index _ _ => ?_
    · simp [start, Board.empty]
    · simp [start, Board.empty, List.getElem?_replicate]
  holder := by simp [start]
  means index key stage _ hstage := by
    obtain ⟨-, rfl⟩ : index < keys.length ∧ Stage.waiting = stage := by
      simpa [start, List.getElem?_replicate] using hstage
    simp [Stage.Means, start]

theorem Underway.exists_key (h : Underway corpus options keys order workshop) {stage : Stage}
    (hstage : workshop.stages[index]? = some stage) :
    ∃ key, keys[index]? = some key ∧
      stage.Means (corpus.decide options key) (index ∈ order) (workshop.holder = some index) := by
  have hindex : index < keys.length := by
    rw [← h.length]
    exact (List.getElem?_eq_some_iff.mp hstage).1
  have hkey := List.getElem?_eq_getElem hindex
  exact ⟨_, hkey, h.means index _ stage hkey hstage⟩

/-- Where the stage of one key changes, the stages of the others mean what they meant as long as
the same others are counted and hold the lock. -/
theorem Underway.means_set (h : Underway corpus options keys order workshop)
    {later : List Nat} {holder : Option Nat} {stage : Stage}
    (hlater : ∀ other, other ≠ index → (other ∈ later ↔ other ∈ order))
    (hholder : ∀ other, other ≠ index → (holder = some other ↔ workshop.holder = some other))
    (hstage : ∀ key, keys[index]? = some key →
      stage.Means (corpus.decide options key) (index ∈ later) (holder = some index)) :
    ∀ other key (found : Stage), keys[other]? = some key →
      (workshop.stages.set index stage)[other]? = some found →
      found.Means (corpus.decide options key) (other ∈ later) (holder = some other) := by
  intro other key found hkey hfound
  by_cases hother : other = index
  · subst hother
    have hbound : other < workshop.stages.length := by
      rw [h.length]
      exact (List.getElem?_eq_some_iff.mp hkey).1
    rw [List.getElem?_set_self hbound] at hfound
    exact Option.some.inj hfound ▸ hstage key hkey
  · rw [List.getElem?_set_ne (Ne.symm hother)] at hfound
    exact Stage.means_congr (hlater other hother) (hholder other hother)
      (h.means other key found hkey hfound)

/-- A stage between the first one and the last one changes nothing about the places. -/
theorem Underway.slots_set (h : Underway corpus options keys order workshop) {stage : Stage}
    (hstage : stage ≠ .placed) (hbefore : workshop.stages[index]? ≠ some .placed) :
    workshop.board.slots = keys.mapIdx fun other key =>
      if (workshop.stages.set index stage)[other]? = some .placed then
        some (corpus.decide options key)
      else none := by
  rw [h.slots]
  refine List.ext_getElem (by simp) fun other hother _ => ?_
  have hother : other < workshop.stages.length := by simpa [h.length] using hother
  by_cases heq : other = index
  · subst heq
    simp [hbefore, hstage, List.getElem?_set_self hother]
  · simp [List.getElem?_set_ne (Ne.symm heq)]

theorem Underway.length_slots (h : Underway corpus options keys order workshop) :
    workshop.board.slots.length = keys.length := by
  simp [h.slots]

/-! ### Steps -/

section Steps

variable (h : Underway corpus options keys order workshop) {verdict : Verdict}

include h

theorem Underway.decide {key : String} (hkey : keys[index]? = some key)
    (hstage : workshop.stages[index]? = some .waiting) :
    Underway corpus options keys order
      (workshop.decide index (corpus.decide options key)) := by
  obtain ⟨hnot, hfree⟩ := h.means index key _ hkey hstage
  exact { h with
    length := by simp [Workshop.decide, h.length]
    slots := h.slots_set nofun (by simp [hstage])
    means := h.means_set (fun _ _ => Iff.rfl) (fun _ _ => Iff.rfl) fun other hother => by
      obtain rfl := Option.some.inj (hkey.symm.trans hother)
      exact ⟨rfl, hnot, hfree⟩ }

/-- A decision that takes the free lock is the next one in the order. -/
theorem Underway.count (hstage : workshop.stages[index]? = some (.decided verdict))
    (hfree : workshop.holder = none) :
    Underway corpus options keys (order ++ [index]) (workshop.count index verdict) := by
  obtain ⟨key, hkey, rfl, hnot, -⟩ := h.exists_key hstage
  have hreports : workshop.board.reports = Corpus.reportsUpTo order.length keys.length := by
    simpa [hfree] using h.reports
  constructor
  case nodup =>
    refine List.nodup_append.mpr
      ⟨h.nodup, List.pairwise_singleton _ _, fun other hother last hlast => ?_⟩
    rintro rfl
    exact hnot (List.mem_singleton.mp hlast ▸ hother)
  case inBounds =>
    intro other hother
    rcases List.mem_append.mp hother with hmem | hlast
    · exact h.inBounds other hmem
    · rw [List.mem_singleton.mp hlast]
      exact (List.getElem?_eq_some_iff.mp hkey).1
  case length => simp [Workshop.count, h.length]
  case done => simp [Workshop.count, h.done]
  case reports => simp [Workshop.count, hreports, Corpus.reportsUpTo_succ]
  case slots => exact h.slots_set nofun (by simp [hstage])
  case holder => simp [Workshop.count]
  case means =>
    refine h.means_set (fun other hother => by simp [hother]) (fun other hother => ?_)
      fun other hother => ?_
    · simp [Workshop.count, hfree, Ne.symm hother]
    · obtain rfl := Option.some.inj (hkey.symm.trans hother)
      exact ⟨rfl, by simp, rfl⟩

theorem Underway.report (hstage : workshop.stages[index]? = some (.counted verdict)) :
    Underway corpus options keys order (workshop.report index verdict) := by
  obtain ⟨key, hkey, rfl, hcounted, hholds⟩ := h.exists_key hstage
  exact { h with
    length := by simp [Workshop.report, h.length]
    reports := by simpa [Workshop.report, hholds, h.done, h.length_slots] using h.reports
    slots := h.slots_set nofun (by simp [hstage])
    holder := nofun
    means := by
      refine h.means_set (fun _ _ => Iff.rfl) (fun other hother => ?_) fun other hother => ?_
      · simp [Workshop.report, hholds, Ne.symm hother]
      · obtain rfl := Option.some.inj (hkey.symm.trans hother)
        exact ⟨rfl, hcounted, nofun⟩ }

theorem Underway.place (hstage : workshop.stages[index]? = some (.reported verdict)) :
    Underway corpus options keys order (workshop.place index verdict) := by
  obtain ⟨key, hkey, rfl, hcounted, hfree⟩ := h.exists_key hstage
  exact { h with
    length := by simp [Workshop.place, h.length]
    slots := by
      refine List.ext_getElem (by simp [Workshop.place, h.length_slots]) fun other hother _ => ?_
      have hother : other < workshop.stages.length := by
        simpa [Workshop.place, h.length, h.length_slots] using hother
      by_cases heq : index = other
      · subst heq
        obtain ⟨hbound, hkey⟩ := List.getElem?_eq_some_iff.mp hkey
        simp [Workshop.place, List.getElem?_set_self hother, hkey]
      · simp [Workshop.place, List.getElem_set_ne heq, List.getElem?_set_ne heq, h.slots]
    means := h.means_set (fun _ _ => Iff.rfl) (fun _ _ => Iff.rfl) fun _ _ => ⟨hcounted, hfree⟩ }

/-- A step counts the decision for its key or none. -/
theorem Underway.advance (hnext : Advances corpus options keys workshop index next) :
    Underway corpus options keys order next ∨
      Underway corpus options keys (order ++ [index]) next := by
  cases hnext with
  | decide hkey hstage => exact .inl (h.decide hkey hstage)
  | count hstage hfree => exact .inr (h.count hstage hfree)
  | report hstage => exact .inl (h.report hstage)
  | place hstage => exact .inl (h.place hstage)

/-- As long as some verdict is not in its place, a step can be carried out. -/
theorem Underway.exists_advances (hunfinished : ¬ workshop.Finished) :
    ∃ index next, Advances corpus options keys workshop index next := by
  cases hholder : workshop.holder with
  | some index =>
      -- the count of the key that holds the lock can be reported
      have hindex : index < workshop.stages.length := by
        rw [h.length]
        exact h.inBounds index (h.holder index hholder)
      have hstage := List.getElem?_eq_getElem hindex
      obtain ⟨key, -, hmeans⟩ := h.exists_key hstage
      generalize workshop.stages[index] = stage at hstage hmeans
      cases stage with
      | counted verdict => exact ⟨index, _, .report hstage⟩
      | waiting => exact (hmeans.2 hholder).elim
      | decided verdict => exact (hmeans.2.2 hholder).elim
      | reported verdict => exact (hmeans.2.2 hholder).elim
      | placed => exact (hmeans.2 hholder).elim
  | none =>
      -- any key that is left can go on
      obtain ⟨stage, hmem, hne⟩ : ∃ stage ∈ workshop.stages, stage ≠ .placed := by
        simpa [Finished] using hunfinished
      obtain ⟨index, hstage⟩ := List.mem_iff_getElem?.mp hmem
      obtain ⟨key, hkey, hmeans⟩ := h.exists_key hstage
      cases stage with
      | waiting => exact ⟨index, _, .decide hkey hstage⟩
      | decided verdict => exact ⟨index, _, .count hstage hholder⟩
      | counted verdict => cases hholder.symm.trans hmeans.2.2
      | reported verdict => exact ⟨index, _, .place hstage⟩
      | placed => exact (hne rfl).elim

theorem Underway.board_eq (hfinished : workshop.Finished) :
    order.Perm (List.range keys.length) ∧
      workshop.board = corpus.classifyIn options keys order := by
  have hplaced : ∀ index < keys.length, workshop.stages[index]? = some .placed := by
    intro index hindex
    rw [← h.length] at hindex
    rw [List.getElem?_eq_getElem hindex, hfinished _ (List.getElem_mem hindex)]
  have hmeans : ∀ index < keys.length, index ∈ order ∧ workshop.holder ≠ some index :=
    fun index hindex =>
      h.means index _ _ (List.getElem?_eq_getElem hindex) (hplaced index hindex)
  have hfree : workshop.holder = none := by
    refine Option.eq_none_iff_forall_ne_some.mpr fun index hholder => ?_
    exact (hmeans index (h.inBounds index (h.holder index hholder))).2 hholder
  have horder : ∀ index, index ∈ order ↔ index ∈ List.range keys.length := fun index =>
    ⟨fun hmem => List.mem_range.mpr (h.inBounds index hmem),
      fun hmem => (hmeans index (List.mem_range.mp hmem)).1⟩
  refine ⟨(List.perm_ext_iff_of_nodup h.nodup List.nodup_range).mpr horder, ?_⟩
  have hdecided : Corpus.HasDecided corpus options keys order workshop.board := by
    refine ⟨h.done, by simpa [hfree] using h.reports, ?_⟩
    rw [h.slots]
    refine List.ext_getElem (by simp) fun index hindex _ => ?_
    have hindex : index < keys.length := by simpa using hindex
    simp [hplaced index hindex, (hmeans index hindex).1]
  exact hdecided.board_eq (Corpus.hasDecided_classifyIn h.inBounds)

end Steps

/-! ## Runs -/

def work (workshop : Workshop) : Nat :=
  (workshop.stages.map Stage.rank).sum

theorem sum_rank_set {stages : List Stage} {before : Stage} (after : Stage)
    (h : stages[index]? = some before) :
    ((stages.set index after).map Stage.rank).sum + before.rank =
      (stages.map Stage.rank).sum + after.rank := by
  induction stages generalizing index with
  | nil => cases h
  | cons first rest ih =>
      cases index with
      | zero =>
          obtain rfl : first = before := by simpa using h
          simp only [List.set_cons_zero, List.map_cons, List.sum_cons]
          omega
      | succ index =>
          have hrest := ih (show rest[index]? = some before by simpa using h)
          simp only [List.set_cons_succ, List.map_cons, List.sum_cons]
          omega

theorem Advances.work_eq (h : Advances corpus options keys workshop index next) :
    next.work = workshop.work + 1 := by
  have hrank : ∀ {before after : Stage}, workshop.stages[index]? = some before →
      after.rank = before.rank + 1 →
      ((workshop.stages.set index after).map Stage.rank).sum = workshop.work + 1 := by
    intro before after hstage hafter
    have hsum := sum_rank_set after hstage
    rw [work]
    omega
  cases h with
  | decide _ hstage => exact hrank hstage rfl
  | count hstage _ => exact hrank hstage rfl
  | report hstage => exact hrank hstage rfl
  | place hstage => exact hrank hstage rfl

theorem exists_underway {turns : List Nat}
    (hrun : run? corpus options keys turns = some workshop) :
    workshop.work = turns.length ∧ ∃ order, Underway corpus options keys order workshop := by
  induction turns using List.reverseRecOn generalizing workshop with
  | nil =>
      obtain rfl := Option.some.inj hrun
      exact ⟨by simp [work, start, Stage.rank], [], underway_start⟩
  | append_singleton turns index ih =>
      simp only [run?, List.foldlM_append, List.foldlM_cons, List.foldlM_nil, Option.bind_eq_bind,
        Option.bind_eq_some_iff] at hrun
      obtain ⟨before, hbefore, next, hnext, hlast⟩ := hrun
      obtain rfl := Option.some.inj hlast
      rw [advance?_eq_some_iff] at hnext
      obtain ⟨hwork, order, horder⟩ := ih hbefore
      refine ⟨by simp [hnext.work_eq, hwork], ?_⟩
      rcases horder.advance hnext with hsame | hmore
      · exact ⟨_, hsame⟩
      · exact ⟨_, hmore⟩

theorem Underway.work_le (h : Underway corpus options keys order workshop) :
    workshop.work ≤ 4 * keys.length := by
  have hrank : ∀ rank ∈ workshop.stages.map Stage.rank, rank ≤ 4 := by
    intro rank hmem
    obtain ⟨stage, -, rfl⟩ := List.mem_map.mp hmem
    cases stage <;> simp [Stage.rank]
  have hsum := List.sum_le_card_nsmul _ 4 hrank
  simpa [work, h.length, Nat.mul_comm] using hsum

end Workshop

namespace Corpus

/-- Keys are classified alike in whatever order their decisions come in: the reports count them up
to their number, and the verdicts are those of the keys, each decided for itself. Keys that are
decided side by side never come to a stop before all verdicts are in their places, which takes four
steps for each key, and the board is then that of decisions which came in one after the other. -/
theorem classified_in_any_order (corpus : Corpus) (options : UsageOptions) (keys : List String) :
    (∀ schedule : List Nat, schedule.Perm (List.range keys.length) →
      (corpus.classifyIn options keys schedule).reports =
          (List.range keys.length).map (fun index => ⟨index + 1, keys.length⟩) ∧
        (corpus.classifyIn options keys schedule).verdicts = keys.map (corpus.decide options)) ∧
    ∀ turns workshop, Workshop.run? corpus options keys turns = some workshop →
      turns.length ≤ 4 * keys.length ∧
        (¬ workshop.Finished →
          ∃ index next, workshop.advance? corpus options keys index = some next) ∧
        (workshop.Finished → ∃ schedule : List Nat, schedule.Perm (List.range keys.length) ∧
          workshop.board = corpus.classifyIn options keys schedule) := by
  refine ⟨fun schedule hperm => ?_, fun turns workshop hrun => ?_⟩
  · have hdecided := @hasDecided_classifyIn corpus options keys schedule fun index hindex =>
      List.mem_range.mp (hperm.mem_iff.mp hindex)
    refine ⟨?_, hdecided.verdicts_eq fun index hindex =>
      hperm.mem_iff.mpr (List.mem_range.mpr hindex)⟩
    rw [hdecided.reports, hperm.length_eq, List.length_range]
    rfl
  · obtain ⟨hwork, order, hunderway⟩ := Workshop.exists_underway hrun
    refine ⟨hwork ▸ hunderway.work_le, fun hunfinished => ?_, fun hfinished =>
      ⟨order, hunderway.board_eq hfinished⟩⟩
    simpa only [Workshop.advance?_eq_some_iff] using hunderway.exists_advances hunfinished

/-- Three keys, of which the last one is counted first, while the others are under way. -/
theorem classified_last_first :
    let corpus : Corpus := .ofFiles [⟨⟨"app.ts"⟩, "'y'; t('x')", false⟩]
    let options : UsageOptions := ⟨⟨"t", [], Pattern.defaultLimit⟩, [], true⟩
    let keys := ["a.x", "b", "y"]
    ((corpus.classifyIn options keys [2, 0, 1]).reports = [⟨1, 3⟩, ⟨2, 3⟩, ⟨3, 3⟩] ∧
        (corpus.classifyIn options keys [2, 0, 1]).verdicts = keys.map (corpus.decide options)) ∧
      ∃ workshop, Workshop.run? corpus options keys [2, 0, 2, 2, 0, 2, 1, 0, 1, 1, 1, 0] =
          some workshop ∧ workshop.Finished ∧
        ∃ schedule : List Nat, schedule.Perm (List.range 3) ∧
          workshop.board = corpus.classifyIn options keys schedule := by
  intro corpus options keys
  obtain ⟨hschedules, hruns⟩ := classified_in_any_order corpus options keys
  have hrun : ((Workshop.run? corpus options keys [2, 0, 2, 2, 0, 2, 1, 0, 1, 1, 1, 0]).any
      fun workshop => workshop.Finished) = true := by
    decide +kernel
  obtain ⟨workshop, hworkshop, hfinished⟩ := Option.any_eq_true _ _ |>.mp hrun
  have hfinished : workshop.Finished := of_decide_eq_true hfinished
  exact ⟨hschedules [2, 0, 1] (by decide), workshop, hworkshop, hfinished,
    (hruns _ workshop hworkshop).2.2 hfinished⟩

end Corpus

end LocaleTidy
