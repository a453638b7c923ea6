import Mathlib.Data.List.Forall2
import LocaleTidy.Corpus.Filter
import LocaleTidy.Proofs.Outcome
import LocaleTidy.Settings.Check

/-!
# Ignored entries

The check of settings reads every ignored entry as a pattern, and the filter reads only those that
are written as one. So the filter of settings that pass the check can always be made.
-/

namespace LocaleTidy

variable {entries : List String} {settings : Settings}

namespace Settings

theorem badIgnore?_eq_none_iff :
    badIgnore? entries = none ↔ ∀ entry ∈ entries, ∃ glob, Glob.parse entry = .ok glob := by
  induction entries with
  | nil => simp [badIgnore?]
  | cons entry rest ih =>
      rw [List.forall_mem_cons, ← ih, badIgnore?]
      cases Glob.parse entry with
      | error fault => simp
      | ok glob => simp

/-- Settings pass the check only if every ignored entry denotes a pattern. -/
theorem exists_glob_of_check (h : settings.check = .ok ()) :
    ∀ entry ∈ settings.ignores, ∃ glob, Glob.parse entry = .ok glob := by
  refine badIgnore?_eq_none_iff.mp ?_
  unfold check at h
  cases hbad : badIgnore? settings.ignores with
  | none => rfl
  | some bad =>
      rw [hbad] at h
      cases h

end Settings

namespace SourceFilter

/-- The ignored entries of a filter, each in the order of the entries: those that are written as
patterns are read as such, and the others are paths. -/
structure Ignores (filter : SourceFilter) (entries : List String) : Prop where
  globs : List.Forall₂ (fun entry glob => Glob.parse entry = .ok glob)
    (entries.filter Glob.isPattern) filter.globs
  ignored : filter.ignored = (entries.filter fun entry => !Glob.isPattern entry).map Path.mk

theorem splitIgnores_eq_ok_iff {globs : List Glob} {paths : List Path} :
    splitIgnores entries = .ok (globs, paths) ↔
      List.Forall₂ (fun entry glob => Glob.parse entry = .ok glob)
        (entries.filter Glob.isPattern) globs ∧
      paths = (entries.filter fun entry => !Glob.isPattern entry).map Path.mk := by
  induction entries generalizing globs paths with
  | nil => simp [splitIgnores, eq_comm]
  | cons entry rest ih =>
      cases hpattern : Glob.isPattern entry with
      | true =>
          simp only [splitIgnores, hpattern, if_true, bind_eq_ok, pure_eq_ok, Prod.exists, ih,
            List.filter_cons, Bool.not_true, Bool.false_eq_true, if_false, Prod.mk.injEq,
            List.forall₂_cons_left_iff]
          constructor
          · rintro ⟨glob, hglob, others, more, ⟨hothers, rfl⟩, rfl, rfl⟩
            exact ⟨⟨glob, others, hglob, hothers, rfl⟩, rfl⟩
          · rintro ⟨⟨glob, others, hglob, hothers, rfl⟩, rfl⟩
            exact ⟨glob, hglob, others, _, ⟨hothers, rfl⟩, rfl, rfl⟩
      | false =>
          simp only [splitIgnores, hpattern, Bool.false_eq_true, if_false, bind_eq_ok, pure_eq_ok,
            Prod.exists, ih, List.filter_cons, Bool.not_false, if_true, Prod.mk.injEq,
            List.map_cons]
          constructor
          · rintro ⟨others, more, ⟨hothers, rfl⟩, rfl, rfl⟩
            exact ⟨hothers, rfl⟩
          · rintro ⟨hglobs, rfl⟩
            exact ⟨globs, _, ⟨hglobs, rfl⟩, rfl, rfl⟩

theorem exists_globs (h : ∀ entry ∈ entries, ∃ glob, Glob.parse entry = .ok glob) :
    ∃ globs, List.Forall₂ (fun entry glob => Glob.parse entry = .ok glob) entries globs := by
  induction entries with
  | nil => exact ⟨[], .nil⟩
  | cons entry rest ih =>
      obtain ⟨⟨glob, hglob⟩, hrest⟩ := List.forall_mem_cons.mp h
      obtain ⟨globs, hglobs⟩ := ih hrest
      exact ⟨glob :: globs, .cons hglob hglobs⟩

theorem exists_ofSettings_of_check (h : settings.check = .ok ()) (root : Path) :
    ∃ filter, ofSettings settings root = .ok filter ∧ filter.Ignores settings.ignores := by
  obtain ⟨globs, hglobs⟩ := @exists_globs (settings.ignores.filter Glob.isPattern)
    fun entry hentry => Settings.exists_glob_of_check h entry (List.mem_filter.mp hentry).1
  have hsplit := splitIgnores_eq_ok_iff.mpr ⟨hglobs, rfl⟩
  refine ⟨⟨settings.extensions, globs, _, settings.excludedName, some root⟩, ?_, ⟨hglobs, rfl⟩⟩
  rw [ofSettings, make, bind_eq_ok]
  exact ⟨_, hsplit, rfl⟩

end SourceFilter

end LocaleTidy
