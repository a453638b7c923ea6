import Mathlib.Data.List.Lex
import Mathlib.Data.Prod.Lex
import Mathlib.Data.String.Basic
import LocaleTidy.Path

/-!
# The order of paths

Paths are compared by their steps, so the order of paths is that of lists over the linear order of
steps. Steps that all paths begin with do not count.
-/

namespace LocaleTidy.Path

def Component.key : Component → ℕ ×ₗ String
  | .name text => toLex (3, text)
  | component => toLex (component.rank, "")

theorem Component.key_injective : Function.Injective Component.key := by
  intro left right h
  cases left <;> cases right <;> simp_all [key, rank]

theorem Component.before_iff {left right : Component} :
    left.before right = true ↔ left.key < right.key := by
  cases left <;> cases right <;> simp [before, key, rank, Prod.Lex.toLex_lt_toLex]

/-- The steps of a path as a list in a linear order. -/
def keyOf (steps : List Component) : List (ℕ ×ₗ String) :=
  steps.map Component.key

theorem keyOf_injective : Function.Injective keyOf :=
  List.map_injective_iff.mpr Component.key_injective

theorem go_iff {lefts rights : List Component} :
    before.go lefts rights = true ↔ keyOf lefts < keyOf rights := by
  induction lefts generalizing rights with
  | nil => cases rights <;> simp [before.go, keyOf]
  | cons left lefts ih =>
      cases rights with
      | nil => simp [before.go, keyOf]
      | cons right rights =>
          have ih' : before.go lefts rights = true ↔
              lefts.map Component.key < rights.map Component.key := ih
          simp only [before.go, keyOf, List.map_cons, List.cons_lt_cons_iff,
            ← Component.before_iff, Component.key_injective.eq_iff, ← ih']
          by_cases hbefore : left.before right = true
          · simp [hbefore]
          · by_cases heq : left = right <;> simp [hbefore, heq]

theorem before_iff {left right : Path} :
    left.before right = true ↔ keyOf left.components < keyOf right.components :=
  go_iff

/-- Steps that two lists of steps begin with do not count. -/
theorem keyOf_append_lt_iff {front lefts rights : List Component} :
    keyOf (front ++ lefts) < keyOf (front ++ rights) ↔ keyOf lefts < keyOf rights := by
  induction front with
  | nil => rfl
  | cons step front ih =>
      rw [← ih]
      simp [keyOf]

end LocaleTidy.Path
