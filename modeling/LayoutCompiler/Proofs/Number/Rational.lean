import LayoutCompiler.Number.Scalar
import Mathlib.Algebra.Order.Field.Rat
import Mathlib.Tactic.Linarith
/-!
# Exact magnitudes

Rational numbers as magnitudes. Nothing is rounded, so that the laws of geometry can be read off
their arithmetic, which is the usual one.

* `max_eq`, `half_eq`, `foldl_min_le`: what the operations of a scalar are over these magnitudes.
-/

namespace LayoutCompiler

/-- The value of a numeral that is a number. -/
def ratOfNumeral : Numeral → Option ℚ
  | .decimal negative digits exponent =>
    some ((if negative then -1 else 1) * (digits : ℚ) * (10 : ℚ) ^ exponent)
  | _ => none

instance : Scalar ℚ where
  decLt := inferInstance
  decLe := inferInstance
  ofNumeral := ratOfNumeral
  exact q := .finite (decide (q < 0)) q.num.natAbs q.den

namespace Rational

theorem half_eq (x : ℚ) : Scalar.half x = x / 2 := rfl

theorem max_eq (x y : ℚ) : Scalar.max x y = Max.max x y := by
  unfold Scalar.max
  by_cases h : x < y
  · rw [if_pos h, max_eq_right (le_of_lt h)]
  · rw [if_neg h, if_pos (beq_self_eq_true x), max_eq_left (not_lt.1 h)]

theorem min_eq (x y : ℚ) : Scalar.min x y = Min.min x y := by
  unfold Scalar.min
  by_cases h : y < x
  · rw [if_pos h, min_eq_right (le_of_lt h)]
  · rw [if_neg h, if_pos (beq_self_eq_true x), min_eq_left (not_lt.1 h)]

/-- The least of some magnitudes is no larger than any of them. -/
theorem foldl_min_le (xs : List ℚ) (x y : ℚ) (hy : y ∈ x :: xs) : xs.foldl Scalar.min x ≤ y := by
  induction xs generalizing x y with
  | nil => exact le_of_eq (List.mem_singleton.1 hy).symm
  | cons z zs ih =>
    rw [List.foldl_cons]
    have hleast : zs.foldl Scalar.min (Scalar.min x z) ≤ Scalar.min x z :=
      ih _ _ List.mem_cons_self
    rw [min_eq] at hleast ⊢
    simp only [List.mem_cons] at hy
    rcases hy with rfl | rfl | hy
    · exact hleast.trans (min_le_left _ _)
    · exact hleast.trans (min_le_right _ _)
    · exact ih _ _ (List.mem_cons_of_mem _ hy)

end Rational

end LayoutCompiler
