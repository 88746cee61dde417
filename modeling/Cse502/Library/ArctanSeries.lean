import Mathlib.Analysis.SpecialFunctions.Complex.Arctan

/-!
# The arctangent series, cut off

The terms of the series decrease and alternate, so that a sum that is cut off misses the arctangent
by less than the first term that is left out.
-/

namespace ArctanSeries

open Filter Finset Topology

/-- The terms, without their signs. -/
noncomputable def term (x : ℝ) (j : ℕ) : ℝ := x ^ (2 * j + 1) / (2 * j + 1 : ℕ)

variable {x : ℝ}

theorem term_nonneg (hx : 0 ≤ x) (j : ℕ) : 0 ≤ term x j :=
  div_nonneg (pow_nonneg hx _) (Nat.cast_nonneg _)

theorem antitone_term (hx : 0 ≤ x) (hx1 : x ≤ 1) : Antitone (term x) := by
  refine antitone_nat_of_succ_le fun j ↦ ?_
  rw [term, term]
  refine div_le_div₀ (pow_nonneg hx _) (pow_le_pow_of_le_one hx hx1 (by omega)) (by positivity) ?_
  exact Nat.cast_le.mpr (by omega)

theorem tendsto_sum_term (hx : 0 ≤ x) (hx1 : x < 1) :
    Tendsto (fun n ↦ ∑ j ∈ range n, (-1) ^ j * term x j) atTop (𝓝 (Real.arctan x)) := by
  have hsum : HasSum (fun j ↦ (-1) ^ j * term x j) (Real.arctan x) := by
    have hnorm : ‖x‖ < 1 := by rwa [Real.norm_of_nonneg hx]
    simpa only [term, mul_div_assoc] using Real.hasSum_arctan hnorm
  exact hsum.tendsto_sum_nat

/-- **The error of a sum that is cut off.** -/
theorem abs_sum_sub_arctan_le (hx : 0 ≤ x) (hx1 : x < 1) (n : ℕ) :
    |∑ j ∈ range n, (-1) ^ j * term x j - Real.arctan x| ≤ term x n := by
  have hlim := tendsto_sum_term hx hx1
  have hanti := antitone_term hx hx1.le
  have hterm := term_nonneg hx n
  rw [abs_le]
  rcases Nat.even_or_odd' n with ⟨k, rfl | rfl⟩
  · have hlow := hanti.alternating_series_le_tendsto hlim k
    have hhigh := hanti.tendsto_le_alternating_series hlim k
    rw [sum_range_succ, pow_mul, neg_one_sq, one_pow, one_mul] at hhigh
    constructor <;> linarith
  · have hhigh := hanti.tendsto_le_alternating_series hlim k
    have hlow := hanti.alternating_series_le_tendsto hlim (k + 1)
    rw [Nat.mul_succ, sum_range_succ, pow_succ, pow_mul, neg_one_sq, one_pow, one_mul] at hlow
    constructor <;> linarith

end ArctanSeries
