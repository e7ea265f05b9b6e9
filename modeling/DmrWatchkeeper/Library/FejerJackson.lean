import Mathlib.Analysis.Calculus.LocalExtr.Basic
import Mathlib.Analysis.SpecialFunctions.Trigonometric.Basic
import Mathlib.Analysis.SpecialFunctions.Trigonometric.Deriv
import Mathlib.Tactic.Linarith
import Mathlib.Tactic.Ring
import Mathlib.Topology.Algebra.Module.ModuleTopology

/-! Sine sums that are nowhere negative: the Fejér-Jackson inequality, and what
falling weights make of it. -/
namespace FejerJackson
open Finset

/-- The sum of `sin (k x) / k` over `k` from 1 to `n`. -/
noncomputable def sineSum (n : ℕ) (x : ℝ) : ℝ := ∑ k ∈ range n, Real.sin ((k + 1) * x) / (k + 1)

variable {n : ℕ} {x : ℝ}

theorem sineSum_zero (n : ℕ) : sineSum n 0 = 0 := by simp [sineSum]

theorem sineSum_pi (n : ℕ) : sineSum n Real.pi = 0 := by
  refine sum_eq_zero fun k _ => ?_
  have multiple : ((k : ℝ) + 1) * Real.pi = (k + 1 : ℕ) * Real.pi := by push_cast; rfl
  rw [multiple, Real.sin_nat_mul_pi, zero_div]

theorem hasDerivAt_sineSum (n : ℕ) (x : ℝ) :
    HasDerivAt (sineSum n) (∑ k ∈ range n, Real.cos ((k + 1) * x)) x := by
  refine HasDerivAt.fun_sum fun k _ => ?_
  have positive : (k : ℝ) + 1 ≠ 0 := by positivity
  have inner : HasDerivAt (fun y : ℝ => ((k : ℝ) + 1) * y) ((k : ℝ) + 1) x := by
    simpa using (hasDerivAt_id x).const_mul ((k : ℝ) + 1)
  have outer := (inner.sin.div_const ((k : ℝ) + 1))
  rwa [mul_div_assoc, div_self positive, mul_one] at outer

/-- The closed form of the cosine sum. -/
theorem cosineSum_eq (n : ℕ) (x : ℝ) : 2 * Real.sin (x / 2) * ∑ k ∈ range n, Real.cos ((k + 1) * x) =
    Real.sin (n * x + x / 2) - Real.sin (x / 2) := by
  induction n with
  | zero => simp
  | succ n ih =>
    have above : ((n + 1 : ℕ) : ℝ) * x + x / 2 = (n + 1) * x + x / 2 := by push_cast; rfl
    have below : (n : ℝ) * x + x / 2 = (n + 1) * x - x / 2 := by ring
    rw [sum_range_succ, mul_add, ih, above, below, Real.sin_add, Real.sin_sub]
    ring

/-- Where the cosine sum vanishes, the last sine is not negative. -/
theorem sin_nonneg_of_critical (inside : 0 < x ∧ x < Real.pi)
    (critical : ∑ k ∈ range n, Real.cos ((k + 1) * x) = 0) : 0 ≤ Real.sin (n * x) := by
  have half_sin : 0 < Real.sin (x / 2) := Real.sin_pos_of_pos_of_lt_pi (by linarith) (by linarith)
  have half_cos : 0 < Real.cos (x / 2) := Real.cos_pos_of_mem_Ioo ⟨by linarith, by linarith⟩
  have closed := cosineSum_eq n x
  rw [critical, mul_zero, Real.sin_add] at closed
  have product : Real.sin (n * x) * Real.cos (x / 2) =
      Real.sin (x / 2) * (1 - Real.cos (n * x)) := by linarith
  have nonneg : 0 ≤ Real.sin (n * x) * Real.cos (x / 2) := by
    rw [product]
    exact mul_nonneg half_sin.le (sub_nonneg.mpr (Real.cos_le_one _))
  exact nonneg_of_mul_nonneg_left nonneg half_cos

/-- The Fejér-Jackson inequality. At a least value inside the interval the
derivative vanishes, so the sum is at least the one with a term less. -/
theorem sineSum_nonneg (n : ℕ) : ∀ x ∈ Set.Icc 0 Real.pi, 0 ≤ sineSum n x := by
  induction n with
  | zero => intro x _; simp [sineSum]
  | succ n ih =>
    have smooth : ContinuousOn (sineSum (n + 1)) (Set.Icc 0 Real.pi) :=
      fun x _ => (hasDerivAt_sineSum (n + 1) x).continuousAt.continuousWithinAt
    obtain ⟨least, member, minimal⟩ := isCompact_Icc.exists_isMinOn
      (Set.nonempty_Icc.mpr Real.pi_pos.le) smooth
    suffices bound : 0 ≤ sineSum (n + 1) least from fun x inside => bound.trans (minimal inside)
    rcases member.1.eq_or_lt with start | positive
    · rw [← start, sineSum_zero]
    rcases member.2.eq_or_lt with stop | below
    · rw [stop, sineSum_pi]
    have critical := (minimal.isLocalMin (Icc_mem_nhds positive below)).hasDerivAt_eq_zero
      (hasDerivAt_sineSum (n + 1) least)
    have last := sin_nonneg_of_critical ⟨positive, below⟩ critical
    rw [Nat.cast_succ] at last
    have split : sineSum (n + 1) least =
        sineSum n least + Real.sin ((n + 1) * least) / (n + 1) := sum_range_succ ..
    rw [split]
    exact add_nonneg (ih least member) (div_nonneg last (by positivity))

/-! ### Falling weights -/

variable {R : Type*} [CommRing R] [LinearOrder R] [IsStrictOrderedRing R] {w a : ℕ → R}

/-- The weighted sum is at least the last weight times the plain one. -/
theorem last_weight_le (sums : ∀ m, 0 ≤ ∑ k ∈ range m, a k)
    (falls : ∀ k < n, w (k + 1) ≤ w k) :
    w n * ∑ k ∈ range (n + 1), a k ≤ ∑ k ∈ range (n + 1), w k * a k := by
  induction n with
  | zero => simp
  | succ n ih =>
    have earlier := ih fun k before => falls k (by omega)
    have lighter := mul_le_mul_of_nonneg_right (falls n n.lt_succ_self) (sums (n + 1))
    rw [sum_range_succ a, sum_range_succ _ (n + 1), mul_add]
    linarith

/-- Falling weights keep the sign of nonnegative partial sums. -/
theorem weighted_nonneg (sums : ∀ m, 0 ≤ ∑ k ∈ range m, a k)
    (falls : ∀ k, k + 1 < n → w (k + 1) ≤ w k) (weight : ∀ k < n, 0 ≤ w k) :
    0 ≤ ∑ k ∈ range n, w k * a k := by
  cases n with
  | zero => simp
  | succ n =>
    have bound : w n * ∑ k ∈ range (n + 1), a k ≤ ∑ k ∈ range (n + 1), w k * a k :=
      last_weight_le sums fun k before => falls k (by omega)
    exact (mul_nonneg (weight n n.lt_succ_self) (sums (n + 1))).trans bound

end FejerJackson
