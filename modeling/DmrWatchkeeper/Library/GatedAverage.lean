import Mathlib.Algebra.Order.Archimedean.Basic
import Mathlib.Tactic.Linarith

/-! Exponential averages, and the gated estimator of a level: it averages in
only the values above a fraction of its current estimate. -/
namespace GatedAverage

variable {K : Type*} [Field K] [LinearOrder K]

/-- The estimate `p` moved by the fraction `α` toward the value `v`. -/
def average (α v p : K) : K := p + α * (v - p)

/-- The average, of values above `t` times the estimate. -/
def gated (α t v p : K) : K := if t * p < v then average α v p else p

variable {α t v w p b : K}

omit [LinearOrder K] in
theorem average_iterate (α v p : K) (n : ℕ) :
    (average α v)^[n] p = v + (1 - α) ^ n * (p - v) := by
  induction n generalizing p with
  | zero => simp
  | succ n ih =>
    rw [Function.iterate_succ_apply, ih, average, pow_succ]
    ring

theorem gated_open (above : t * p < v) : gated α t v p = average α v p := if_pos above

theorem gated_closed (below : v ≤ t * p) : gated α t v p = p := if_neg below.not_gt

variable [IsStrictOrderedRing K]

/-- An average is below every bound on the value and the estimate. -/
theorem average_le (low : 0 ≤ α) (high : α ≤ 1) (value : v ≤ b) (estimate : p ≤ b) :
    average α v p ≤ b := by
  have weighted := add_le_add (mul_le_mul_of_nonneg_left value low)
    (mul_le_mul_of_nonneg_left estimate (sub_nonneg.mpr high))
  rw [average]
  linarith

theorem average_lt (low : 0 ≤ α) (high : α < 1) (value : v ≤ b) (estimate : p < b) :
    average α v p < b := by
  have weighted := add_lt_add_of_le_of_lt (mul_le_mul_of_nonneg_left value low)
    (mul_lt_mul_of_pos_left estimate (sub_pos.mpr high))
  rw [average]
  linarith

theorem lt_average (low : 0 ≤ α) (high : α < 1) (value : b ≤ v) (estimate : b < p) :
    b < average α v p := by
  have weighted := add_lt_add_of_le_of_lt (mul_le_mul_of_nonneg_left value low)
    (mul_lt_mul_of_pos_left estimate (sub_pos.mpr high))
  rw [average]
  linarith

/-- An average is within every bound on the magnitudes of the value and the
estimate. -/
theorem abs_average_le (low : 0 ≤ α) (high : α ≤ 1) (value : |v| ≤ b) (estimate : |p| ≤ b) :
    |average α v p| ≤ b := by
  obtain ⟨value_low, value_high⟩ := abs_le.mp value
  obtain ⟨estimate_low, estimate_high⟩ := abs_le.mp estimate
  have mirrored : average α (-v) (-p) = -average α v p := by
    rw [average, average]
    ring
  have below := average_le (v := -v) (p := -p) (b := b) low high (by linarith) (by linarith)
  rw [mirrored] at below
  exact abs_le.mpr ⟨by linarith, average_le low high value_high estimate_high⟩

/-- Repeated, the average comes and stays within any distance of the value. -/
theorem average_eventually [Archimedean K] (low : 0 < α) (high : α < 1) (v p : K) {ε : K}
    (positive : 0 < ε) : ∃ N, ∀ n ≥ N, |(average α v)^[n] p - v| < ε := by
  have ratio_pos : 0 < 1 - α := sub_pos.mpr high
  have ratio_lt : 1 - α < 1 := sub_lt_self 1 low
  have scale : 0 < |p - v| + 1 := by linarith [abs_nonneg (p - v)]
  obtain ⟨N, small⟩ := exists_pow_lt_of_lt_one (div_pos positive scale) ratio_lt
  refine ⟨N, fun n late => ?_⟩
  have shrunk : (1 - α) ^ n ≤ (1 - α) ^ N := pow_le_pow_of_le_one ratio_pos.le ratio_lt.le late
  calc |(average α v)^[n] p - v|
      = (1 - α) ^ n * |p - v| := by
        rw [average_iterate, add_sub_cancel_left, abs_mul, abs_of_pos (pow_pos ratio_pos n)]
    _ ≤ (1 - α) ^ N * (|p - v| + 1) :=
        mul_le_mul shrunk (le_add_of_nonneg_right zero_le_one) (abs_nonneg _) (pow_pos ratio_pos N).le
    _ < ε := (lt_div_iff₀ scale).mp small

/-- A positive estimate stays positive. -/
theorem gated_pos (low : 0 ≤ α) (high : α < 1) (gate : 0 ≤ t) (estimate : 0 < p) :
    0 < gated α t v p := by
  by_cases above : t * p < v
  · rw [gated_open above]
    exact lt_average low high ((mul_nonneg gate estimate.le).trans above.le) estimate
  · rw [gated_closed (not_lt.mp above)]
    exact estimate

/-! ### Comparing a value with half of the level that it has just moved -/

/-- Larger values stay above, although they move the level further. -/
theorem gated_le_double (low : 0 ≤ α) (high : α < 1) (estimate : 0 < p) (order : v ≤ w)
    (reached : gated α t v p ≤ 2 * v) : gated α t w p ≤ 2 * w := by
  by_cases above : t * p < v
  · rw [gated_open above, average] at reached
    rw [gated_open (above.trans_le order), average]
    have moved := mul_le_mul_of_nonneg_left order (show 0 ≤ 2 - α by linarith)
    linarith
  · rw [gated_closed (not_lt.mp above)] at reached
    by_cases later : t * p < w
    · rw [gated_open later]
      exact average_le low high.le (by linarith) (by linarith)
    · rw [gated_closed (not_lt.mp later)]
      linarith

theorem gated_lt_double (low : 0 ≤ α) (high : α < 1) (estimate : 0 < p) (order : v ≤ w)
    (passed : gated α t v p < 2 * v) : gated α t w p < 2 * w := by
  by_cases above : t * p < v
  · rw [gated_open above, average] at passed
    rw [gated_open (above.trans_le order), average]
    have moved := mul_le_mul_of_nonneg_left order (show 0 ≤ 2 - α by linarith)
    linarith
  · rw [gated_closed (not_lt.mp above)] at passed
    by_cases later : t * p < w
    · rw [gated_open later]
      exact average_lt low high (by linarith) (by linarith)
    · rw [gated_closed (not_lt.mp later)]
      linarith

/-- With the gate at half the level or above, the comparison is the same as
with the level before it moved. -/
theorem gated_le_double_iff (low : 0 ≤ α) (high : α < 1) (gate : 1 ≤ 2 * t) (estimate : 0 < p) :
    gated α t v p ≤ 2 * v ↔ p ≤ 2 * v := by
  by_cases above : t * p < v
  · have half := mul_le_mul_of_nonneg_right gate estimate.le
    rw [gated_open above]
    exact ⟨fun _ => by linarith, average_le low high.le (by linarith)⟩
  · rw [gated_closed (not_lt.mp above)]

theorem gated_lt_double_iff (low : 0 ≤ α) (high : α < 1) (gate : 1 ≤ 2 * t) (estimate : 0 < p) :
    gated α t v p < 2 * v ↔ p < 2 * v := by
  by_cases above : t * p < v
  · have half := mul_le_mul_of_nonneg_right gate estimate.le
    rw [gated_open above]
    exact ⟨fun _ => by linarith, average_lt low high (by linarith)⟩
  · rw [gated_closed (not_lt.mp above)]

/-! ### Repeating one value -/

omit [IsStrictOrderedRing K] in
/-- A level that the value is not above the gate of never moves. -/
theorem gated_stuck (below : v ≤ t * p) (n : ℕ) : (gated α t v)^[n] p = p := by
  apply Function.iterate_fixed
  exact gated_closed below

/-- Where the value passes the gate once, it passes it always. -/
theorem gated_iterate (low : 0 ≤ α) (high : α < 1) (gate : 0 < t) (gate_le : t ≤ 1) (value : 0 ≤ v)
    (above : t * p < v) (n : ℕ) : (gated α t v)^[n] p = (average α v)^[n] p := by
  induction n generalizing p with
  | zero => rfl
  | succ n ih =>
    have open_value : v ≤ v / t := le_div_self value gate gate_le
    have inside : p < v / t := (lt_div_iff₀' gate).mpr above
    have still : average α v p < v / t := average_lt low high open_value inside
    rw [Function.iterate_succ_apply, Function.iterate_succ_apply, gated_open above]
    exact ih ((lt_div_iff₀' gate).mp still)

end GatedAverage
