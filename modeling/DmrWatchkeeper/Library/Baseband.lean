import Mathlib.Analysis.SpecialFunctions.Complex.Circle
import Mathlib.Analysis.SpecialFunctions.Trigonometric.Basic

/-! Mixing a signal down, filtering it, and comparing the phases of two filtered
values. The mixer's own phase drops out of the comparison, which leaves a fixed
function of the recent signal. -/
namespace Baseband

/-- The filtered signal at `n`, as seen in the mixer's frame. -/
noncomputable def response (taps : ℕ → ℝ) (N : ℕ) (w : ℂ) (s : ℤ → ℂ) (n : ℤ) : ℂ :=
  ∑ j ∈ Finset.range N, taps j * (s (n - j) * w ^ (-(j : ℤ)))

/-- The sum of the magnitudes of the coefficients. -/
def gain (taps : ℕ → ℝ) (N : ℕ) : ℝ := ∑ j ∈ Finset.range N, |taps j|

/-- The filter's response to a turning phasor. -/
noncomputable def transfer (taps : ℕ → ℝ) (N : ℕ) (v : ℂ) : ℂ :=
  ∑ j ∈ Finset.range N, taps j * v ^ (-(j : ℤ))

/-- The phase comparison of two values. -/
def detect (z z' : ℂ) : ℝ := (z * starRingEnd ℂ z').im

variable {taps : ℕ → ℝ} {N : ℕ} {w u a : ℂ} {s s' : ℤ → ℂ} {n : ℤ} {ε B : ℝ}

theorem gain_nonneg (taps : ℕ → ℝ) (N : ℕ) : 0 ≤ gain taps N := Finset.sum_nonneg fun _ _ => abs_nonneg _

theorem unit_ne_zero (unit : ‖w‖ = 1) : w ≠ 0 := norm_ne_zero_iff.mp (by rw [unit]; exact one_ne_zero)

/-- Mixing before the filter is turning behind it. -/
theorem sum_mixed (unit : ‖w‖ = 1) (s : ℤ → ℂ) (n : ℤ) :
    ∑ j ∈ Finset.range N, (taps j : ℂ) * (s (n - j) * w ^ (n - j)) = w ^ n * response taps N w s n := by
  rw [response, Finset.mul_sum]
  refine Finset.sum_congr rfl fun j _ => ?_
  rw [sub_eq_add_neg n (j : ℤ), zpow_add₀ (unit_ne_zero unit)]
  ring

/-- Only the last `N` values matter. -/
theorem response_congr {n' : ℤ} (same : ∀ j < N, s (n - j) = s' (n' - j)) :
    response taps N w s n = response taps N w s' n' := by
  refine Finset.sum_congr rfl fun j member => ?_
  rw [same j (Finset.mem_range.mp member)]

theorem norm_zpow_unit (unit : ‖w‖ = 1) (k : ℤ) : ‖w ^ k‖ = 1 := by rw [norm_zpow, unit, one_zpow]

/-- Small differences in the signal make small differences behind the filter. -/
theorem norm_response_sub (taps : ℕ → ℝ) (s' : ℤ → ℂ) (unit : ‖w‖ = 1) (near : ∀ j < N, ‖s (n - j) - s' (n - j)‖ ≤ ε) :
    ‖response taps N w s n - response taps N w s' n‖ ≤ gain taps N * ε := by
  rw [response, response, ← Finset.sum_sub_distrib, gain, Finset.sum_mul]
  refine norm_sum_le_of_le _ fun j member => ?_
  have close := near j (Finset.mem_range.mp member)
  rw [← mul_sub, ← sub_mul, norm_mul, norm_mul, norm_zpow_unit unit, mul_one, Complex.norm_real, Real.norm_eq_abs]
  exact mul_le_mul_of_nonneg_left close (abs_nonneg _)

theorem norm_response (unit : ‖w‖ = 1) (bounded : ∀ j < N, ‖s (n - j)‖ ≤ B) :
    ‖response taps N w s n‖ ≤ gain taps N * B := by
  have near := norm_response_sub taps (fun _ => 0) unit (fun j below => by
    rw [sub_zero]
    exact bounded j below)
  have zero : response taps N w (fun _ => 0) n = 0 := by simp [response]
  rwa [zero, sub_zero] at near

/-- A steady phasor keeps turning behind the filter. -/
theorem response_tone (unit : ‖u‖ = 1) (a : ℂ) (n : ℤ) :
    response taps N w (fun k => a * u ^ k) n = a * u ^ n * transfer taps N (u * w) := by
  rw [response, transfer, Finset.mul_sum]
  refine Finset.sum_congr rfl fun j _ => ?_
  rw [sub_eq_add_neg n (j : ℤ), zpow_add₀ (unit_ne_zero unit), mul_zpow]
  ring

/-! ### Comparing phases -/

theorem conj_zpow (unit : ‖w‖ = 1) (k : ℤ) : starRingEnd ℂ (w ^ k) = w ^ (-k) := by
  rw [← Complex.inv_eq_conj (norm_zpow_unit unit k), zpow_neg]

/-- The mixer's phase drops out, up to its turn between the two values. -/
theorem detect_turned (unit : ‖w‖ = 1) (n D : ℤ) (z z' : ℂ) :
    detect (w ^ n * z) (w ^ (n - D) * z') = detect (w ^ D * z) z' := by
  have turn : w ^ n * w ^ (-(n - D)) = w ^ D := by
    rw [← zpow_add₀ (unit_ne_zero unit)]
    congr 1
    ring
  rw [detect, detect, map_mul, conj_zpow unit]
  congr 1
  linear_combination z * starRingEnd ℂ z' * turn

theorem abs_detect (z z' : ℂ) : |detect z z'| ≤ ‖z‖ * ‖z'‖ := by
  refine (Complex.abs_im_le_norm _).trans ?_
  rw [norm_mul, Complex.norm_conj]

/-- How far the comparison moves with the two values. -/
theorem detect_sub (y y' z z' : ℂ) : |detect z z' - detect y y'| ≤
    ‖z - y‖ * ‖y'‖ + ‖y‖ * ‖z' - y'‖ + ‖z - y‖ * ‖z' - y'‖ := by
  have split : detect z z' - detect y y' =
      detect (z - y) y' + detect y (z' - y') + detect (z - y) (z' - y') := by
    simp only [detect, map_sub, ← Complex.add_im, ← Complex.sub_im]
    congr 1
    ring
  rw [split]
  exact (abs_add_three _ _ _).trans (add_le_add_three (abs_detect _ _) (abs_detect _ _) (abs_detect _ _))

/-- A phasor's turn, compared with itself. -/
theorem detect_tone (unit : ‖u‖ = 1) (a h : ℂ) (n D : ℤ) :
    detect (w ^ D * (a * u ^ n * h)) (a * u ^ (n - D) * h) = (‖a‖ * ‖h‖) ^ 2 * ((u * w) ^ D).im := by
  have turn : u ^ n * u ^ (-(n - D)) = u ^ D := by
    rw [← zpow_add₀ (unit_ne_zero unit)]
    congr 1
    ring
  have size : a * starRingEnd ℂ a * (h * starRingEnd ℂ h) = (((‖a‖ * ‖h‖) ^ 2 : ℝ) : ℂ) := by
    rw [Complex.mul_conj, Complex.mul_conj, Complex.normSq_eq_norm_sq, Complex.normSq_eq_norm_sq]
    push_cast
    ring
  have product : w ^ D * (a * u ^ n * h) * starRingEnd ℂ (a * u ^ (n - D) * h) =
      (((‖a‖ * ‖h‖) ^ 2 : ℝ) : ℂ) * (u * w) ^ D := by
    rw [map_mul, map_mul, conj_zpow unit, mul_zpow, ← size]
    linear_combination w ^ D * a * starRingEnd ℂ a * h * starRingEnd ℂ h * turn
  rw [detect, product, Complex.im_ofReal_mul]

/-- Where the signal is near a phasor, the comparison is near the phasor's turn
in the mixer's frame. -/
theorem detect_near_tone {D : ℤ} (unit : ‖w‖ = 1) (turning : ‖u‖ = 1)
    (near : ∀ j < N, ‖s (n - j) - a * u ^ (n - j)‖ ≤ ε)
    (near' : ∀ j < N, ‖s (n - D - j) - a * u ^ (n - D - j)‖ ≤ ε) :
    |detect (w ^ D * response taps N w s n) (response taps N w s (n - D)) -
        (‖a‖ * ‖transfer taps N (u * w)‖) ^ 2 * ((u * w) ^ D).im| ≤
      2 * (‖a‖ * ‖transfer taps N (u * w)‖) * (gain taps N * ε) + (gain taps N * ε) ^ 2 := by
  have tone (m : ℤ) : response taps N w (fun k => a * u ^ k) m = a * u ^ m * transfer taps N (u * w) :=
    response_tone turning a m
  have first := norm_response_sub taps (fun k => a * u ^ k) unit near
  have second := norm_response_sub taps (fun k => a * u ^ k) unit near'
  have size (m : ℤ) : ‖response taps N w (fun k => a * u ^ k) m‖ = ‖a‖ * ‖transfer taps N (u * w)‖ := by
    rw [tone, norm_mul, norm_mul, norm_zpow_unit turning, mul_one]
  have turned : ‖w ^ D * response taps N w s n - w ^ D * response taps N w (fun k => a * u ^ k) n‖ ≤
      gain taps N * ε := by
    rw [← mul_sub, norm_mul, norm_zpow_unit unit, one_mul]
    exact first
  have moved := detect_sub (w ^ D * response taps N w (fun k => a * u ^ k) n)
    (response taps N w (fun k => a * u ^ k) (n - D)) (w ^ D * response taps N w s n)
    (response taps N w s (n - D))
  rw [size, norm_mul, norm_zpow_unit unit, one_mul, size] at moved
  rw [← detect_tone (w := w) turning a (transfer taps N (u * w)) n D, ← tone, ← tone]
  refine moved.trans ?_
  have level : 0 ≤ ‖a‖ * ‖transfer taps N (u * w)‖ := by positivity
  have product := mul_le_mul turned second (norm_nonneg _) ((norm_nonneg _).trans turned)
  have left := mul_le_mul_of_nonneg_right turned level
  have right := mul_le_mul_of_nonneg_left second level
  linarith

end Baseband
