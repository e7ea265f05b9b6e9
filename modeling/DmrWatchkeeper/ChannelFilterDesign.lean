import DmrWatchkeeper.ChannelFilterExact
import DmrWatchkeeper.Library.FejerJackson
import Mathlib.Algebra.BigOperators.Field

/-! The filter design over the real numbers: which lengths make it divide by
zero, and that the coefficients are symmetric with sum one for all others. -/
namespace DmrWatchkeeper.ChannelFilterDesign
open ChannelFilter FejerJackson

/-- The coefficients before normalisation. -/
noncomputable def rawTaps (cfg : Config ℝ) : List ℝ :=
  (List.range cfg.numTaps).map (windowedSinc cfg.numTaps (cfg.cutoffHz / cfg.inputRate))

/-- The values that `design_filter` divides by. -/
noncomputable def divisors (cfg : Config ℝ) : List ℝ :=
  cfg.inputRate :: (List.range cfg.numTaps).flatMap (fun i =>
    let n : ℤ := i - cfg.numTaps / 2
    (if n = 0 then [] else [pi * (n : ℝ)]) ++ [(((cfg.numTaps : ℤ) - 1 : ℤ) : ℝ)]) ++
    [(rawTaps cfg).foldl (· + ·) 0.0]

/-- What the constructor's check is there to ensure. -/
structure WellDesigned (cfg : Config ℝ) : Prop where
  defined : ∀ d ∈ divisors cfg, d ≠ 0
  symmetric : ∀ i < cfg.numTaps,
    (designFilter cfg)[i]? = (designFilter cfg)[cfg.numTaps - 1 - i]?
  unity : (designFilter cfg).sum = 1

variable {fc : ℝ} {M j : ℕ}

/-! ### The coefficients of a filter with `2 * M + 1` taps -/

/-- The ideal low-pass and the window, `n` places from the middle. -/
theorem windowedSinc_eq (fc : ℝ) (positive : 0 < M) {i : ℕ} {n : ℤ} (place : (i : ℤ) = M + n) :
    windowedSinc (2 * M + 1) fc i =
      (if n = 0 then 2 * Real.pi * fc
        else Real.sin (2 * Real.pi * fc * n) / (Real.pi * n)) *
      (0.54 + 0.46 * Real.cos (Real.pi * n / M)) := by
  have half : ((2 * M + 1 : ℕ) : ℤ) / 2 = M := by omega
  have centred : (i : ℤ) - ((2 * M + 1 : ℕ) : ℤ) / 2 = n := by omega
  have two : (2.0 : ℝ) = 2 := by norm_num
  have nonzero : (M : ℝ) ≠ 0 := by exact_mod_cast positive.ne'
  have angle : 2 * Real.pi * ((i : ℤ) : ℝ) / ((((2 * M + 1 : ℕ) : ℤ) - 1 : ℤ) : ℝ) =
      Real.pi * n / M + Real.pi := by
    rw [place]
    push_cast
    field_simp
    ring
  simp only [windowedSinc, centred, pi, FloatLib.pi, FloatLib.sin, FloatLib.cos, two]
  rw [angle, Real.cos_add_pi]
  ring

theorem windowedSinc_symmetric (fc : ℝ) (positive : 0 < M) {i : ℕ} (inside : i ≤ 2 * M) :
    windowedSinc (2 * M + 1) fc (2 * M - i) = windowedSinc (2 * M + 1) fc i := by
  rw [windowedSinc_eq fc positive (show ((2 * M - i : ℕ) : ℤ) = M + -(i - M : ℤ) by omega),
    windowedSinc_eq fc positive (show (i : ℤ) = M + (i - M : ℤ) by omega)]
  generalize (i : ℤ) - M = n
  have window : Real.pi * ((-n : ℤ) : ℝ) / M = -(Real.pi * n / M) := by
    push_cast
    ring
  rw [window, Real.cos_neg]
  by_cases middle : n = 0
  · rw [middle, neg_zero]
  · rw [if_neg middle, if_neg (neg_ne_zero.mpr middle), Int.cast_neg, mul_neg, mul_neg,
      Real.sin_neg, neg_div_neg_eq]

theorem windowedSinc_middle (fc : ℝ) (positive : 0 < M) :
    windowedSinc (2 * M + 1) fc M = 2 * Real.pi * fc := by
  rw [windowedSinc_eq fc positive (show (M : ℤ) = M + 0 by omega), if_pos rfl]
  norm_num

/-- The Hamming window, `j + 1` places from its middle. -/
noncomputable def weight (M j : ℕ) : ℝ := 0.54 + 0.46 * Real.cos (Real.pi * (j + 1) / M)

theorem windowedSinc_right (fc : ℝ) (positive : 0 < M) (j : ℕ) :
    windowedSinc (2 * M + 1) fc (M + 1 + j) =
      weight M j * (Real.sin ((j + 1) * (2 * Real.pi * fc)) / (j + 1)) / Real.pi := by
  have angle : 2 * Real.pi * fc * ((j + 1 : ℤ) : ℝ) = (j + 1) * (2 * Real.pi * fc) := by
    push_cast
    ring
  rw [windowedSinc_eq fc positive (show ((M + 1 + j : ℕ) : ℤ) = M + (j + 1 : ℤ) by omega),
    if_neg (by omega), angle, weight, ← div_div]
  push_cast
  ring

/-- The window falls from its middle, and stays positive. -/
theorem weight_falls (before : j + 1 < M) : weight M (j + 1) ≤ weight M j := by
  have positive : (0 : ℝ) < M := by exact_mod_cast (show 0 < M by omega)
  have inside : ((j + 1 : ℕ) : ℝ) + 1 ≤ M := by exact_mod_cast before
  have start : 0 ≤ Real.pi * (j + 1) / M := by positivity
  have order : Real.pi * (j + 1) / M ≤ Real.pi * ((j + 1 : ℕ) + 1) / M := by
    push_cast
    gcongr
    linarith
  have stop : Real.pi * ((j + 1 : ℕ) + 1) / M ≤ Real.pi := by
    rw [div_le_iff₀ positive]
    exact mul_le_mul_of_nonneg_left inside Real.pi_pos.le
  have falls := Real.cos_le_cos_of_nonneg_of_le_pi start stop order
  unfold weight
  norm_num at falls ⊢
  linarith

theorem weight_pos (M j : ℕ) : 0 ≤ weight M j := by
  have low := Real.neg_one_le_cos (Real.pi * (j + 1) / M)
  unfold weight
  norm_num
  linarith

/-- The two sides of the filter are the same. -/
theorem rawSum_eq (fc : ℝ) (positive : 0 < M) :
    ∑ i ∈ Finset.range (2 * M + 1), windowedSinc (2 * M + 1) fc i = 2 * Real.pi * fc +
      2 * ∑ j ∈ Finset.range M, windowedSinc (2 * M + 1) fc (M + 1 + j) := by
  have whole : 2 * M + 1 = M + 1 + M := by omega
  have left : ∑ i ∈ Finset.range M, windowedSinc (2 * M + 1) fc i =
      ∑ j ∈ Finset.range M, windowedSinc (2 * M + 1) fc (M + 1 + j) := by
    rw [← Finset.sum_range_reflect]
    refine Finset.sum_congr rfl fun j member => ?_
    have before := Finset.mem_range.mp member
    rw [← windowedSinc_symmetric fc positive (show M + 1 + j ≤ 2 * M by omega)]
    congr 1
    omega
  calc ∑ i ∈ Finset.range (2 * M + 1), windowedSinc (2 * M + 1) fc i
      = ∑ i ∈ Finset.range (M + 1), windowedSinc (2 * M + 1) fc i +
          ∑ j ∈ Finset.range M, windowedSinc (2 * M + 1) fc (M + 1 + j) := by
        rw [← Finset.sum_range_add, ← whole]
    _ = 2 * Real.pi * fc + 2 * ∑ j ∈ Finset.range M, windowedSinc (2 * M + 1) fc (M + 1 + j) := by
        rw [Finset.sum_range_succ, left, windowedSinc_middle fc positive]
        ring

/-- The sum of the coefficients is at least the middle one. -/
theorem rawSum_pos (positive : 0 < M) (low : 0 < fc) (high : fc < 1 / 2) :
    0 < ∑ i ∈ Finset.range (2 * M + 1), windowedSinc (2 * M + 1) fc i := by
  have pi_pos := Real.pi_pos
  have inside : 2 * Real.pi * fc ∈ Set.Icc 0 Real.pi := ⟨by positivity, by nlinarith⟩
  have sides : 0 ≤ ∑ j ∈ Finset.range M,
      weight M j * (Real.sin ((j + 1) * (2 * Real.pi * fc)) / (j + 1)) :=
    weighted_nonneg (fun m => sineSum_nonneg m _ inside) (fun j before => weight_falls before)
      fun j _ => weight_pos M j
  have middle : 0 < 2 * Real.pi * fc := by positivity
  simp only [rawSum_eq fc positive, windowedSinc_right fc positive]
  rw [← Finset.sum_div]
  positivity

/-! ### Every admitted configuration -/

variable {cfg : Config ℝ}

theorem foldl_sum (taps : List ℝ) : taps.foldl (· + ·) 0.0 = taps.sum := by
  have zero : (0.0 : ℝ) = 0 := by norm_num
  rw [zero, List.sum_eq_foldl]

theorem designFilter_eq (cfg : Config ℝ) :
    designFilter cfg = (rawTaps cfg).map (· / (rawTaps cfg).sum) := by
  rw [← foldl_sum]
  rfl

theorem rawTaps_sum (cfg : Config ℝ) : (rawTaps cfg).sum =
    ∑ i ∈ Finset.range cfg.numTaps, windowedSinc cfg.numTaps (cfg.cutoffHz / cfg.inputRate) i := rfl

/-- Normalisation gives unity gain wherever there is something to normalise. -/
theorem designFilter_sum (nonzero : (rawTaps cfg).sum ≠ 0) : (designFilter cfg).sum = 1 := by
  have scaled := List.sum_map_mul_right (rawTaps cfg) (fun t => t) (rawTaps cfg).sum⁻¹
  rw [List.map_id'] at scaled
  rw [designFilter_eq]
  simp only [div_eq_mul_inv]
  rw [scaled, mul_inv_cancel₀ nonzero]

theorem designFilter_symmetric (length : cfg.numTaps = 2 * M + 1) (positive : 0 < M) {i : ℕ}
    (inside : i < cfg.numTaps) : (designFilter cfg)[i]? = (designFilter cfg)[cfg.numTaps - 1 - i]? := by
  have mirrored : cfg.numTaps - 1 - i = 2 * M - i := by omega
  have place : 2 * M - i < 2 * M + 1 := by omega
  rw [length] at inside
  rw [designFilter_eq, mirrored, List.getElem?_map, List.getElem?_map, rawTaps, length,
    List.getElem?_map, List.getElem?_map, List.getElem?_range inside, List.getElem?_range place,
    Option.map_some, Option.map_some, Option.map_some, Option.map_some,
    windowedSinc_symmetric _ positive (by omega)]

theorem window_divisor {i : ℕ} (inside : i < cfg.numTaps) : (((cfg.numTaps : ℤ) - 1 : ℤ) : ℝ) ∈ divisors cfg := by
  simp only [divisors, List.mem_append, List.mem_cons, List.mem_flatMap]
  exact .inl (.inr ⟨i, by simpa using inside, by simp⟩)

theorem sinc_divisor {i : ℕ} (inside : i < cfg.numTaps) (off : (i : ℤ) - cfg.numTaps / 2 ≠ 0) :
    pi * (((i : ℤ) - cfg.numTaps / 2 : ℤ) : ℝ) ∈ divisors cfg := by
  simp only [divisors, List.mem_append, List.mem_cons, List.mem_flatMap]
  exact .inl (.inr ⟨i, by simpa using inside, .inl (by rw [if_neg off]; exact List.mem_singleton_self _)⟩)

/-- The design divides by nothing else: with any division that is right for these
divisors it gives the same coefficients. -/
theorem designFilter_congr (divide : ℝ → ℝ → ℝ) (same : ∀ x, ∀ d ∈ divisors cfg, divide x d = x / d) :
    @designFilter ℝ _ _ _ _ ⟨divide⟩ _ _ cfg = designFilter cfg := by
  have rate : divide cfg.cutoffHz cfg.inputRate = cfg.cutoffHz / cfg.inputRate := same _ _ (by simp [divisors])
  have raw : (List.range cfg.numTaps).map (@windowedSinc ℝ _ _ _ ⟨divide⟩ _ _ cfg.numTaps
      (cfg.cutoffHz / cfg.inputRate)) = rawTaps cfg := by
    refine List.map_congr_left fun i member => ?_
    have inside := List.mem_range.mp member
    have window := fun x => same x _ (window_divisor inside)
    by_cases middle : (i : ℤ) - cfg.numTaps / 2 = 0
    · simp only [windowedSinc, if_pos middle]
      exact congrArg (fun w => 2.0 * pi * (cfg.cutoffHz / cfg.inputRate) * (0.54 - 0.46 * FloatLib.cos w)) (window _)
    · have sinc := fun x => same x _ (sinc_divisor inside middle)
      simp only [windowedSinc, if_neg middle]
      exact congrArg₂ (fun h w => h * (0.54 - 0.46 * FloatLib.cos w)) (sinc _) (window _)
  have sum := fun x => same x ((rawTaps cfg).foldl (· + ·) 0.0) (by simp [divisors])
  have taps : designFilter cfg = (rawTaps cfg).map (· / (rawTaps cfg).foldl (· + ·) 0.0) := rfl
  rw [taps, ← List.map_congr_left fun x _ => sum x, ← raw, ← rate]
  rfl

theorem divisors_ne_zero (length : cfg.numTaps ≠ 1) (rate : cfg.inputRate ≠ 0)
    (nonzero : (rawTaps cfg).sum ≠ 0) : ∀ d ∈ divisors cfg, d ≠ 0 := by
  intro d member
  rw [divisors, foldl_sum] at member
  simp only [List.mem_append, List.mem_cons, List.mem_flatMap, List.not_mem_nil, or_false] at member
  rcases member with (rfl | ⟨i, -, sinc | rfl⟩) | rfl
  · exact rate
  · split at sinc
    · cases sinc
    · rename_i off
      rw [List.mem_singleton.mp sinc]
      exact mul_ne_zero Real.pi_ne_zero (by exact_mod_cast off)
  · have window : (cfg.numTaps : ℤ) - 1 ≠ 0 := by omega
    exact_mod_cast window
  · exact nonzero

/-- With one tap the window divides by zero; every other odd length gives a
well-designed filter. -/
theorem wellDesigned_iff (odd : cfg.numTaps % 2 = 1) (low : 0 < cfg.cutoffHz)
    (high : cfg.cutoffHz < cfg.inputRate / 2) : WellDesigned cfg ↔ cfg.numTaps ≠ 1 := by
  constructor
  · intro designed single
    have window : (((cfg.numTaps : ℤ) - 1 : ℤ) : ℝ) ∈ divisors cfg := by
      simp [divisors, single]
    exact designed.defined _ window (by simp [single])
  · intro several
    obtain ⟨M, length⟩ : ∃ M, cfg.numTaps = 2 * M + 1 := ⟨cfg.numTaps / 2, by omega⟩
    have positive : 0 < M := by omega
    have rate : 0 < cfg.inputRate := by linarith
    have normalised : cfg.cutoffHz / cfg.inputRate < 1 / 2 := by
      rw [div_lt_iff₀ rate]
      linarith
    have nonzero : (rawTaps cfg).sum ≠ 0 := by
      rw [rawTaps_sum, length]
      exact (rawSum_pos positive (div_pos low rate) normalised).ne'
    exact
      { defined := divisors_ne_zero several rate.ne' nonzero
        symmetric := fun i inside => designFilter_symmetric length positive inside
        unity := designFilter_sum nonzero }

/-- The default filter is well designed. -/
theorem wellDesigned_iff_default : WellDesigned (Config.ofChannel 446106250 : Config ℝ) := by
  refine (wellDesigned_iff rfl ?_ ?_).mpr (by decide)
  · norm_num [Config.ofChannel]
  · norm_num [Config.ofChannel]

/-- The default filter with one tap. -/
noncomputable def oneTap : Config ℝ := { Config.ofChannel 446106250 with numTaps := 1 }

/-- The constructor accepts it, and divides by zero. -/
theorem one_tap_divides_by_zero : init oneTap = .ok (construct oneTap) ∧
    0 < oneTap.cutoffHz ∧ oneTap.cutoffHz < oneTap.inputRate / 2 ∧
    0 ∈ divisors oneTap ∧ ¬WellDesigned oneTap := by
  have zero : 0 ∈ divisors oneTap := by simp [divisors, oneTap]
  refine ⟨rfl, ?_, ?_, zero, fun designed => designed.defined 0 zero rfl⟩
  · norm_num [oneTap, Config.ofChannel]
  · norm_num [oneTap, Config.ofChannel]

end DmrWatchkeeper.ChannelFilterDesign
