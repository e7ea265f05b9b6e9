import DmrWatchkeeper.TimingRecoveryClock
import Mathlib.Tactic.Positivity

/-! The sign of the timing loop: what one strobe on an affine signal does to the
symbol period. The header asks that the error be driven to zero. -/
namespace DmrWatchkeeper.TimingRecoveryFeedback
open TimingRecovery TimingRecoveryExact TimingRecoveryClock

variable {K : Type} [Field K] [LinearOrder K] [FloorRing K]

/-- The current symbol's instant, where the latest sample is pushed at `T`. -/
def symbolInstant (T : K) (s : TimingRecovery K) : K := T - (s.mu + 1 - s.omega)

/-- The middle of the period that ends with the current symbol, from the zero
crossing at `c`: positive where the sampling is late. -/
def timingError (T c : K) (s : TimingRecovery K) : K := symbolInstant T s - s.omega * 0.5 - c

/-- The sample `x` brings a strobe, with the signal `a * (t - c)` in the entries
of the history that it reads and at the previous symbol. -/
structure AffineStrobe (a c T : K) (s : TimingRecovery K) (x : K) : Prop where
  range : InRange s.cfg
  gains : 0 < s.cfg.K1 ∧ 0 < s.cfg.K2
  period : s.cfg.omegaMin ≤ s.omega ∧ s.omega ≤ s.cfg.omegaMax
  due : s.omega ≤ s.mu + 1
  samples : ∀ frac ∈ strobePositions (s.push x), ∀ offset ∈ offsets frac,
    (s.push x).idx offset = a * (T - offset - c)
  integrator : s.vP = 0
  previous : s.prevSym = a * (symbolInstant T s - s.omega - c)

/-- The step of the loop that is asked for: a late strobe does not lengthen the
period, an early one does not shorten it. -/
def OpposesError (T c : K) (s : TimingRecovery K) (x : K) : Prop :=
  (0 < timingError T c s → (processSample s x).1.omega ≤ s.omega) ∧
    (timingError T c s < 0 → s.omega ≤ (processSample s x).1.omega)

variable {a c T x : K} {s : TimingRecovery K}

/-- Interpolation between affine samples is exact. -/
theorem interpolate_affine {frac : K} (samples : ∀ offset ∈ offsets frac,
    s.idx offset = a * (T - offset - c)) : s.interpolate frac = a * (T - frac - c) := by
  simp only [interpolate]
  rw [samples _ (by simp [offsets]), samples _ (by simp [offsets])]
  push_cast
  ring

/-- The detector's output is the timing error with a positive factor. -/
theorem AffineStrobe.detector (strobe : AffineStrobe a c T s x) :
    (s.push x).interpolate ((s.push x).mu - (s.push x).omega + (s.push x).omega * 0.5) *
      ((s.push x).interpolate ((s.push x).mu - (s.push x).omega) - (s.push x).prevSym) =
    a ^ 2 * s.omega * timingError T c s := by
  have one : (1.0 : K) = 1 := by norm_num
  have half : (0.5 : K) = 1 / 2 := by norm_num
  have reads_late := strobe.samples _ (List.mem_cons_self ..)
  have reads_middle := strobe.samples _ (List.mem_cons_of_mem _ (List.mem_cons_self ..))
  have late : (s.push x).mu - (s.push x).omega = s.mu + 1 - s.omega := by
    rw [TimingRecovery.push, one]
  have middle : (s.push x).omega * 0.5 = s.omega / 2 := by
    rw [half, ← div_eq_mul_one_div]
    rfl
  have previous : (s.push x).prevSym = a * (symbolInstant T s - s.omega - c) := strobe.previous
  rw [interpolate_affine reads_late, interpolate_affine reads_middle, late, middle, previous,
    timingError, half, symbolInstant]
  ring

/-- So the new period is the old one and a step in the direction of the error. -/
theorem AffineStrobe.omega_eq (strobe : AffineStrobe a c T s x) :
    (processSample s x).1.omega = max s.cfg.omegaMin (min s.cfg.omegaMax
      (s.omega + (s.cfg.K1 + s.cfg.K2) * (a ^ 2 * s.omega) * timingError T c s)) := by
  have one : (1.0 : K) = 1 := by norm_num
  have due : s.omega ≤ s.mu + 1.0 := by
    rw [one]
    exact strobe.due
  have order := strobe.range.low.trans strobe.range.high
  have integrator : (s.push x).vP = 0 := strobe.integrator
  have step : s.omega + (s.cfg.K1 * (a ^ 2 * s.omega * timingError T c s) +
      (0 + s.cfg.K2 * (a ^ 2 * s.omega * timingError T c s))) =
      s.omega + (s.cfg.K1 + s.cfg.K2) * (a ^ 2 * s.omega) * timingError T c s := by ring
  rw [processSample_strobes due]
  simp only [TimingRecovery.strobe]
  rw [strobe.detector, integrator, ← step]
  exact clamp_eq order _

variable [IsStrictOrderedRing K]

/-- The factor between the timing error and the step. -/
theorem AffineStrobe.gain_pos (strobe : AffineStrobe a c T s x) (sloped : a ≠ 0) :
    0 < (s.cfg.K1 + s.cfg.K2) * (a ^ 2 * s.omega) := by
  have slope : 0 < a ^ 2 := by positivity
  have period := zero_lt_one.trans_le (strobe.range.shortest.trans strobe.period.1)
  exact mul_pos (add_pos strobe.gains.1 strobe.gains.2) (mul_pos slope period)

omit [FloorRing K] in
/-- A clamped step upward leaves only the upper limit where it is. -/
theorem clamped_le_iff {low high omega step : K} (above : low ≤ omega) (below : omega ≤ high)
    (up : 0 < step) : max low (min high (omega + step)) ≤ omega ↔ omega = high := by
  constructor
  · intro kept
    rcases min_le_iff.mp ((le_max_right ..).trans kept) with capped | lower
    · exact le_antisymm below capped
    · linarith
  · rintro rfl
    exact max_le above (min_le_left ..)

omit [FloorRing K] in
theorem le_clamped_iff {low high omega step : K} (above : low ≤ omega) (down : step < 0) :
    omega ≤ max low (min high (omega + step)) ↔ omega = low := by
  constructor
  · intro kept
    rcases le_max_iff.mp kept with capped | higher
    · exact le_antisymm capped above
    · linarith [higher.trans (min_le_right ..)]
  · rintro rfl
    exact le_max_left ..

/-- The loop opposes the error only where there is none, or where the period is
already at the limit that the error pushes it to. -/
theorem opposesError_iff (strobe : AffineStrobe a c T s x) (sloped : a ≠ 0) :
    OpposesError T c s x ↔ timingError T c s = 0 ∨
      0 < timingError T c s ∧ s.omega = s.cfg.omegaMax ∨
      timingError T c s < 0 ∧ s.omega = s.cfg.omegaMin := by
  have gain := strobe.gain_pos sloped
  obtain ⟨above, below⟩ := strobe.period
  unfold OpposesError
  rw [strobe.omega_eq]
  rcases lt_trichotomy (timingError T c s) 0 with early | centred | late
  · rw [le_clamped_iff above (mul_neg_of_pos_of_neg gain early)]
    simp [early, early.ne, early.not_gt]
  · simp [centred]
  · rw [clamped_le_iff above below (mul_pos gain late)]
    simp [late, late.ne', late.not_gt]

/-- A new loop, five samples into the ramp through zero at the start. -/
def ramp : TimingRecovery ℚ := (process (init Config.default) [1, 2, 3, 4, 5]).1

theorem ramp_strobe : AffineStrobe 1 0 6 ramp 6 where
  range := by constructor <;> decide +kernel
  gains := by decide +kernel
  period := by decide +kernel
  due := by decide +kernel
  samples := by decide +kernel
  integrator := by decide +kernel
  previous := by decide +kernel

theorem ramp_cfg : ramp.cfg = Config.default := by
  have keeps (s : TimingRecovery ℚ) (x : ℚ) : (processSample s x).1.cfg = s.cfg := by
    by_cases late : s.omega ≤ s.mu + 1.0
    · rw [processSample_strobes late]
      rfl
    · rw [processSample_quiet late]
      rfl
  simp only [ramp, process, List.foldl_cons, List.foldl_nil, keeps]
  rfl

theorem ramp_late : 0 < timingError 6 0 ramp := by decide +kernel

/-- Its first strobe is half a period late, and the period grows. -/
theorem ramp_not_opposed : AffineStrobe 1 0 6 ramp 6 ∧ ramp.cfg = Config.default ∧
    0 < timingError 6 0 ramp ∧ ramp.omega < (processSample ramp 6).1.omega :=
  ⟨ramp_strobe, ramp_cfg, ramp_late, by decide +kernel⟩

theorem opposesError_iff_ramp : ¬OpposesError 6 0 ramp 6 := by
  rw [opposesError_iff ramp_strobe one_ne_zero]
  rintro (zero | ⟨-, limit⟩ | ⟨early, -⟩)
  · exact absurd zero ramp_late.ne'
  · revert limit
    decide +kernel
  · exact absurd early ramp_late.not_gt

end DmrWatchkeeper.TimingRecoveryFeedback
