import DmrWatchkeeper.TimingRecoveryClock
import DmrWatchkeeper.Library.GatedAverage

/-! How far the timing loop goes on bounded samples. Its symbols are bounded by
them, but its integrator is not limited: wound up, it holds the period at a
limit for many symbols, whatever the samples are. -/
namespace DmrWatchkeeper.TimingRecoveryLimits
open TimingRecovery TimingRecoveryExact TimingRecoveryClock GatedAverage

theorem clamp_high {F : Type} [LinearOrder F] {v lo hi : F} (order : lo ≤ hi) (above : hi ≤ v) :
    clamp v lo hi = hi := by
  rw [clamp_eq order, min_eq_left above, max_eq_right order]

theorem clamp_low {F : Type} [LinearOrder F] {v lo hi : F} (order : lo ≤ hi) (below : v ≤ lo) :
    clamp v lo hi = lo := by
  rw [clamp_eq order, min_eq_right (below.trans order), max_eq_left below]

variable {K : Type} [Field K] [LinearOrder K]

/-- The samples and the symbol in store are within `M`. -/
structure Within (M : K) (s : TimingRecovery K) : Prop where
  samples : ∀ i, |s.hist.getD i 0.0| ≤ M
  symbol : |s.prevSym| ≤ M

/-- The largest timing error on samples within `M`. -/
def swing (M : K) : K := M * (M + M)

section Error
variable [FloorRing K]

/-- The Gardner error of a strobe. -/
def gardner (s : TimingRecovery K) : K :=
  s.interpolate (s.mu - s.omega + s.omega * 0.5) * (s.interpolate (s.mu - s.omega) - s.prevSym)

theorem strobe_parts (s : TimingRecovery K) : s.strobe.1.vP = s.vP + s.cfg.K2 * gardner s ∧
    s.strobe.1.omega = clamp (s.omega + (s.cfg.K1 * gardner s + (s.vP + s.cfg.K2 * gardner s)))
      s.cfg.omegaMin s.cfg.omegaMax := ⟨rfl, rfl⟩

end Error

variable [IsStrictOrderedRing K] [FloorRing K] {cfg : Config K} {M x limit : K} {s : TimingRecovery K} {k : ℕ}

theorem init_within (positive : 0 ≤ M) (cfg : Config K) : Within M (init cfg) where
  samples i := by
    have zero : (init cfg).hist.getD i 0.0 = 0 := by
      have none : (0.0 : K) = 0 := by norm_num
      simp only [init, none, Vector.getD, Array.getD]
      split
      · simp
      · rfl
    rwa [zero, abs_zero]
  symbol := by
    have zero : (init cfg).prevSym = 0 := by norm_num [init]
    rwa [zero, abs_zero]

omit [IsStrictOrderedRing K] [FloorRing K] in
theorem Within.push (within : Within M s) (bounded : |x| ≤ M) : Within M (s.push x) where
  samples i := by
    have old := within.samples i
    by_cases here : s.histIdx.toNat = i ∧ i < 8
    · obtain ⟨rfl, inside⟩ := here
      simpa [TimingRecovery.push, Vector.getD, inside] using bounded
    · by_cases inside : i < 8
      · have other : s.histIdx.toNat ≠ i := fun same => here ⟨same, inside⟩
        simpa [TimingRecovery.push, Vector.getD, inside, other, Vector.getElem_setIfInBounds] using old
      · simpa [TimingRecovery.push, Vector.getD, inside] using old
  symbol := within.symbol

/-- Between two samples lies no larger value. -/
theorem Within.interpolate (within : Within M s) {frac : K} (low : 0 ≤ frac) : |s.interpolate frac| ≤ M := by
  have part : frac - (⌊frac⌋ : K) = Int.fract frac := Int.self_sub_floor frac
  simp only [TimingRecovery.interpolate, CastToInt.toInt, if_pos low, part]
  exact abs_average_le (Int.fract_nonneg frac) (Int.fract_lt_one frac).le (within.samples _) (within.samples _)

/-- In phase, a strobe's two readings are within the bound, and its error within
the swing. -/
theorem Within.gardner (within : Within M s) (phase : s.omega ≤ s.mu) (period : 0 ≤ s.omega) :
    |s.interpolate (s.mu - s.omega)| ≤ M ∧ |gardner s| ≤ swing M := by
  have half : (0.5 : K) = 1 / 2 := by norm_num
  have recent : 0 ≤ s.mu - s.omega := sub_nonneg.mpr phase
  have symbol := within.interpolate recent
  have middle : |s.interpolate (s.mu - s.omega + s.omega * 0.5)| ≤ M := by
    refine within.interpolate (add_nonneg recent ?_)
    rw [half]
    positivity
  have step : |s.interpolate (s.mu - s.omega) - s.prevSym| ≤ M + M :=
    (abs_sub _ _).trans (add_le_add symbol within.symbol)
  refine ⟨symbol, ?_⟩
  rw [TimingRecoveryLimits.gardner, swing, abs_mul]
  exact mul_le_mul middle step (abs_nonneg _) ((abs_nonneg _).trans middle)

theorem Within.strobe (within : Within M s) (phase : s.omega ≤ s.mu) (period : 0 ≤ s.omega) :
    Within M s.strobe.1 ∧ |s.strobe.2| ≤ M :=
  have symbol := (within.gardner phase period).1
  ⟨⟨within.samples, symbol⟩, symbol⟩

/-! ### Wind-up -/

/-- How far the integrator has to be out for the period to stay at a limit for
`k` symbols. -/
def pressure (cfg : Config K) (M : K) (k : ℕ) : K :=
  cfg.omegaMax - cfg.omegaMin + cfg.K1 * swing M + k * (cfg.K2 * swing M)

/-- The integrator presses the period to a limit, for `k` symbols more. -/
structure Wound (cfg : Config K) (M limit : K) (k : ℕ) (s : TimingRecovery K) : Prop where
  within : Within M s
  clock : ∃ n used, Clock cfg n used s
  side : limit = cfg.omegaMax ∧ pressure cfg M k ≤ s.vP ∨ limit = cfg.omegaMin ∧ s.vP ≤ -pressure cfg M k

/-- Gains that do not turn the error around. -/
structure Gains (cfg : Config K) : Prop where
  range : InRange cfg
  proportional : 0 ≤ cfg.K1
  integral : 0 ≤ cfg.K2

/-- A strobe of a wound loop puts the period at the limit. -/
theorem Wound.strobe (gains : Gains cfg) (wound : Wound cfg M limit (k + 1) s) (bounded : |x| ≤ M)
    (late : s.omega ≤ (s.push x).mu) :
    Wound cfg M limit k (s.push x).strobe.1 ∧ (s.push x).strobe.1.omega = limit := by
  obtain ⟨within, ⟨n, used, clock⟩, side⟩ := wound
  have order := gains.range.low.trans gains.range.high
  have period : 0 ≤ (s.push x).omega := (zero_le_one.trans gains.range.shortest).trans clock.period.1
  have pushed := within.push bounded
  have small := (pushed.gardner late period).2
  obtain ⟨integrator, next⟩ := strobe_parts (s.push x)
  have config : (s.push x).cfg = cfg := clock.config
  have old : (s.push x).vP = s.vP := rfl
  have now : (s.push x).omega = s.omega := rfl
  obtain ⟨low, high⟩ := abs_le.mp small
  have fast := mul_le_mul_of_nonneg_left high gains.proportional
  have fast' := mul_le_mul_of_nonneg_left low gains.proportional
  have slow := mul_le_mul_of_nonneg_left high gains.integral
  have slow' := mul_le_mul_of_nonneg_left low gains.integral
  have room : 0 ≤ k * (cfg.K2 * swing M) :=
    mul_nonneg k.cast_nonneg (mul_nonneg gains.integral ((abs_nonneg _).trans small))
  rw [config, old, now] at next
  rw [config, old] at integrator
  have above := clock.period.1
  have below := clock.period.2
  rcases side with ⟨rfl, wind⟩ | ⟨rfl, wind⟩ <;> rw [pressure] at wind <;> push_cast at wind
  · refine ⟨⟨(pushed.strobe late period).1, ⟨_, _, clock.strobe gains.range late⟩, .inl ⟨rfl, ?_⟩⟩, ?_⟩
    · rw [integrator, pressure]
      linarith
    · rw [next]
      exact clamp_high order (by linarith)
  · refine ⟨⟨(pushed.strobe late period).1, ⟨_, _, clock.strobe gains.range late⟩, .inr ⟨rfl, ?_⟩⟩, ?_⟩
    · rw [integrator, pressure]
      linarith
    · rw [next]
      exact clamp_low order (by linarith)

theorem Wound.quiet (wound : Wound cfg M limit k s) (bounded : |x| ≤ M) (early : ¬s.omega ≤ (s.push x).mu) :
    Wound cfg M limit k (s.push x) := by
  obtain ⟨within, ⟨n, used, clock⟩, side⟩ := wound
  exact ⟨within.push bounded, ⟨_, _, clock.quiet early⟩, side⟩

/-- While the wind lasts, every strobe leaves the period at the limit. -/
theorem Wound.run (gains : Gains cfg) {xs : List K} (bounded : ∀ x ∈ xs, |x| ≤ M)
    (wound : Wound cfg M limit k s) (few : (Stage.outputs processSample s xs).length ≤ k) :
    (Stage.after processSample s xs).omega = s.omega ∧ Stage.outputs processSample s xs = [] ∨
      (Stage.after processSample s xs).omega = limit := by
  induction xs generalizing s k with
  | nil => exact .inl ⟨rfl, rfl⟩
  | cons x xs ih =>
    have first := bounded x List.mem_cons_self
    have rest := fun y member => bounded y (List.mem_cons_of_mem x member)
    rw [Stage.outputs_cons] at few ⊢
    by_cases late : s.omega ≤ (s.push x).mu
    · rw [Stage.after_cons, processSample_strobes late] at *
      simp only [Option.toList_some, List.length_append, List.length_singleton] at few
      obtain ⟨k, rfl⟩ : ∃ j, k = j + 1 := ⟨k - 1, by omega⟩
      obtain ⟨still, pinned⟩ := wound.strobe gains first late
      refine .inr ?_
      rcases ih rest still (by omega) with ⟨same, -⟩ | there
      · exact same.trans pinned
      · exact there
    · rw [Stage.after_cons, processSample_quiet late] at *
      exact ih rest (wound.quiet first late) (by simpa using few)

/-- After any samples within `M`, the symbol in store is within `M` too. -/
theorem run_within (valid : InRange cfg) (positive : 0 ≤ M) {xs : List K} (bounded : ∀ x ∈ xs, |x| ≤ M) :
    ((∃ n used, Clock cfg n used (Stage.after processSample (init cfg) xs)) ∧
      Within M (Stage.after processSample (init cfg) xs)) ∧
      ∀ y ∈ Stage.outputs processSample (init cfg) xs, |y| ≤ M := by
  refine Stage.run_keeps processSample (I := fun s => (∃ n used, Clock cfg n used s) ∧ Within M s)
    (fun s x held small => ?_) ⟨⟨0, [], init_clock valid⟩, init_within positive cfg⟩ bounded
  obtain ⟨⟨n, used, clock⟩, within⟩ := held
  obtain ⟨more, -, next⟩ := clock.step valid x
  by_cases late : s.omega ≤ (s.push x).mu
  · have period : 0 ≤ (s.push x).omega := (zero_le_one.trans valid.shortest).trans clock.period.1
    have kept := (within.push small).strobe late period
    rw [processSample_strobes late] at *
    exact ⟨⟨⟨_, _, next⟩, kept.1⟩, fun y emitted => Option.some.inj emitted ▸ kept.2⟩
  · rw [processSample_quiet late] at *
    exact ⟨⟨⟨_, _, next⟩, within.push small⟩, fun y emitted => absurd emitted (by simp)⟩

/-- The integrator is not limited. After any samples within `M`, a loop whose
integrator is out by the pressure of `k` symbols keeps the period at its limit
through the next `k` symbols, whatever samples within `M` come. -/
theorem wound_up (gains : Gains cfg) {vectors : List (List K)} (bounded : ∀ x ∈ vectors.flatten, |x| ≤ M)
    (wind : limit = cfg.omegaMax ∧ pressure cfg M k ≤ (processAll (init cfg) vectors).1.vP ∨
      limit = cfg.omegaMin ∧ (processAll (init cfg) vectors).1.vP ≤ -pressure cfg M k)
    {xs : List K} (later : ∀ x ∈ xs, |x| ≤ M)
    (some_ : 0 < (process (processAll (init cfg) vectors).1 xs).2.length)
    (few : (process (processAll (init cfg) vectors).1 xs).2.length ≤ k) :
    (process (processAll (init cfg) vectors).1 xs).1.omega = limit := by
  have positive : 0 ≤ M := by
    cases xs with
    | nil => simp [process] at some_
    | cons x xs => exact (abs_nonneg x).trans (later x List.mem_cons_self)
  rw [processAll_eq] at wind some_ few ⊢
  rw [process_eq] at some_ few ⊢
  obtain ⟨⟨clock, within⟩, -⟩ := run_within gains.range positive bounded
  have wound : Wound cfg M limit k (Stage.after processSample (init cfg) vectors.flatten) := ⟨within, clock, wind⟩
  rcases wound.run gains later few with ⟨-, silent⟩ | there
  · simp [silent] at some_
  · exact there

/-- Blocks of six samples, in alternating signs. -/
def square (blocks : ℕ) : List ℚ := (List.range (6 * blocks)).map fun i => if i / 6 % 2 = 0 then 100 else -100

/-- After twenty blocks, thirty equal samples do not move the period. -/
theorem wound_up_square : (process (processAll (init (Config.default : Config ℚ)) [square 20]).1
    (List.replicate 30 (-100))).1.omega = 6 := by
  have limit : (Config.default : Config ℚ).omegaMax = 6 := by norm_num [Config.default]
  have gains : Gains (Config.default : Config ℚ) :=
    ⟨by constructor <;> norm_num [Config.default], by norm_num [Config.default], by norm_num [Config.default]⟩
  rw [← limit]
  exact wound_up (M := 100) (k := 9) gains (by decide +kernel) (.inl ⟨rfl, by decide +kernel⟩) (by decide +kernel)
    (by decide +kernel) (by decide +kernel)

end DmrWatchkeeper.TimingRecoveryLimits
