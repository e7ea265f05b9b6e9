import DmrWatchkeeper.FskSlicerLevels

/-! How far the slicer adapts: with the gate at 0.6 of the estimates, repeated
outer symbols bring the estimates to their level from anywhere below, but from
above only where they pass the gate. -/
namespace DmrWatchkeeper.FskSlicerAdaptation
open FskSlicer FskSlicerLevels GatedAverage

variable {K : Type} [Field K] [LinearOrder K]

/-- `n` outer pairs at the level `A`. -/
def pairs (A : K) (n : ℕ) : List K := (List.replicate n [A, -A]).flatten

/-- The four ideal symbols, each decided on its own. -/
def DecidesEach (A : K) (s : FskSlicer K) : Prop :=
  (decide s A).2 = some 1 ∧ (decide s (A / 3)).2 = some 0 ∧
    (decide s (-(A / 3))).2 = some 2 ∧ (decide s (-A)).2 = some 3

/-- The four ideal symbols, decided one after the other. -/
def DecidesInTurn (A : K) (s : FskSlicer K) : Prop :=
  Stage.outputs decide s [A, A / 3, -(A / 3), -A] = [1, 0, 2, 3]

variable [IsStrictOrderedRing K] {A : K} {s : FskSlicer K} {n : ℕ}

/-- The gated average of the default configuration. -/
def level (v p : K) : K :=
  gated (Config.default : Config K).emaAlpha (Config.default : Config K).outerThresh v p

/-! ### One level -/

omit [IsStrictOrderedRing K] in
theorem level_closed {v p : K} (below : v ≤ 0.6 * p) : level v p = p := gated_closed below

theorem gain_bounds : 0 ≤ (Config.default : Config K).emaAlpha ∧
    (Config.default : Config K).emaAlpha < 1 ∧ 1 ≤ 2 * (Config.default : Config K).outerThresh := by
  norm_num [Config.default]

theorem level_le_double {v p : K} (positive : 0 < p) : level v p ≤ 2 * v ↔ p ≤ 2 * v := by
  obtain ⟨low, high, gate⟩ := gain_bounds (K := K)
  exact gated_le_double_iff low high gate positive

theorem level_lt_double {v p : K} (positive : 0 < p) : level v p < 2 * v ↔ p < 2 * v := by
  obtain ⟨low, high, gate⟩ := gain_bounds (K := K)
  exact gated_lt_double_iff low high gate positive

/-- Repeated outer symbols bring an estimate near their level, or never move it. -/
theorem level_eventually [Archimedean K] (outer : 0 < A) (p : K) : ∃ N, ∀ n ≥ N,
    2 * (A / 3) < (level A)^[n] p ∧ ((level A)^[n] p = p ∨ (level A)^[n] p < 2 * A) := by
  by_cases above : 0.6 * p < A
  · have alpha : (0 : K) < 0.01 ∧ (0.01 : K) < 1 := by norm_num
    have gate : (0 : K) < 0.6 ∧ (0.6 : K) ≤ 1 := by norm_num
    obtain ⟨N, near⟩ := average_eventually alpha.1 alpha.2 A p (show 0 < A / 3 by linarith)
    refine ⟨N, fun n late => ?_⟩
    have moved : (level A)^[n] p = (average 0.01 A)^[n] p :=
      gated_iterate alpha.1.le alpha.2 gate.1 gate.2 outer.le above n
    obtain ⟨low, high⟩ := abs_lt.mp (near n late)
    rw [moved]
    exact ⟨by linarith, .inr (by linarith)⟩
  · refine ⟨0, fun n _ => ?_⟩
    have stuck : (level A)^[n] p = p := gated_stuck (not_lt.mp above) n
    have high : A ≤ 0.6 * p := not_lt.mp above
    rw [stuck]
    exact ⟨by norm_num at high; linarith, .inl rfl⟩

/-- An estimate of twice the level or more stays where it is. -/
theorem level_stuck (outer : 0 < A) {p : K} (high : 2 * A ≤ p) (n : ℕ) : (level A)^[n] p = p := by
  have below : A ≤ 0.6 * p := by
    norm_num
    linarith
  exact gated_stuck below n

theorem lt_level {v p b : K} (value : b ≤ v) (estimate : b < p) : b < level v p := by
  obtain ⟨low, high, -⟩ := gain_bounds (K := K)
  by_cases above : (Config.default : Config K).outerThresh * p < v
  · rw [level, gated_open above]
    exact lt_average low high value estimate
  · rw [level, gated_closed (not_lt.mp above)]
    exact estimate

/-! ### Decisions -/

theorem track_level (ordered : Ordered Config.default s) (v : K) :
    (s.track v).posPeak = level v s.posPeak ∧ (s.track v).negPeak = -level (-v) (-s.negPeak) :=
  ordered.track_peaks default_valid v

theorem track_positive (ordered : Ordered Config.default s) {v : K} (positive : 0 ≤ v) :
    (s.track v).negPeak = s.negPeak := by
  have low := ordered.low
  rw [(track_level ordered v).2, level_closed, neg_neg]
  norm_num
  linarith

theorem track_negative (ordered : Ordered Config.default s) {v : K} (positive : 0 ≤ v) :
    (s.track (-v)).posPeak = s.posPeak := by
  have high := ordered.high
  rw [(track_level ordered (-v)).1, level_closed]
  norm_num
  linarith

theorem decide_positive (ordered : Ordered Config.default s) {v : K} (positive : 0 ≤ v) :
    (decide s v).2 = some (if s.posPeak ≤ 2 * v then 1 else 0) := by
  simp only [FskSlicer.decide, slice_eq, (track_level ordered v).1, level_le_double ordered.high,
    if_pos positive]

theorem decide_negative (ordered : Ordered Config.default s) {v : K} (positive : 0 < v) :
    (decide s (-v)).2 = some (if -s.negPeak < 2 * v then 3 else 2) := by
  have peak := neg_pos.mpr ordered.low
  have later := (ordered.track default_valid (-v)).high
  have below : -level v (-s.negPeak) ≤ 2 * -v ↔ ¬-s.negPeak < 2 * v := by
    rw [← level_lt_double peak, not_lt]
    constructor <;> intro order <;> linarith
  simp only [FskSlicer.decide, slice_eq, (track_level ordered (-v)).2, neg_neg, below, ite_not]
  rw [if_neg (by linarith), if_neg (by linarith)]

theorem decidesEach_iff (ordered : Ordered Config.default s) (outer : 0 < A) :
    DecidesEach A s ↔ (2 * (A / 3) < s.posPeak ∧ s.posPeak ≤ 2 * A) ∧
      2 * (A / 3) ≤ -s.negPeak ∧ -s.negPeak < 2 * A := by
  have inner : 0 < A / 3 := by linarith
  rw [DecidesEach, decide_positive ordered outer.le, decide_positive ordered inner.le,
    decide_negative ordered inner, decide_negative ordered outer]
  simp [and_left_comm, and_assoc]

/-- In turn, the inner symbols meet the estimate that the first outer one moved,
and move none of those that suit them. -/
theorem decidesInTurn_iff (ordered : Ordered Config.default s) (outer : 0 < A) :
    DecidesInTurn A s ↔ s.posPeak ≤ 2 * A ∧ 2 * (A / 3) < level A s.posPeak ∧
      2 * (A / 3) ≤ -s.negPeak ∧ level (A / 3) (-s.negPeak) < 2 * A := by
  have inner : 0 < A / 3 := by linarith
  have first := ordered.track default_valid A
  have second := first.track default_valid (A / 3)
  have third := second.track default_valid (-(A / 3))
  have low_second : ((s.track A).track (A / 3)).negPeak = s.negPeak := by
    rw [track_positive first inner.le, track_positive ordered outer.le]
  have low_third : -(((s.track A).track (A / 3)).track (-(A / 3))).negPeak =
      level (A / 3) (-s.negPeak) := by
    rw [(track_level second _).2, neg_neg, neg_neg, low_second]
  have taken (s : FskSlicer K) (v : K) : (decide s v).1 = s.track v := rfl
  rw [DecidesInTurn, Stage.outputs_cons, Stage.outputs_cons, Stage.outputs_cons,
    Stage.outputs_cons, taken, taken, taken, decide_positive ordered outer.le,
    decide_positive first inner.le, decide_negative second inner, decide_negative third outer,
    (track_level ordered A).1, low_second, low_third]
  simp [Stage.outputs]

/-! ### Runs of outer pairs -/

/-- The two estimates move apart from each other. -/
theorem after_pairs (ordered : Ordered Config.default s) (outer : 0 < A) (n : ℕ) :
    Ordered Config.default (Stage.after decide s (pairs A n)) ∧
      (Stage.after decide s (pairs A n)).posPeak = (level A)^[n] s.posPeak ∧
      -(Stage.after decide s (pairs A n)).negPeak = (level A)^[n] (-s.negPeak) := by
  induction n generalizing s with
  | zero => exact ⟨ordered, rfl, rfl⟩
  | succ n ih =>
    have up := ordered.track default_valid A
    have down := up.track default_valid (-A)
    have high_moved : ((s.track A).track (-A)).posPeak = level A s.posPeak := by
      rw [track_negative up outer.le, (track_level ordered A).1]
    have low_moved : -((s.track A).track (-A)).negPeak = level A (-s.negPeak) := by
      rw [(track_level up (-A)).2, neg_neg, neg_neg, track_positive ordered outer.le]
    obtain ⟨final, high, low⟩ := ih down
    rw [Function.iterate_succ_apply, Function.iterate_succ_apply, ← high_moved, ← low_moved]
    exact ⟨final, high, low⟩

/-- Estimates of at most twice the new level come to serve it. -/
theorem pairs_adapt [Archimedean K] (ordered : Ordered Config.default s) (outer : 0 < A)
    (high : s.posPeak ≤ 2 * A) (low : -(2 * A) < s.negPeak) : ∃ N, ∀ n ≥ N,
    DecidesEach A (Stage.after decide s (pairs A n)) ∧
      DecidesInTurn A (Stage.after decide s (pairs A n)) := by
  obtain ⟨N, upper⟩ := level_eventually outer s.posPeak
  obtain ⟨M, lower⟩ := level_eventually outer (-s.negPeak)
  refine ⟨max N M, fun n late => ?_⟩
  obtain ⟨ordered_n, high_n, low_n⟩ := after_pairs ordered outer n
  obtain ⟨high_inner, high_outer⟩ := upper n ((le_max_left N M).trans late)
  obtain ⟨low_inner, low_outer⟩ := lower n ((le_max_right N M).trans late)
  rw [← high_n] at high_inner high_outer
  rw [← low_n] at low_inner low_outer
  have high_fits : (Stage.after decide s (pairs A n)).posPeak ≤ 2 * A := by
    rcases high_outer with same | below <;> linarith
  have low_fits : -(Stage.after decide s (pairs A n)).negPeak < 2 * A := by
    rcases low_outer with same | below <;> linarith
  constructor
  · exact (decidesEach_iff ordered_n outer).mpr ⟨⟨high_inner, high_fits⟩, low_inner.le, low_fits⟩
  · refine (decidesInTurn_iff ordered_n outer).mpr ⟨high_fits, ?_, low_inner.le, ?_⟩
    · exact lt_level (by linarith) high_inner
    · rw [level_closed]
      · exact low_fits
      · norm_num
        linarith

/-- An estimate above twice the new level keeps the outer symbol from being
decided, after any number of pairs. -/
theorem pairs_stuck (ordered : Ordered Config.default s) (outer : 0 < A)
    (decides : DecidesEach A (Stage.after decide s (pairs A n)) ∨
      DecidesInTurn A (Stage.after decide s (pairs A n))) :
    s.posPeak ≤ 2 * A ∧ -(2 * A) < s.negPeak := by
  obtain ⟨ordered_n, high_n, low_n⟩ := after_pairs ordered outer n
  have fits : (Stage.after decide s (pairs A n)).posPeak ≤ 2 * A ∧
      -(Stage.after decide s (pairs A n)).negPeak < 2 * A := by
    rcases decides with each | in_turn
    · obtain ⟨⟨-, high⟩, -, low⟩ := (decidesEach_iff ordered_n outer).mp each
      exact ⟨high, low⟩
    · obtain ⟨high, -, -, low⟩ := (decidesInTurn_iff ordered_n outer).mp in_turn
      refine ⟨high, ?_⟩
      by_contra large
      rw [level_closed] at low
      · exact large low
      · norm_num
        linarith
  rw [high_n, low_n] at fits
  constructor
  · by_contra large
    rw [level_stuck outer (not_le.mp large).le n] at fits
    exact large fits.1
  · by_contra large
    have high : 2 * A ≤ -s.negPeak := by linarith
    rw [level_stuck outer high n] at fits
    linarith [fits.2]

/-- From every state that any symbol values lead to, repeated outer pairs make
the slicer decide the four ideal symbols of their level, each alone or in turn,
exactly where neither estimate is above twice that level; and then it keeps
deciding them. -/
theorem slicer_adapts_iff [Archimedean K] {vs : List K}
    (reached : Stage.after decide (init Config.default) vs = s) (outer : 0 < A) :
    (s.posPeak ≤ 2 * A ∧ -(2 * A) < s.negPeak → ∃ N, ∀ n ≥ N,
      DecidesEach A (Stage.after decide s (pairs A n)) ∧
        DecidesInTurn A (Stage.after decide s (pairs A n))) ∧
    ((∃ n, DecidesEach A (Stage.after decide s (pairs A n)) ∨
      DecidesInTurn A (Stage.after decide s (pairs A n))) →
        s.posPeak ≤ 2 * A ∧ -(2 * A) < s.negPeak) := by
  have ordered : Ordered Config.default s := reached ▸ run_ordered default_valid vs
  constructor
  · rintro ⟨high, low⟩
    exact pairs_adapt ordered outer high low
  · rintro ⟨n, decides⟩
    exact pairs_stuck ordered outer decides

/-- After a few weak symbols, a level that is not decided yet, and comes to be. -/
theorem slicer_adapts_iff_louder :
    ¬DecidesEach (0.1 : ℚ) (Stage.after decide (init Config.default) [0.015, 0.05, -0.03]) ∧ ∃ N, ∀ n ≥ N,
      DecidesEach (0.1 : ℚ)
        (Stage.after decide (Stage.after decide (init Config.default) [0.015, 0.05, -0.03]) (pairs 0.1 n)) ∧
      DecidesInTurn (0.1 : ℚ)
        (Stage.after decide (Stage.after decide (init Config.default) [0.015, 0.05, -0.03]) (pairs 0.1 n)) := by
  constructor
  · rintro ⟨-, inner, -⟩
    revert inner
    decide +kernel
  · refine (slicer_adapts_iff rfl (by norm_num)).1 ?_
    decide +kernel

/-- One strong symbol at the start, and the first level is never decided again,
neither each symbol alone nor in turn. -/
theorem strong_symbol_never_adapts : ¬∃ n,
    DecidesEach (0.02 : ℚ) (Stage.after decide
      (Stage.after decide (init Config.default) [100]) (pairs 0.02 n)) ∨
    DecidesInTurn (0.02 : ℚ) (Stage.after decide
      (Stage.after decide (init Config.default) [100]) (pairs 0.02 n)) := by
  rintro ⟨n, decides⟩
  have high := (pairs_stuck (run_ordered default_valid [100]) (by norm_num) decides).1
  revert high
  decide +kernel

end DmrWatchkeeper.FskSlicerAdaptation
