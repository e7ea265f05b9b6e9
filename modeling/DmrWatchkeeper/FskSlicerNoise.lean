import DmrWatchkeeper.FskSlicerAdaptation
import Mathlib.Data.List.Forall2

/-! The slicer on noisy symbols. The four levels are told apart as long as the
noise stays below a ninth of the outer level, in whatever order they come: the
gate at 0.6 keeps inner symbols away from estimates that are near, and every
outer symbol brings its estimate nearer. -/
namespace DmrWatchkeeper.FskSlicerNoise
open FskSlicer FskSlicerLevels FskSlicerAdaptation GatedAverage

/-- The deviation of a dibit in Hz, in the mapping of `fsk_slicer.h`. -/
def deviation (dibit : UInt8) : ℤ :=
  if dibit = 1 then 1944 else if dibit = 0 then 648 else if dibit = 2 then -648 else -1944

variable {K : Type} [Field K]

/-- The value of a dibit's symbol where the positive outer symbol has the value `A`. -/
def nominal (A : K) (dibit : UInt8) : K := A * ((deviation dibit : K) / ((1944 : ℤ) : K))

variable [LinearOrder K]

/-- A symbol value that stands for a dibit, within the noise. -/
structure Carries (A noise : K) (dibit : UInt8) (v : K) : Prop where
  dibit_lt : dibit.toNat < 4
  near : |v - nominal A dibit| ≤ noise

/-- An estimate that inner symbols do not move, at most `e` below the weakest
outer symbol. -/
structure Approaches (A noise e p : K) : Prop where
  gate : A / 3 + noise ≤ 0.6 * p
  high : p < 2 * (A - noise)
  low : A - noise - e ≤ p

/-- Both estimates approach the level. -/
structure Tuned (A noise e f : K) (s : FskSlicer K) : Prop where
  ordered : Ordered Config.default s
  positive : Approaches A noise e s.posPeak
  negative : Approaches A noise f (-s.negPeak)

variable [IsStrictOrderedRing K] {A noise e f p u v : K} {s : FskSlicer K} {dibit : UInt8}

@[simp] theorem nominal_one (A : K) : nominal A 1 = A := by
  have scale : deviation 1 = 1944 := rfl
  rw [nominal, scale]
  norm_num

@[simp] theorem nominal_zero (A : K) : nominal A 0 = A / 3 := by
  have scale : deviation 0 = 648 := rfl
  rw [nominal, scale]
  norm_num
  ring

@[simp] theorem nominal_two (A : K) : nominal A 2 = -(A / 3) := by
  have scale : deviation 2 = -648 := rfl
  rw [nominal, scale]
  norm_num
  ring

@[simp] theorem nominal_three (A : K) : nominal A 3 = -A := by
  have scale : deviation 3 = -1944 := rfl
  rw [nominal, scale]
  norm_num

/-! ### One estimate -/

omit [IsStrictOrderedRing K] in
/-- Inner symbols, and all of the other sign, leave the estimate alone. -/
theorem Approaches.still (near : Approaches A noise e p) (inner : u ≤ A / 3 + noise) : level u p = p := by
  exact level_closed (inner.trans near.gate)

/-- An outer symbol shrinks the distance by a hundredth. -/
theorem Approaches.moved (quiet : 0 ≤ noise ∧ 9 * noise < A) (positive : 0 ≤ e)
    (near : Approaches A noise e p) (low : A - noise ≤ u) (high : u ≤ A + noise) :
    Approaches A noise (0.99 * e) (level u p) := by
  obtain ⟨gate, below, above⟩ := near
  by_cases passed : 0.6 * p < u
  · have moves : level u p = p + 0.01 * (u - p) := gated_open passed
    rw [moves]
    refine ⟨?_, ?_, ?_⟩ <;> norm_num <;> linarith
  · rw [level_closed (not_lt.mp passed)]
    norm_num at passed
    refine ⟨gate, below, ?_⟩
    norm_num
    linarith

/-- The estimate separates the inner level from the outer one. -/
theorem Approaches.separates (near : Approaches A noise e p) (close : e < A / 3 - 3 * noise) :
    2 * (A / 3 + noise) < p := by
  have low := near.low
  linarith

theorem Approaches.weaken (near : Approaches A noise e p) (wider : e ≤ f) : Approaches A noise f p where
  gate := near.gate
  high := near.high
  low := (sub_le_sub_left wider _).trans near.low

/-! ### One symbol -/

theorem Carries.cases (carries : Carries A noise dibit v) :
    dibit = 1 ∧ |v - A| ≤ noise ∨ dibit = 0 ∧ |v - A / 3| ≤ noise ∨
      dibit = 2 ∧ |v - -(A / 3)| ≤ noise ∨ dibit = 3 ∧ |v - -A| ≤ noise := by
  obtain ⟨small, near⟩ := carries
  have value : dibit.toNat = 0 ∨ dibit.toNat = 1 ∨ dibit.toNat = 2 ∨ dibit.toNat = 3 := by omega
  rcases value with zero | one | two | three
  · obtain rfl : dibit = 0 := UInt8.toNat_inj.mp zero
    exact .inr (.inl ⟨rfl, nominal_zero A ▸ near⟩)
  · obtain rfl : dibit = 1 := UInt8.toNat_inj.mp one
    exact .inl ⟨rfl, nominal_one A ▸ near⟩
  · obtain rfl : dibit = 2 := UInt8.toNat_inj.mp two
    exact .inr (.inr (.inl ⟨rfl, nominal_two A ▸ near⟩))
  · obtain rfl : dibit = 3 := UInt8.toNat_inj.mp three
    exact .inr (.inr (.inr ⟨rfl, nominal_three A ▸ near⟩))

/-- The value, or its opposite, is near the outer level for one dibit and at
most near the inner one for the others. -/
theorem Carries.sides (quiet : 0 ≤ noise ∧ 9 * noise < A) (carries : Carries A noise dibit v) :
    (dibit = 1 ∧ |v - A| ≤ noise ∨ dibit ≠ 1 ∧ v ≤ A / 3 + noise) ∧
      (dibit = 3 ∧ |-v - A| ≤ noise ∨ dibit ≠ 3 ∧ -v ≤ A / 3 + noise) := by
  have mirrored : |-v - A| = |v - -A| := by rw [← abs_neg, neg_sub, sub_neg_eq_add, sub_neg_eq_add, add_comm]
  rcases carries.cases with ⟨rfl, near⟩ | ⟨rfl, near⟩ | ⟨rfl, near⟩ | ⟨rfl, near⟩ <;>
    obtain ⟨below, above⟩ := abs_le.mp near
  · exact ⟨.inl ⟨rfl, near⟩, .inr ⟨by decide, by linarith⟩⟩
  · exact ⟨.inr ⟨by decide, by linarith⟩, .inr ⟨by decide, by linarith⟩⟩
  · exact ⟨.inr ⟨by decide, by linarith⟩, .inr ⟨by decide, by linarith⟩⟩
  · exact ⟨.inr ⟨by decide, by linarith⟩, .inl ⟨rfl, mirrored ▸ near⟩⟩

/-- The factor by which a symbol shrinks the distance of an estimate. -/
def shrink (outer dibit : UInt8) : K := if dibit = outer then 0.99 else 1

theorem Approaches.step {outer : UInt8} (quiet : 0 ≤ noise ∧ 9 * noise < A) (positive : 0 ≤ e)
    (near : Approaches A noise e p)
    (side : dibit = outer ∧ |u - A| ≤ noise ∨ dibit ≠ outer ∧ u ≤ A / 3 + noise) :
    Approaches A noise (shrink outer dibit * e) (level u p) := by
  rcases side with ⟨same, close⟩ | ⟨other, inner⟩
  · obtain ⟨below, above⟩ := abs_le.mp close
    rw [shrink, if_pos same]
    exact near.moved quiet positive (by linarith) (by linarith)
  · rw [shrink, if_neg other, one_mul, near.still inner]
    exact near

theorem Tuned.track (quiet : 0 ≤ noise ∧ 9 * noise < A) (wide : 0 ≤ e ∧ 0 ≤ f)
    (tuned : Tuned A noise e f s) (carries : Carries A noise dibit v) :
    Tuned A noise (shrink 1 dibit * e) (shrink 3 dibit * f) (s.track v) := by
  obtain ⟨high, low⟩ := track_level tuned.ordered v
  obtain ⟨above, below⟩ := carries.sides quiet
  refine ⟨tuned.ordered.track default_valid v, ?_, ?_⟩
  · rw [high]
    exact tuned.positive.step quiet wide.1 above
  · rw [low, neg_neg]
    exact tuned.negative.step quiet wide.2 below

/-- With both estimates close, the dibit is the one carried. -/
theorem Tuned.decides (tuned : Tuned A noise e f s) (quiet : 0 ≤ noise ∧ 9 * noise < A)
    (close : e < A / 3 - 3 * noise ∧ f < A / 3 - 3 * noise) (carries : Carries A noise dibit v) :
    (decide s v).2 = some dibit := by
  have upper := tuned.positive.separates close.1
  have lower := tuned.negative.separates close.2
  have top := tuned.positive.high
  have bottom := tuned.negative.high
  rcases carries.cases with ⟨rfl, near⟩ | ⟨rfl, near⟩ | ⟨rfl, near⟩ | ⟨rfl, near⟩ <;>
    obtain ⟨below, above⟩ := abs_le.mp near
  · rw [decide_positive tuned.ordered (by linarith), if_pos (by linarith)]
  · rw [decide_positive tuned.ordered (by linarith), if_neg (by linarith)]
  · rw [← neg_neg v, decide_negative tuned.ordered (by linarith), if_neg (by linarith)]
  · rw [← neg_neg v, decide_negative tuned.ordered (by linarith), if_pos (by linarith)]

/-! ### Runs -/

omit [LinearOrder K] [IsStrictOrderedRing K] in
theorem shrink_pow (outer dibit : UInt8) (dibits : List UInt8) (e : K) :
    (0.99 : K) ^ dibits.count outer * (shrink outer dibit * e) = 0.99 ^ (dibit :: dibits).count outer * e := by
  rw [List.count_cons, shrink]
  by_cases same : dibit = outer
  · rw [if_pos same, if_pos (beq_iff_eq.mpr same), pow_succ, mul_assoc]
  · rw [if_neg same, if_neg (by simpa using same), one_mul, Nat.add_zero]

theorem shrink_nonneg (outer dibit : UInt8) (positive : 0 ≤ e) : 0 ≤ shrink outer dibit * e := by
  refine mul_nonneg ?_ positive
  rw [shrink]
  split <;> norm_num

/-- Each outer symbol of a run shrinks the distance of its estimate. -/
theorem Tuned.run (quiet : 0 ≤ noise ∧ 9 * noise < A) {dibits : List UInt8} {values : List K}
    (sent : List.Forall₂ (Carries A noise) dibits values) (wide : 0 ≤ e ∧ 0 ≤ f)
    (tuned : Tuned A noise e f s) :
    Tuned A noise (0.99 ^ dibits.count 1 * e) (0.99 ^ dibits.count 3 * f) (Stage.after decide s values) := by
  induction sent generalizing s e f with
  | nil => simpa using tuned
  | cons carries _ ih =>
    have next := ih ⟨shrink_nonneg _ _ wide.1, shrink_nonneg _ _ wide.2⟩ (tuned.track quiet wide carries)
    rwa [shrink_pow, shrink_pow] at next

theorem shrink_le_one (outer dibit : UInt8) (positive : 0 ≤ e) : shrink outer dibit * e ≤ e := by
  refine mul_le_of_le_one_left positive ?_
  rw [shrink]
  split <;> norm_num

/-- Once both estimates are close, every dibit is right. -/
theorem Tuned.outputs (quiet : 0 ≤ noise ∧ 9 * noise < A) {dibits : List UInt8} {values : List K}
    (sent : List.Forall₂ (Carries A noise) dibits values) (wide : 0 ≤ e ∧ 0 ≤ f)
    (close : e < A / 3 - 3 * noise ∧ f < A / 3 - 3 * noise) (tuned : Tuned A noise e f s) :
    Stage.outputs decide s values = dibits := by
  induction sent generalizing s e f with
  | nil => rfl
  | cons carries _ ih =>
    have first := tuned.decides quiet close carries
    have rest := ih ⟨shrink_nonneg _ _ wide.1, shrink_nonneg _ _ wide.2⟩
      ⟨(shrink_le_one _ _ wide.1).trans_lt close.1, (shrink_le_one _ _ wide.2).trans_lt close.2⟩
      (tuned.track quiet wide carries)
    rw [Stage.outputs_cons, first]
    exact congrArg (List.cons _) rest

/-- The gates are closed to inner symbols, and the estimates below twice the
weakest outer symbol. -/
structure InReach (A noise : K) (s : FskSlicer K) : Prop where
  positive : A / 3 + noise ≤ 0.6 * s.posPeak ∧ s.posPeak < 2 * (A - noise)
  negative : A / 3 + noise ≤ 0.6 * -s.negPeak ∧ -s.negPeak < 2 * (A - noise)

theorem InReach.tuned (reach : InReach A noise s) (ordered : Ordered Config.default s) :
    Tuned A noise (4 / 9 * A - 8 / 3 * noise) (4 / 9 * A - 8 / 3 * noise) s where
  ordered
  positive := ⟨reach.positive.1, reach.positive.2, by
    have gate := reach.positive.1
    norm_num at gate
    linarith⟩
  negative := ⟨reach.negative.1, reach.negative.2, by
    have gate := reach.negative.1
    norm_num at gate
    linarith⟩

/-- A training run has `n` outer symbols of each sign, enough to bring the
estimates from the gate to where they separate the levels. -/
structure Training (A noise : K) (n : ℕ) (dibits : List UInt8) (values : List K) : Prop where
  sent : List.Forall₂ (Carries A noise) dibits values
  positive : n ≤ dibits.count 1
  negative : n ≤ dibits.count 3
  enough : 0.99 ^ n * (4 / 9 * A - 8 / 3 * noise) < A / 3 - 3 * noise

/-- After training, both estimates are close. -/
theorem Training.tuned {n : ℕ} {dibits : List UInt8} {values : List K} (training : Training A noise n dibits values)
    (quiet : 0 ≤ noise ∧ 9 * noise < A) (ordered : Ordered Config.default s) (reach : InReach A noise s) :
    ∃ e, 0 ≤ e ∧ e < A / 3 - 3 * noise ∧ Tuned A noise e e (Stage.after decide s values) := by
  have wide : 0 ≤ 4 / 9 * A - 8 / 3 * noise := by linarith
  have shorter (m : ℕ) (more : n ≤ m) : (0.99 : K) ^ m * (4 / 9 * A - 8 / 3 * noise) ≤
      0.99 ^ n * (4 / 9 * A - 8 / 3 * noise) :=
    mul_le_mul_of_nonneg_right (pow_le_pow_of_le_one (by norm_num) (by norm_num) more) wide
  have run := (reach.tuned ordered).run quiet training.sent ⟨wide, wide⟩
  refine ⟨0.99 ^ n * (4 / 9 * A - 8 / 3 * noise), mul_nonneg (by positivity) wide, training.enough, run.ordered, ?_, ?_⟩
  · exact run.positive.weaken (shorter _ training.positive)
  · exact run.negative.weaken (shorter _ training.negative)

/-- From any reachable state with both estimates in reach, a training run of
noisy symbols is enough: every later dibit is right, and the estimates stay
between twice the inner and twice the outer levels as received. -/
theorem noisy_symbols_sliced {earlier : List K} (reached : Stage.after decide (init Config.default) earlier = s)
    (quiet : 0 ≤ noise ∧ 9 * noise < A) (reach : InReach A noise s) {n : ℕ} {before : List UInt8} {values : List K}
    (training : Training A noise n before values) {dibits : List UInt8} {later : List K}
    (sent : List.Forall₂ (Carries A noise) dibits later) :
    Stage.outputs decide (Stage.after decide s values) later = dibits ∧
      ∀ p ∈ [(Stage.after decide s (values ++ later)).posPeak, -(Stage.after decide s (values ++ later)).negPeak],
        2 * (A / 3 + noise) < p ∧ p < 2 * (A - noise) := by
  have ordered : Ordered Config.default s := reached ▸ run_ordered default_valid earlier
  obtain ⟨e, positive, close, tuned⟩ := training.tuned quiet ordered reach
  have final := tuned.run quiet sent ⟨positive, positive⟩
  have shrunk (m : ℕ) : (0.99 : K) ^ m * e < A / 3 - 3 * noise :=
    (mul_le_of_le_one_left positive (pow_le_one₀ (by norm_num) (by norm_num))).trans_lt close
  refine ⟨tuned.outputs quiet sent ⟨positive, positive⟩ ⟨close, close⟩, ?_⟩
  rw [Stage.after_append]
  intro p member
  simp only [List.mem_cons, List.not_mem_nil, or_false] at member
  rcases member with rfl | rfl
  · exact ⟨final.positive.separates (shrunk _), final.positive.high⟩
  · exact ⟨final.negative.separates (shrunk _), final.negative.high⟩

theorem carries_nominal (positive : 0 ≤ noise) {dibits : List UInt8} (small : ∀ d ∈ dibits, d.toNat < 4) :
    List.Forall₂ (Carries A noise) dibits (dibits.map (nominal A)) :=
  List.forall₂_map_right_iff.mpr (List.forall₂_same.mpr fun d member =>
    ⟨small d member, by rwa [sub_self, abs_zero]⟩)

/-- Forty-three outer symbols of each sign, clean. -/
def outerPairs : List UInt8 := List.replicate 43 1 ++ List.replicate 43 3

theorem outerPairs_small : ∀ d ∈ outerPairs, d.toNat < 4 := by
  intro d member
  rcases List.mem_append.mp member with positive | negative
  · rw [List.eq_of_mem_replicate positive]
    decide
  · rw [List.eq_of_mem_replicate negative]
    decide

/-- From the start, with a noise of a thirtieth of the level. -/
theorem noisy_symbols_sliced_start :
    Stage.outputs decide (Stage.after decide (init Config.default) (outerPairs.map (nominal (0.03 : ℚ))))
      [0.0295, 0.0105, -0.0095, -0.031] = [1, 0, 2, 3] := by
  have training : Training (0.03 : ℚ) 0.001 43 outerPairs (outerPairs.map (nominal 0.03)) :=
    ⟨carries_nominal (by norm_num) outerPairs_small, by decide, by decide, by norm_num⟩
  have reached : Stage.after decide (init (Config.default : Config ℚ)) [] = init Config.default := rfl
  refine (noisy_symbols_sliced reached (by norm_num) ?_ training ?_).1
  · constructor <;> norm_num [init, Config.default]
  · refine .cons ⟨by decide, ?_⟩ (.cons ⟨by decide, ?_⟩ (.cons ⟨by decide, ?_⟩ (.cons ⟨by decide, ?_⟩ .nil)))
    all_goals norm_num [abs_le]

end DmrWatchkeeper.FskSlicerNoise
