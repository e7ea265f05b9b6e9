import DmrWatchkeeper.ChannelFilter
import DmrWatchkeeper.Library.StreamWindow
import Mathlib.Analysis.SpecialFunctions.Trigonometric.Basic

/-! The channel filter in exact arithmetic: over the real numbers its output is
the stream mixed to baseband, convolved with the taps, and thinned out. -/
namespace DmrWatchkeeper

noncomputable instance : FloatLib ℝ where
  pi := Real.pi
  sin := Real.sin
  cos := Real.cos
  abs z := Real.sqrt (z.real ^ 2 + z.imag ^ 2)
  mul z w := ⟨z.real * w.real - z.imag * w.imag, z.real * w.imag + z.imag * w.real⟩

namespace ChannelFilterExact
open ChannelFilter StreamWindow

/-- The number that a pair of floats stands for. -/
def value (z : Complex ℝ) : ℂ := ⟨z.real, z.imag⟩

/-- The sample that an I/Q pair stands for. -/
noncomputable def iqSample (pair : UInt8 × UInt8) : ℂ := ⟨ofByte pair.1, ofByte pair.2⟩

/-- Sample `k` of the stream, counted from zero, and zero before the start. -/
noncomputable def signal (pairs : List (UInt8 × UInt8)) (k : ℤ) : ℂ :=
  if 0 ≤ k then (pairs.map iqSample).getD k.toNat 0 else 0

/-- A sequence of calls of `process`, appending to one vector. -/
noncomputable def processAll (s : ChannelFilter ℝ) (calls : List ((ℕ → UInt8) × ℕ)) :
    ChannelFilter ℝ × List (Complex ℝ) :=
  calls.foldl (fun acc call => process acc.1 call.1 call.2 acc.2) (s, [])

/-- The pairs of a sequence of calls. -/
def pairsOfAll (calls : List ((ℕ → UInt8) × ℕ)) : List (UInt8 × UInt8) :=
  calls.flatMap fun call => pairsOf call.1 call.2

/-- However the stream is cut into calls, the pairs are filtered in one run. -/
theorem processAll_eq (s : ChannelFilter ℝ) (calls : List ((ℕ → UInt8) × ℕ)) :
    processAll s calls = (Stage.after processPair s (pairsOfAll calls),
      Stage.outputs processPair s (pairsOfAll calls)) := by
  suffices general : ∀ (s : ChannelFilter ℝ) out,
      calls.foldl (fun acc call => process acc.1 call.1 call.2 acc.2) (s, out) =
        (Stage.after processPair s (pairsOfAll calls),
          out ++ Stage.outputs processPair s (pairsOfAll calls)) from general s []
  induction calls with
  | nil => simp [pairsOfAll, Stage.outputs]
  | cons call calls ih =>
    intro s out
    have items : pairsOfAll (call :: calls) = pairsOf call.1 call.2 ++ pairsOfAll calls :=
      List.flatMap_cons
    rw [List.foldl_cons, process_eq, ih, items, Stage.after_append, Stage.outputs_append,
      List.append_assoc]

/-! ### Complex arithmetic -/

theorem value_mul (z w : Complex ℝ) : value (FloatLib.mul z w) = value z * value w := by
  apply Complex.ext
  · exact (Complex.mul_re (value z) (value w)).symm
  · exact (Complex.mul_im (value z) (value w)).symm

theorem abs_eq_norm (z : Complex ℝ) : FloatLib.abs z = ‖value z‖ := by
  rw [Complex.norm_def, Complex.normSq_apply, ← sq, ← sq]
  rfl

/-- Dividing by the magnitude changes nothing on the unit circle. -/
theorem renormalised (z : Complex ℝ) (unit : ‖value z‖ = 1) :
    (⟨z.real / FloatLib.abs z, z.imag / FloatLib.abs z⟩ : Complex ℝ) = z := by
  rw [abs_eq_norm, unit, div_one, div_one]

theorem value_injective {z w : Complex ℝ} (same : value z = value w) : z = w := by
  cases z
  cases w
  have real := congrArg Complex.re same
  have imag := congrArg Complex.im same
  simp only [value] at real imag
  rw [real, imag]

/-- The dot product, as numbers. -/
theorem value_firOutput (s : ChannelFilter ℝ) : value s.firOutput =
    (List.zipWith (fun (t : ℝ) (z : ℂ) => t * z) s.taps (s.delay.map value)).sum := by
  have general : ∀ (taps : List ℝ) (delay : List (Complex ℝ)) acc,
      value ((taps.zip delay).foldl (fun acc e =>
        (⟨acc.real + e.1 * e.2.real, acc.imag + e.1 * e.2.imag⟩ : Complex ℝ)) acc) =
      value acc + (List.zipWith (fun (t : ℝ) (z : ℂ) => t * z) taps (delay.map value)).sum := by
    intro taps
    induction taps with
    | nil =>
      intro delay acc
      simp
    | cons t taps ih =>
      intro delay acc
      cases delay with
      | nil => simp
      | cons z delay =>
        rw [List.zip_cons_cons, List.foldl_cons, ih, List.map_cons, List.zipWith_cons_cons,
          List.sum_cons, ← add_assoc]
        congr 1
        apply Complex.ext <;> simp [value]
  have zero : value ⟨0.0, 0.0⟩ = 0 := by
    apply Complex.ext <;> norm_num [value]
  rw [firOutput, general, zero, zero_add]

/-! ### One pair -/

/-- A filter as the constructor leaves it, with any coefficients and oscillator
step. -/
def fresh (cfg : Config ℝ) (taps : List ℝ) (oscStep : Complex ℝ) : ChannelFilter ℝ where
  cfg
  taps
  delay := List.replicate cfg.numTaps ⟨0.0, 0.0⟩
  osc := ⟨1.0, 0.0⟩
  oscStep
  decimCount := 0
  oscNormCounter := 0

/-- The stream after the mixer: item `i`, counted from one. -/
noncomputable def mixed (step : ℂ) (pairs : List (UInt8 × UInt8)) (i : ℤ) : ℂ :=
  signal pairs (i - 1) * step ^ (i - 1)

/-- The dot product of the taps with the latest of `n` mixed samples. -/
noncomputable def filtered (taps : List ℝ) (step : ℂ) (pairs : List (UInt8 × UInt8)) (n : ℤ) : ℂ :=
  ∑ j ∈ Finset.range taps.length, taps.getD j 0 * mixed step pairs (n - j)

/-- The filter after `n` pairs. -/
structure Mixes (cfg : Config ℝ) (taps : List ℝ) (oscStep : Complex ℝ)
    (pairs : List (UInt8 × UInt8)) (n : ℕ) (s : ChannelFilter ℝ) : Prop where
  config : s.cfg = cfg
  taps : s.taps = taps
  step : s.oscStep = oscStep
  osc : value s.osc = value oscStep ^ n
  delay : s.delay.map value = (window (mixed (value oscStep) pairs) n cfg.numTaps).reverse
  count : s.decimCount = n % cfg.decimation

variable {cfg : Config ℝ} {taps : List ℝ} {oscStep : Complex ℝ} {pairs : List (UInt8 × UInt8)}
  {n : ℕ} {s : ChannelFilter ℝ}

theorem fresh_mixes : Mixes cfg taps oscStep pairs 0 (fresh cfg taps oscStep) where
  config := rfl
  taps := rfl
  step := rfl
  osc := by
    apply Complex.ext <;> norm_num [fresh, value]
  delay := by
    have zero : value ⟨0.0, 0.0⟩ = 0 := by
      apply Complex.ext <;> norm_num [value]
    refine List.ext_getElem (by simp [fresh]) fun k _ bound => ?_
    have before : ¬0 ≤ ((0 : ℕ) : ℤ) - k - 1 := by omega
    rw [getElem_delay, mixed, signal, if_neg before, zero_mul]
    simp [fresh, zero]
  count := by simp [fresh]

/-- The phasor advances by one step, renormalised or not. -/
theorem Mixes.advanceOsc (mixes : Mixes cfg taps oscStep pairs n s) (unit : ‖value oscStep‖ = 1) :
    value s.advanceOsc.osc = value oscStep ^ (n + 1) := by
  have product : value (FloatLib.mul s.osc s.oscStep) = value oscStep ^ (n + 1) := by
    rw [value_mul, mixes.osc, mixes.step, pow_succ]
  have on_circle : ‖value (FloatLib.mul s.osc s.oscStep)‖ = 1 := by
    rw [product, norm_pow, unit, one_pow]
  have advanced : s.advanceOsc.osc = FloatLib.mul s.osc s.oscStep := by
    by_cases due : s.oscNormCounter + 1 ≥ 1024
    · simp only [ChannelFilter.advanceOsc, if_pos due]
      exact renormalised _ on_circle
    · simp only [ChannelFilter.advanceOsc, if_neg due]
  rw [advanced, product]

/-- The dot product over the delay line. -/
theorem Mixes.firOutput (mixes : Mixes cfg taps oscStep pairs n s)
    (length : taps.length = cfg.numTaps) :
    value s.firOutput = filtered taps (value oscStep) pairs n := by
  have listed : List.zipWith (fun (t : ℝ) (z : ℂ) => t * z) taps
      (window (mixed (value oscStep) pairs) n cfg.numTaps).reverse =
      (List.range taps.length).map fun j =>
        (taps.getD j 0 : ℂ) * mixed (value oscStep) pairs (n - j) := by
    refine List.ext_getElem (by simp [length]) fun k bound inside => ?_
    have known : k < taps.length := by simpa using inside
    rw [List.getElem_zipWith, getElem_delay, List.getElem_map, List.getElem_range,
      List.getD_eq_getElem?_getD, List.getElem?_eq_getElem known, Option.getD_some]
  rw [value_firOutput, mixes.taps, mixes.delay, listed]
  rfl

theorem signal_known (bound : n < pairs.length) : signal pairs n = iqSample pairs[n] := by
  rw [signal, if_pos (by omega), Int.toNat_natCast, List.getD_eq_getElem?_getD,
    List.getElem?_map, List.getElem?_eq_getElem bound, Option.map_some, Option.getD_some]

/-- A floating-point pair for a number. -/
noncomputable def ofValue (c : ℂ) : Complex ℝ := ⟨c.re, c.im⟩

/-- The decimation counter starts again on the pairs that `D` divides. -/
theorem decimCount_succ {D : ℤ} (positive : 1 ≤ D) (n : ℕ) :
    (((n + 1 : ℕ) : ℤ) % D = if n % D + 1 ≥ D then 0 else n % D + 1) ∧
      (n % D + 1 ≥ D ↔ D.toNat ∣ n + 1) := by
  have low := Int.emod_nonneg n (show D ≠ 0 by omega)
  have high := Int.emod_lt_of_pos n (show 0 < D by omega)
  have next : ((n + 1 : ℕ) : ℤ) % D = if n % D + 1 ≥ D then 0 else n % D + 1 := by
    rw [Nat.cast_succ, ← Int.emod_add_emod]
    by_cases due : n % D + 1 ≥ D
    · have full : n % D + 1 = D := by omega
      rw [if_pos due, full, Int.emod_self]
    · rw [if_neg due, Int.emod_eq_of_lt (by omega) (by omega)]
  have divides : D.toNat ∣ n + 1 ↔ ((n + 1 : ℕ) : ℤ) % D = 0 := by
    rw [← Int.natCast_dvd_natCast, Int.toNat_of_nonneg (by omega), Int.dvd_iff_emod_eq_zero]
  refine ⟨next, ?_⟩
  rw [divides, next]
  split <;> omega

/-- The phasor's step touches the phasor and its counter alone. -/
theorem advanceOsc_frame (s : ChannelFilter ℝ) : s.advanceOsc.cfg = s.cfg ∧
    s.advanceOsc.taps = s.taps ∧ s.advanceOsc.oscStep = s.oscStep ∧
    s.advanceOsc.delay = s.delay ∧ s.advanceOsc.decimCount = s.decimCount := by
  by_cases due : s.oscNormCounter + 1 ≥ 1024
  · simp only [ChannelFilter.advanceOsc, if_pos due, and_self]
  · simp only [ChannelFilter.advanceOsc, if_neg due, and_self]

/-- One pair: the sample is mixed with the phasor of its own index, and every
`D`th pair puts out the dot product. -/
theorem Mixes.processPair (mixes : Mixes cfg taps oscStep pairs n s) (unit : ‖value oscStep‖ = 1)
    (length : taps.length = cfg.numTaps) (positive : 0 < cfg.numTaps) (rate : 1 ≤ cfg.decimation)
    (bound : n < pairs.length) :
    Mixes cfg taps oscStep pairs (n + 1) (ChannelFilter.processPair s pairs[n]).1 ∧
      (ChannelFilter.processPair s pairs[n]).2 = if cfg.decimation.toNat ∣ n + 1 then
        some (ofValue (filtered taps (value oscStep) pairs (n + 1 : ℕ))) else none := by
  have newest : value (FloatLib.mul ⟨ofByte pairs[n].1, ofByte pairs[n].2⟩ s.osc) =
      mixed (value oscStep) pairs (n + 1) := by
    rw [value_mul, mixes.osc, mixed, add_sub_cancel_right, signal_known bound, zpow_natCast]
    rfl
  have advanced := mixes.advanceOsc unit
  obtain ⟨same_cfg, same_taps, same_step, same_delay, same_count⟩ := advanceOsc_frame s
  obtain ⟨next_count, due_iff⟩ := decimCount_succ rate n
  have pushed : ∀ count : ℤ, count = ((n + 1 : ℕ) : ℤ) % cfg.decimation →
      Mixes cfg taps oscStep pairs (n + 1) { s.advanceOsc with
        delay := FloatLib.mul ⟨ofByte pairs[n].1, ofByte pairs[n].2⟩ s.osc ::
          s.advanceOsc.delay.dropLast
        decimCount := count } := by
    intro count counted
    refine ⟨same_cfg.trans mixes.config, same_taps.trans mixes.taps, same_step.trans mixes.step,
      advanced, ?_, counted⟩
    rw [same_delay, List.map_cons, List.map_dropLast, mixes.delay, newest, Nat.cast_succ]
    exact delay_push _ n positive
  have condition : s.advanceOsc.decimCount + 1 ≥ s.advanceOsc.cfg.decimation ↔
      (n : ℤ) % cfg.decimation + 1 ≥ cfg.decimation := by
    rw [same_count, same_cfg, mixes.count, mixes.config]
  simp only [ChannelFilter.processPair, condition]
  by_cases due : (n : ℤ) % cfg.decimation + 1 ≥ cfg.decimation
  · rw [if_pos due] at next_count
    have here := pushed 0 next_count.symm
    have output := here.firOutput length
    rw [if_pos due, if_pos (due_iff.mp due)]
    refine ⟨here, congrArg some (value_injective ?_)⟩
    exact output
  · rw [if_neg due] at next_count
    have here := pushed _ next_count.symm
    rw [← mixes.count, ← same_count] at here
    rw [if_neg due, if_neg (mt due_iff.mpr due)]
    exact ⟨here, rfl⟩

/-! ### Whole streams -/

/-- Output `m` of a textbook decimating mixer and filter: the whole stream is
mixed, the whole result convolved with the taps, and every `D`th value kept. -/
noncomputable def textbook (taps : List ℝ) (step : ℂ) (pairs : List (UInt8 × UInt8)) (D m : ℕ) : ℂ :=
  ∑ j ∈ Finset.range taps.length, (taps.getD j 0 : ℂ) *
    (signal pairs (((m + 1) * D : ℕ) - 1 - j) * step ^ (((m + 1) * D : ℕ) - 1 - j : ℤ))

theorem filtered_eq_textbook (taps : List ℝ) (step : ℂ) (pairs : List (UInt8 × UInt8)) (D m : ℕ) :
    filtered taps step pairs ((m + 1) * D : ℕ) = textbook taps step pairs D m := by
  refine Finset.sum_congr rfl fun j _ => ?_
  rw [mixed, sub_right_comm]

/-- With a step on the unit circle, any taps and any calls, the filter puts out
one sample for each `D` pairs, and they are the textbook's; the phasor has the
power of the step that it would have without renormalisation. -/
theorem process_textbook (odd : cfg.numTaps % 2 = 1) (length : taps.length = cfg.numTaps)
    (rate : 1 ≤ cfg.decimation) (unit : ‖value oscStep‖ = 1) (calls : List ((ℕ → UInt8) × ℕ)) :
    (processAll (fresh cfg taps oscStep) calls).2.length =
      (pairsOfAll calls).length / cfg.decimation.toNat ∧
    (processAll (fresh cfg taps oscStep) calls).2.map value =
      (List.range ((pairsOfAll calls).length / cfg.decimation.toNat)).map
        (textbook taps (value oscStep) (pairsOfAll calls) cfg.decimation.toNat) ∧
    value (processAll (fresh cfg taps oscStep) calls).1.osc =
      value oscStep ^ (pairsOfAll calls).length := by
  rw [processAll_eq]
  have start : Mixes cfg taps oscStep (pairsOfAll calls) 0 (fresh cfg taps oscStep) := fresh_mixes
  obtain ⟨mixes, outputs⟩ := Stage.outputs_every (D := cfg.decimation.toNat)
    (f := fun n => ofValue (filtered taps (value oscStep) (pairsOfAll calls) n))
    ChannelFilter.processPair start
    fun n bound s mixes => Mixes.processPair mixes unit length (by omega) rate bound
  rw [outputs]
  refine ⟨by simp, ?_, mixes.osc⟩
  rw [List.map_map]
  refine List.map_congr_left fun m _ => ?_
  exact filtered_eq_textbook ..

/-- The constructor's filter is one of these. -/
theorem construct_fresh (cfg : Config ℝ) :
    construct cfg = fresh cfg (designFilter cfg) (construct cfg).oscStep ∧
      (designFilter cfg).length = cfg.numTaps ∧ ‖value (construct cfg).oscStep‖ = 1 := by
  refine ⟨rfl, by simp [designFilter], ?_⟩
  rw [Complex.norm_def, Complex.normSq_apply, ← sq, ← sq, Real.sqrt_eq_one]
  exact Real.cos_sq_add_sin_sq _

/-- The filter of a channel puts out one sample for ten pairs. -/
theorem process_textbook_channel : (processAll
    (construct (Config.ofChannel 446106250 : Config ℝ)) [(fun _ => 0, 7), (fun _ => 255, 3)]).2.length = 1 := by
  obtain ⟨made, length, unit⟩ := construct_fresh (Config.ofChannel 446106250)
  rw [made]
  exact (process_textbook rfl length (by decide) unit [(fun _ => 0, 7), (fun _ => 255, 3)]).1

end ChannelFilterExact
end DmrWatchkeeper
