import DmrWatchkeeper.ChannelFilterExact
import DmrWatchkeeper.FskDemodulation
import DmrWatchkeeper.Library.Baseband

/-! The front end of a channel in exact arithmetic: what the discriminator puts
out behind the filter is a fixed function of the recent pairs. The oscillator
and the age of the stream drop out, and a steady carrier gives the sine of its
offset from the channel. -/
namespace DmrWatchkeeper.FrontEnd
open ChannelFilter ChannelFilterExact Baseband

/-- The values that the discriminator of a new channel puts out for a stream. -/
noncomputable def discriminated (cfg : Config ℝ) (pairs : List (UInt8 × UInt8)) : List ℝ :=
  Stage.outputs FmDiscriminator.processSample .init
    (Stage.outputs ChannelFilter.processPair (construct cfg) pairs)

/-- Coefficient `j` of the filter. -/
noncomputable def tap (cfg : Config ℝ) (j : ℕ) : ℝ := (designFilter cfg).getD j 0

/-- The oscillator's turn from one sample to the next. -/
noncomputable def turn (cfg : Config ℝ) : ℂ := value (construct cfg).oscStep

/-- What the constructor accepts, with a rate that makes sense. -/
structure Usable (cfg : Config ℝ) : Prop where
  odd : cfg.numTaps % 2 = 1
  rate : 1 ≤ cfg.decimation

variable {cfg : Config ℝ} {pairs : List (UInt8 × UInt8)} {m : ℕ}

theorem turn_unit (cfg : Config ℝ) : ‖turn cfg‖ = 1 := (construct_fresh cfg).2.2

/-! ### The filter's outputs -/

/-- The filtered signal, in the oscillator's frame. -/
theorem filtered_eq (n : ℤ) : filtered (designFilter cfg) (turn cfg) pairs n =
    turn cfg ^ (n - 1) * response (tap cfg) cfg.numTaps (turn cfg) (signal pairs) (n - 1) := by
  rw [← sum_mixed (turn_unit cfg), filtered, (construct_fresh cfg).2.1]
  refine Finset.sum_congr rfl fun j _ => ?_
  rw [mixed, sub_right_comm, tap]

theorem filter_outputs (usable : Usable cfg) (pairs : List (UInt8 × UInt8)) :
    Stage.outputs ChannelFilter.processPair (construct cfg) pairs =
      (List.range (pairs.length / cfg.decimation.toNat)).map fun m =>
        ofValue (filtered (designFilter cfg) (turn cfg) pairs ((m + 1) * cfg.decimation.toNat : ℕ)) := by
  obtain ⟨made, length, unit⟩ := construct_fresh cfg
  have odd := usable.odd
  have start : Mixes cfg (designFilter cfg) (construct cfg).oscStep pairs 0 (construct cfg) := fresh_mixes
  obtain ⟨-, outputs⟩ := Stage.outputs_every (D := cfg.decimation.toNat)
    (f := fun n => ofValue (filtered (designFilter cfg) (turn cfg) pairs n)) ChannelFilter.processPair start
    fun n bound s mixes => Mixes.processPair mixes unit length (by omega) usable.rate bound
  exact outputs

/-! ### The discriminator's outputs -/

theorem processSample_detect (s : FmDiscriminator ℝ) (z : Complex ℝ) :
    (s.processSample z).2 = some (detect (value z) (value s.prev)) := by
  simp only [FmDiscriminator.processSample, detect, value, Complex.mul_im, Complex.conj_re, Complex.conj_im,
    Option.some.injEq]
  ring

theorem discriminator_outputs (s : FmDiscriminator ℝ) (zs : List (Complex ℝ)) :
    Stage.outputs FmDiscriminator.processSample s zs =
      List.zipWith (fun earlier z => detect (value z) (value earlier)) (s.prev :: zs) zs := by
  induction zs generalizing s with
  | nil => rfl
  | cons z zs ih =>
    rw [Stage.outputs_cons, processSample_detect, ih]
    rfl

theorem length_discriminated (usable : Usable cfg) :
    (discriminated cfg pairs).length = pairs.length / cfg.decimation.toNat := by
  simp [discriminated, discriminator_outputs, filter_outputs usable]

/-- Every output but the first compares two responses, a decimation apart. -/
theorem discriminated_apply (usable : Usable cfg) (bound : m + 1 < pairs.length / cfg.decimation.toNat) :
    (discriminated cfg pairs)[m + 1]? =
      let n : ℤ := ((m + 2) * cfg.decimation.toNat : ℕ) - 1
      let D : ℤ := cfg.decimation.toNat
      some (detect (turn cfg ^ D * response (tap cfg) cfg.numTaps (turn cfg) (signal pairs) n)
        (response (tap cfg) cfg.numTaps (turn cfg) (signal pairs) (n - D))) := by
  have before : m < pairs.length / cfg.decimation.toNat := Nat.lt_of_succ_lt bound
  have same (c : ℂ) : value (ofValue c) = c := rfl
  have earlier : (((m + 1) * cfg.decimation.toNat : ℕ) : ℤ) - 1 =
      ((m + 2) * cfg.decimation.toNat : ℕ) - 1 - cfg.decimation.toNat := by
    push_cast
    ring
  simp only [discriminated, discriminator_outputs, filter_outputs usable, List.getElem?_zipWith,
    List.getElem?_cons_succ, List.getElem?_map, List.getElem?_range bound, List.getElem?_range before,
    Option.map_some, same, filtered_eq]
  rw [earlier, detect_turned (turn_unit cfg)]

/-! ### The front end forgets -/

/-- Outputs are equal where the last filter length and decimation of pairs are. -/
theorem discriminated_congr (usable : Usable cfg) {pairs' : List (UInt8 × UInt8)} {m' : ℕ}
    (bound : m + 1 < pairs.length / cfg.decimation.toNat)
    (bound' : m' + 1 < pairs'.length / cfg.decimation.toNat)
    (same : ∀ j : ℕ, j < cfg.numTaps + cfg.decimation.toNat →
      signal pairs (((m + 2) * cfg.decimation.toNat : ℕ) - 1 - j) =
        signal pairs' (((m' + 2) * cfg.decimation.toNat : ℕ) - 1 - j)) :
    (discriminated cfg pairs)[m + 1]? = (discriminated cfg pairs')[m' + 1]? := by
  have now : ∀ j < cfg.numTaps, signal pairs (((m + 2) * cfg.decimation.toNat : ℕ) - 1 - j) =
      signal pairs' (((m' + 2) * cfg.decimation.toNat : ℕ) - 1 - j) :=
    fun j below => same j (below.trans_le (Nat.le_add_right ..))
  have then_ : ∀ j < cfg.numTaps,
      signal pairs (((m + 2) * cfg.decimation.toNat : ℕ) - 1 - cfg.decimation.toNat - j) =
        signal pairs' (((m' + 2) * cfg.decimation.toNat : ℕ) - 1 - cfg.decimation.toNat - j) := by
    intro j below
    have earlier := same (cfg.decimation.toNat + j) (by omega)
    rwa [Nat.cast_add, ← sub_sub, ← sub_sub] at earlier
  rw [discriminated_apply usable bound, discriminated_apply usable bound']
  simp only [response_congr now, response_congr then_]

theorem signal_append (before recent : List (UInt8 × UInt8)) {x : ℤ} (known : 0 ≤ x) :
    signal (before ++ recent) (before.length + x) = signal recent x := by
  obtain ⟨i, rfl⟩ := Int.eq_ofNat_of_zero_le known
  have place : ((before.length : ℤ) + i).toNat = before.length + i := by omega
  rw [signal, signal, if_pos (by omega), if_pos known, place, Int.toNat_natCast, List.map_append,
    List.getD_eq_getElem?_getD, List.getElem?_append_right (by simp), List.length_map, Nat.add_sub_cancel_left,
    List.getD_eq_getElem?_getD]

/-- A channel that was started earlier puts out the same as one that starts now,
from the first output on whose filter reaches back to now alone. -/
theorem late_start (usable : Usable cfg) (before recent : List (UInt8 × UInt8))
    (aligned : cfg.decimation.toNat ∣ before.length) {k : ℕ} (enough : cfg.numTaps ≤ k * cfg.decimation.toNat) :
    (discriminated cfg (before ++ recent)).drop (before.length / cfg.decimation.toNat + k) =
      (discriminated cfg recent).drop k := by
  obtain ⟨b, length⟩ := aligned
  have odd := usable.odd
  have positive : 0 < cfg.decimation.toNat := by
    have rate := usable.rate
    omega
  have blocks : before.length / cfg.decimation.toNat = b := by rw [length, Nat.mul_div_cancel_left _ positive]
  have longer : (before ++ recent).length / cfg.decimation.toNat = b + recent.length / cfg.decimation.toNat := by
    rw [List.length_append, length, Nat.mul_add_div positive]
  have start : 0 < k := by
    by_contra none
    rw [Nat.eq_zero_of_not_pos none, Nat.zero_mul] at enough
    omega
  refine List.ext_getElem? fun i => ?_
  rw [List.getElem?_drop, List.getElem?_drop, blocks]
  by_cases inside : k + i < recent.length / cfg.decimation.toNat
  · obtain ⟨m, place⟩ : ∃ m, k + i = m + 1 := ⟨k + i - 1, by omega⟩
    have later : b + k + i = b + m + 1 := by omega
    rw [place, later]
    refine discriminated_congr usable (by omega) (by omega) fun j below => ?_
    have reach : cfg.numTaps ≤ (m + 1) * cfg.decimation.toNat :=
      enough.trans (Nat.mul_le_mul_right _ (by omega))
    have shifted : (((b + m + 2) * cfg.decimation.toNat : ℕ) : ℤ) - 1 - j =
        before.length + (((m + 2) * cfg.decimation.toNat : ℕ) - 1 - j) := by
      rw [length]
      push_cast
      ring
    have next : (m + 2) * cfg.decimation.toNat = (m + 1) * cfg.decimation.toNat + cfg.decimation.toNat := by ring
    rw [shifted, signal_append before recent (by omega)]
  · rw [List.getElem?_eq_none (by rw [length_discriminated usable, longer]; omega),
      List.getElem?_eq_none (by rw [length_discriminated usable]; omega)]

/-- Ten other pairs are forgotten after 130 pairs. -/
theorem late_start_channel :
    (discriminated (.ofChannel 446106250) (List.replicate 10 (0, 255) ++ List.replicate 150 (255, 7))).drop 14 =
      (discriminated (.ofChannel 446106250) (List.replicate 150 (255, 7))).drop 13 := by
  have usable : Usable (Config.ofChannel 446106250) := ⟨rfl, by decide⟩
  exact late_start (k := 13) usable (List.replicate 10 (0, 255)) (List.replicate 150 (255, 7)) ⟨1, rfl⟩ (by decide)

/-! ### Carriers -/

/-- The turn per sample of a carrier at a frequency, relative to zero. -/
noncomputable def phasor (cfg : Config ℝ) (freqHz : ℝ) : ℂ :=
  Complex.exp ((2.0 * Real.pi * freqHz / cfg.inputRate : ℝ) * Complex.I)

theorem two_eq : (2.0 : ℝ) = 2 := by norm_num

theorem phasor_unit (cfg : Config ℝ) (freqHz : ℝ) : ‖phasor cfg freqHz‖ = 1 := Complex.norm_exp_ofReal_mul_I _

theorem turn_eq (cfg : Config ℝ) : turn cfg = phasor cfg (cfg.centreFreqHz - cfg.channelFreqHz) := by
  have angle : -2.0 * pi * (cfg.channelFreqHz - cfg.centreFreqHz) / cfg.inputRate =
      2.0 * Real.pi * (cfg.centreFreqHz - cfg.channelFreqHz) / cfg.inputRate := by
    rw [pi, FloatLib.pi, instFloatLibReal, two_eq]
    ring
  refine Complex.ext ?_ ?_
  · rw [phasor, Complex.exp_ofReal_mul_I_re, ← angle]
    rfl
  · rw [phasor, Complex.exp_ofReal_mul_I_im, ← angle]
    rfl

/-- The mixer moves a carrier by the channel's offset from the centre. -/
theorem phasor_turn (cfg : Config ℝ) (freqHz : ℝ) :
    phasor cfg (freqHz - cfg.centreFreqHz) * turn cfg = phasor cfg (freqHz - cfg.channelFreqHz) := by
  rw [turn_eq, phasor, phasor, phasor, ← Complex.exp_add, ← add_mul, ← Complex.ofReal_add, two_eq]
  congr 3
  ring

theorem phasor_pow_im (cfg : Config ℝ) (freqHz : ℝ) (D : ℕ) :
    (phasor cfg freqHz ^ (D : ℤ)).im = Real.sin (2.0 * Real.pi * freqHz * D / cfg.inputRate) := by
  have angle : (D : ℂ) * ((2.0 * Real.pi * freqHz / cfg.inputRate : ℝ) * Complex.I) =
      ((2.0 * Real.pi * freqHz * D / cfg.inputRate : ℝ) : ℂ) * Complex.I := by
    rw [two_eq]
    push_cast
    ring
  rw [zpow_natCast, phasor, ← Complex.exp_nat_mul, angle, Complex.exp_ofReal_mul_I_im]

/-- The stream is within `ε` of a carrier over the filter's reach, up to output `m + 1`. -/
def NearCarrier (cfg : Config ℝ) (pairs : List (UInt8 × UInt8)) (m : ℕ) (a : ℂ) (freqHz ε : ℝ) : Prop :=
  ∀ j < cfg.numTaps + cfg.decimation.toNat,
    let k : ℤ := ((m + 2) * cfg.decimation.toNat : ℕ) - 1 - (j : ℕ)
    ‖signal pairs k - a * phasor cfg (freqHz - cfg.centreFreqHz) ^ k‖ ≤ ε

/-- The level behind the filter of a carrier of amplitude `‖a‖`. -/
noncomputable def carrierLevel (cfg : Config ℝ) (a : ℂ) (freqHz : ℝ) : ℝ :=
  ‖a‖ * ‖transfer (tap cfg) cfg.numTaps (phasor cfg (freqHz - cfg.channelFreqHz))‖

/-- A carrier comes out as the sine of its turn per output sample in the
channel's frame, at the square of its level, but for an error that the stream's
own error and the coefficients bound. -/
theorem carrier_demodulated (usable : Usable cfg) (bound : m + 1 < pairs.length / cfg.decimation.toNat)
    {a : ℂ} {freqHz ε : ℝ} (near : NearCarrier cfg pairs m a freqHz ε) :
    ∃ out, (discriminated cfg pairs)[m + 1]? = some out ∧
      |out - carrierLevel cfg a freqHz ^ 2 *
          Real.sin (2.0 * Real.pi * (freqHz - cfg.channelFreqHz) * cfg.decimation.toNat / cfg.inputRate)| ≤
        2 * carrierLevel cfg a freqHz * (gain (tap cfg) cfg.numTaps * ε) + (gain (tap cfg) cfg.numTaps * ε) ^ 2 := by
  refine ⟨_, discriminated_apply usable bound, ?_⟩
  rw [← phasor_pow_im, carrierLevel, ← phasor_turn]
  refine detect_near_tone (turn_unit cfg) (phasor_unit cfg _) (fun j below => ?_) fun j below => ?_
  · exact near j (below.trans_le (Nat.le_add_right ..))
  · have earlier := near (cfg.decimation.toNat + j) (by omega)
    rwa [Nat.cast_add, ← sub_sub] at earlier

/-- The strongest constant stream is a carrier at the centre frequency. -/
theorem near_centre : NearCarrier (.ofChannel 446106250) (List.replicate 150 (255, 255)) 12 ⟨1, 1⟩ 446099000 0 := by
  intro j below
  have reach : j < 139 := below
  obtain ⟨k, place⟩ : ∃ k : ℕ, (((12 + 2) * 10 : ℕ) : ℤ) - 1 - (j : ℕ) = k := ⟨139 - j, by omega⟩
  have inside : k < (List.replicate 150 ((255, 255) : UInt8 × UInt8)).length := by
    rw [List.length_replicate]
    omega
  have top : (ofByte 255 : ℝ) = 1 := by
    have byte : (255 : UInt8).toNat = 255 := rfl
    rw [ofByte, byte]
    norm_num
  have still : phasor (.ofChannel 446106250) (446099000 - 446099000.0) = 1 := by
    rw [phasor]
    norm_num
  change ‖signal _ ((((12 + 2) * 10 : ℕ) : ℤ) - 1 - (j : ℕ)) -
    ⟨1, 1⟩ * phasor (.ofChannel 446106250) (446099000 - 446099000.0) ^ _‖ ≤ 0
  rw [place, signal_known inside, List.getElem_replicate, iqSample, top, still, one_zpow, mul_one, sub_self, norm_zero]

theorem carrier_demodulated_centre :
    ∃ out, (discriminated (.ofChannel 446106250) (List.replicate 150 (255, 255)))[13]? = some out ∧
      out = carrierLevel (.ofChannel 446106250) ⟨1, 1⟩ 446099000 ^ 2 *
        Real.sin (2.0 * Real.pi * (446099000 - 446106250) * (10 : ℕ) / 250000.0) := by
  have usable : Usable (Config.ofChannel 446106250) := ⟨rfl, by decide⟩
  have bound : 12 + 1 < (List.replicate 150 ((255, 255) : UInt8 × UInt8)).length /
      (Config.ofChannel (446106250 : ℝ)).decimation.toNat := by
    rw [List.length_replicate]
    decide
  obtain ⟨out, here, close⟩ := carrier_demodulated usable bound near_centre
  rw [mul_zero, mul_zero, zero_pow two_ne_zero, add_zero, abs_nonpos_iff, sub_eq_zero] at close
  exact ⟨out, here, close⟩

end DmrWatchkeeper.FrontEnd
