import DmrWatchkeeper.TimingRecoveryExact
import Mathlib.Algebra.Order.BigOperators.Group.List

/-! The symbol clock over any configuration in range and any samples: the
samples consumed so far are the periods used and the phase, so the symbol rate
stays between the two limits and every strobe reads recent samples. -/
namespace DmrWatchkeeper.TimingRecoveryClock
open TimingRecovery TimingRecoveryExact

section Reads
variable {F : Type} [OfScientific F] [Add F] [Sub F] [Mul F] [IntCast F] [CastToInt F]

/-- The two positions at which a strobe interpolates. -/
def strobePositions (s : TimingRecovery F) : List F :=
  [s.mu - s.omega, s.mu - s.omega + s.omega * 0.5]

/-- How far back `interpolate` reads. -/
def offsets (frac : F) : List ℤ := [CastToInt.toInt frac, CastToInt.toInt frac + 1]

/-- The index into `hist_` that is formed for an offset. -/
def slot (s : TimingRecovery F) (offset : ℤ) : ℤ :=
  (s.histIdx - 1 - offset + kHistLen * 2).tmod kHistLen

variable {s t : TimingRecovery F}

omit [OfScientific F] [Add F] [Sub F] [Mul F] [IntCast F] [CastToInt F] in
/-- With the write index in the array, so is what a short offset reads. -/
theorem slot_inside (head : 0 ≤ s.histIdx ∧ s.histIdx < 8) {offset : ℤ} (low : 0 ≤ offset)
    (high : offset ≤ 4) : 0 ≤ slot s offset ∧ slot s offset < 8 := by
  unfold slot kHistLen
  rw [Int.tmod_eq_emod_of_nonneg (by omega)]
  omega

/-- `interpolate` reads no other entries of the history. -/
theorem interpolate_congr {frac : F} (same : ∀ offset ∈ offsets frac,
    s.hist.getD (slot s offset).toNat 0.0 = t.hist.getD (slot t offset).toNat 0.0) :
    s.interpolate frac = t.interpolate frac := by
  have first : s.idx (CastToInt.toInt frac) = t.idx (CastToInt.toInt frac) := same _ (by simp [offsets])
  have second : s.idx (CastToInt.toInt frac + 1) = t.idx (CastToInt.toInt frac + 1) :=
    same _ (by simp [offsets])
  rw [interpolate, first, second]
  rfl

/-- A strobe takes nothing else from the history. -/
theorem strobe_congr [LT F] [DecidableLT F] {hist : Vector F 8} (same : ∀ frac ∈ strobePositions s,
      ∀ offset ∈ offsets frac, s.hist.getD (slot s offset).toNat 0.0 = hist.getD (slot s offset).toNat 0.0) :
    { s with hist }.strobe = ({ s.strobe.1 with hist }, s.strobe.2) := by
  have symbol : { s with hist }.interpolate (s.mu - s.omega) = s.interpolate (s.mu - s.omega) :=
    (interpolate_congr (same _ (by simp [strobePositions]))).symm
  have middle : { s with hist }.interpolate (s.mu - s.omega + s.omega * 0.5) =
      s.interpolate (s.mu - s.omega + s.omega * 0.5) :=
    (interpolate_congr (same _ (by simp [strobePositions]))).symm
  simp only [strobe, symbol, middle]

end Reads

variable {K : Type} [Field K] [LinearOrder K] [FloorRing K]
  {cfg : Config K} {n : ℕ} {used : List K} {s : TimingRecovery K} {d : K}

theorem offsets_near {frac : K} {bound : ℕ} (low : 0 ≤ frac) (high : frac < bound) :
    ∀ offset ∈ offsets frac, 0 ≤ offset ∧ offset ≤ bound := by
  have floor_low : 0 ≤ ⌊frac⌋ := Int.floor_nonneg.mpr low
  have floor_high : ⌊frac⌋ < bound := Int.floor_lt.mpr (by exact_mod_cast high)
  intro offset member
  simp only [offsets, CastToInt.toInt, if_pos low, List.mem_cons, List.not_mem_nil, or_false] at member
  rcases member with rfl | rfl <;> omega

/-- After `n` samples: the periods used so far and the phase make up the
samples. -/
structure Clock (cfg : Config K) (n : ℕ) (used : List K) (s : TimingRecovery K) : Prop where
  config : s.cfg = cfg
  period : cfg.omegaMin ≤ s.omega ∧ s.omega ≤ cfg.omegaMax
  phase : 0 ≤ s.mu ∧ s.mu < s.omega
  limits : ∀ omega ∈ used, cfg.omegaMin ≤ omega ∧ omega ≤ cfg.omegaMax
  spent : used.sum + s.mu = n
  head : 0 ≤ s.histIdx ∧ s.histIdx < 8

theorem init_clock (valid : InRange cfg) : Clock cfg 0 [] (init cfg) where
  config := rfl
  period := ⟨valid.low, valid.high⟩
  phase := by
    have zero : (0.0 : K) = 0 := by norm_num
    have positive := zero_lt_one.trans_le (valid.shortest.trans valid.low)
    simp only [init, zero]
    exact ⟨le_refl _, positive⟩
  limits := by simp
  spent := by norm_num [init]
  head := by simp [init]

omit [FloorRing K] in
theorem Clock.push_head (clock : Clock cfg n used s) :
    0 ≤ (s.push d).histIdx ∧ (s.push d).histIdx < 8 := by
  obtain ⟨low, high⟩ := clock.head
  simp only [TimingRecovery.push, kHistLen]
  rw [Int.tmod_eq_emod_of_nonneg (by omega)]
  omega

theorem Clock.push_mu (clock : Clock cfg n used s) :
    used.sum + (s.push d).mu = (n + 1 : ℕ) ∧ (s.push d).mu = s.mu + 1 := by
  have one : (1.0 : K) = 1 := by norm_num
  have pushed : (s.push d).mu = s.mu + 1 := by rw [TimingRecovery.push, one]
  refine ⟨?_, pushed⟩
  rw [pushed, ← add_assoc, clock.spent, Nat.cast_succ]

variable [IsStrictOrderedRing K]

theorem Clock.quiet (clock : Clock cfg n used s) (early : ¬s.omega ≤ (s.push d).mu) :
    Clock cfg (n + 1) used (s.push d) where
  config := clock.config
  period := clock.period
  phase := by
    have later := (clock.push_mu (d := d)).2
    have low := clock.phase.1
    exact ⟨by linarith, not_le.mp early⟩
  limits := clock.limits
  spent := clock.push_mu.1
  head := clock.push_head

/-- A strobe uses up one period; less than one sample is left. -/
theorem Clock.strobe (valid : InRange cfg) (clock : Clock cfg n used s)
    (late : s.omega ≤ (s.push d).mu) : Clock cfg (n + 1) (used ++ [s.omega]) (s.push d).strobe.1 where
  config := clock.config
  period := by
    have order := valid.low.trans valid.high
    simp only [TimingRecovery.strobe, TimingRecovery.push, clock.config, clamp_eq order]
    exact ⟨le_max_left .., max_le order (min_le_left ..)⟩
  phase := by
    have order := valid.low.trans valid.high
    have recent : (s.push d).mu - s.omega < 1 := by
      have before := clock.phase.2
      rw [clock.push_mu.2]
      linarith
    have next : 1 ≤ (s.push d).strobe.1.omega := by
      simp only [TimingRecovery.strobe, TimingRecovery.push, clock.config, clamp_eq order]
      exact valid.shortest.trans (le_max_left ..)
    exact ⟨sub_nonneg.mpr late, recent.trans_le next⟩
  limits := by
    intro omega member
    rcases List.mem_append.mp member with earlier | last
    · exact clock.limits omega earlier
    · rw [List.mem_singleton.mp last]
      exact clock.period
  spent := by
    have total := (clock.push_mu (d := d)).1
    have left : (s.push d).strobe.1.mu = (s.push d).mu - s.omega := rfl
    rw [List.sum_append, List.sum_singleton, left]
    linarith
  head := clock.push_head (d := d)

/-- One sample uses one period for each symbol that it emits. -/
theorem Clock.step (valid : InRange cfg) (clock : Clock cfg n used s) (d : K) : ∃ more : List K,
    more.length = (processSample s d).2.toList.length ∧
      Clock cfg (n + 1) (used ++ more) (processSample s d).1 := by
  by_cases late : s.omega ≤ (s.push d).mu
  · rw [processSample_strobes late]
    exact ⟨[s.omega], rfl, clock.strobe valid late⟩
  · rw [processSample_quiet late]
    exact ⟨[], rfl, by rw [List.append_nil]; exact clock.quiet late⟩

theorem Clock.run (valid : InRange cfg) (clock : Clock cfg n used s) (xs : List K) :
    ∃ more : List K, more.length = (Stage.outputs processSample s xs).length ∧
      Clock cfg (n + xs.length) (used ++ more) (Stage.after processSample s xs) := by
  induction xs generalizing n used s with
  | nil => exact ⟨[], rfl, by rw [List.append_nil]; exact clock⟩
  | cons d xs ih =>
    obtain ⟨first, count, stepped⟩ := clock.step valid d
    obtain ⟨rest, others, final⟩ := ih stepped
    refine ⟨first ++ rest, ?_, ?_⟩
    · rw [Stage.outputs_cons, List.length_append, List.length_append, count, others]
    · rw [List.append_assoc, Nat.add_assoc, Nat.add_comm 1] at final
      exact final

/-! ### What the clock guarantees -/

/-- A strobe interpolates less than one sample and at most half a period back,
inside the array. -/
structure StrobeSafe (s : TimingRecovery K) : Prop where
  phase : 0 ≤ s.mu - s.omega ∧ s.mu - s.omega < 1
  reads : ∀ frac ∈ strobePositions s, ∀ offset ∈ offsets frac,
    (0 ≤ offset ∧ offset ≤ 4) ∧ 0 ≤ slot s offset ∧ slot s offset < 8

omit [IsStrictOrderedRing K] in
/-- The five latest samples fix what a safe strobe does. -/
theorem StrobeSafe.recent (safe : StrobeSafe s) {hist : Vector K 8} (same : ∀ offset, 0 ≤ offset → offset ≤ 4 →
      s.hist.getD (slot s offset).toNat 0.0 = hist.getD (slot s offset).toNat 0.0) :
    { s with hist }.strobe = ({ s.strobe.1 with hist }, s.strobe.2) := by
  refine strobe_congr fun frac position offset read => ?_
  obtain ⟨⟨low, high⟩, -⟩ := safe.reads frac position offset read
  exact same offset low high

theorem Clock.strobe_safe (valid : InRange cfg) (clock : Clock cfg n used s)
    (late : s.omega ≤ (s.push d).mu) : StrobeSafe (s.push d) := by
  have half : (0.5 : K) = 1 / 2 := by norm_num
  have after : 0 ≤ (s.push d).mu - (s.push d).omega := sub_nonneg.mpr late
  have recent : (s.push d).mu - (s.push d).omega < 1 := by
    have before := clock.phase.2
    have kept : (s.push d).omega = s.omega := rfl
    rw [clock.push_mu.2, kept]
    linarith
  have shortest : 1 ≤ (s.push d).omega := valid.shortest.trans clock.period.1
  have longest : (s.push d).omega ≤ 6 := clock.period.2.trans valid.longest
  refine ⟨⟨after, recent⟩, fun frac position offset read => ?_⟩
  have near : 0 ≤ offset ∧ offset ≤ (4 : ℕ) := by
    simp only [strobePositions, List.mem_cons, List.not_mem_nil, or_false] at position
    rcases position with rfl | rfl
    · exact offsets_near after (by push_cast; linarith) offset read
    · apply offsets_near _ _ offset read <;> rw [half] <;> push_cast <;> linarith
  exact ⟨near, slot_inside clock.push_head near.1 near.2⟩

omit [FloorRing K] in
/-- The periods used number the symbols, so their sum is between the limits. -/
theorem Clock.sum_bounds (clock : Clock cfg n used s) :
    cfg.omegaMin * used.length ≤ used.sum ∧ used.sum ≤ cfg.omegaMax * used.length := by
  have low := List.card_nsmul_le_sum used cfg.omegaMin fun omega member =>
    (clock.limits omega member).1
  have high := List.sum_le_card_nsmul used cfg.omegaMax fun omega member =>
    (clock.limits omega member).2
  rw [nsmul_eq_mul, mul_comm] at low high
  exact ⟨low, high⟩

/-- After any samples in any vectors: the period is between its limits and the
phase within the period; the next strobe, whatever sample brings it, reads only
the samples 0 to 4 positions back; and the symbols number between one per
longest and one per shortest period. -/
theorem clock_regular (valid : InRange cfg) (vectors : List (List K)) :
    (cfg.omegaMin ≤ (processAll (init cfg) vectors).1.omega ∧
      (processAll (init cfg) vectors).1.omega ≤ cfg.omegaMax) ∧
    (0 ≤ (processAll (init cfg) vectors).1.mu ∧
      (processAll (init cfg) vectors).1.mu < (processAll (init cfg) vectors).1.omega) ∧
    (∀ x, (processAll (init cfg) vectors).1.omega ≤
        ((processAll (init cfg) vectors).1.push x).mu →
      StrobeSafe ((processAll (init cfg) vectors).1.push x)) ∧
    cfg.omegaMin * (processAll (init cfg) vectors).2.length ≤ vectors.flatten.length ∧
    (vectors.flatten.length : K) < cfg.omegaMax * ((processAll (init cfg) vectors).2.length + 1) := by
  rw [processAll_eq]
  obtain ⟨used, count, clock⟩ := (init_clock valid).run valid vectors.flatten
  rw [Nat.zero_add, List.nil_append] at clock
  obtain ⟨shortest, longest⟩ := clock.sum_bounds
  have spent := clock.spent
  obtain ⟨early, late⟩ := clock.phase
  refine ⟨clock.period, clock.phase, fun x => clock.strobe_safe valid, ?_, ?_⟩
  · rw [← count, ← spent]
    linarith
  · rw [← count, ← spent, mul_add, mul_one]
    linarith [clock.period.2]

/-- Six samples give exactly one symbol. -/
theorem clock_regular_six :
    (processAll (init (Config.default : Config ℚ)) [[9, -7, 0], [25, 1, -3]]).2.length = 1 := by
  have valid : InRange (Config.default : Config ℚ) := by constructor <;> norm_num [Config.default]
  obtain ⟨-, -, -, low, high⟩ := clock_regular valid [[9, -7, 0], [25, 1, -3]]
  have length : ([[9, -7, 0], [25, 1, -3]] : List (List ℚ)).flatten.length = 6 := rfl
  have shortest : (Config.default : Config ℚ).omegaMin = 4.5 := rfl
  have longest : (Config.default : Config ℚ).omegaMax = 6 := by norm_num [Config.default]
  rw [length, shortest] at low
  rw [length, longest] at high
  generalize (processAll (init (Config.default : Config ℚ)) [[9, -7, 0], [25, 1, -3]]).2.length =
    symbols at low high ⊢
  have positive : 0 < symbols := by
    norm_num at high
    exact high
  have no_more : (symbols : ℚ) < 2 := by
    norm_num at low
    linarith
  have below : symbols < 2 := by exact_mod_cast no_more
  omega

end DmrWatchkeeper.TimingRecoveryClock
