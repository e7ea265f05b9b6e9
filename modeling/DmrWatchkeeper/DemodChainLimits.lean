import DmrWatchkeeper.DemodChain
import DmrWatchkeeper.FrontEnd
import DmrWatchkeeper.FskSlicerLevels
import DmrWatchkeeper.TimingRecoveryLimits
import DmrWatchkeeper.Library.Throughput

/-! Two limits on a channel, whatever bytes it is given: how often it reports a
burst, and how far its levels go. -/
namespace DmrWatchkeeper.DemodChainLimits
open DemodChain Stage
open TimingRecoveryExact (InRange processSample_strobes processSample_quiet)
open TimingRecoveryClock (Clock init_clock)

/-! ### The rate of bursts -/

section Rate
variable {K : Type} [Field K] [LinearOrder K] [IsStrictOrderedRing K]

section Filter
variable [FloatLib K] {cfg : ChannelFilter.Config K}

omit [LinearOrder K] [IsStrictOrderedRing K] in
theorem processPair_count (s : ChannelFilter K) (pair : UInt8 × UInt8) :
    (s.processPair pair).1.cfg = s.cfg ∧
      (s.cfg.decimation ≤ s.decimCount + 1 ∧ (s.processPair pair).2.toList.length = 1 ∧
          (s.processPair pair).1.decimCount = 0 ∨
        s.decimCount + 1 < s.cfg.decimation ∧ (s.processPair pair).2.toList.length = 0 ∧
          (s.processPair pair).1.decimCount = s.decimCount + 1) := by
  have frame : s.advanceOsc.cfg = s.cfg ∧ s.advanceOsc.decimCount = s.decimCount := by
    by_cases due : s.oscNormCounter + 1 ≥ 1024
    · simp only [ChannelFilter.advanceOsc, if_pos due, and_self]
    · simp only [ChannelFilter.advanceOsc, if_neg due, and_self]
  obtain ⟨config, count⟩ := frame
  by_cases full : s.decimCount + 1 ≥ s.cfg.decimation
  · simp only [ChannelFilter.processPair, config, count, if_pos full]
    exact ⟨trivial, .inl ⟨full, rfl, trivial⟩⟩
  · simp only [ChannelFilter.processPair, config, count, if_neg full]
    exact ⟨trivial, .inr ⟨not_le.mp full, rfl, trivial⟩⟩

/-- A filtered sample costs a decimation of pairs. -/
theorem filter_paced (rate : 1 ≤ cfg.decimation) : Paced ChannelFilter.processPair (cfg.decimation : K)
    (cfg.decimation - 1 : ℤ)
    (fun s => s.cfg = cfg ∧ 0 ≤ s.decimCount ∧ s.decimCount < cfg.decimation) fun s => s.decimCount where
  keeps := by
    rintro s pair ⟨rfl, low, high⟩
    obtain ⟨config, ⟨-, -, count⟩ | ⟨room, -, count⟩⟩ := processPair_count s pair
    · exact ⟨config, by omega, by omega⟩
    · exact ⟨config, by omega, by omega⟩
  range := by
    rintro s ⟨-, low, high⟩
    exact ⟨by exact_mod_cast low, by exact_mod_cast Int.le_sub_one_of_lt high⟩
  pays := by
    rintro s pair ⟨rfl, low, high⟩
    obtain ⟨-, ⟨due, one, count⟩ | ⟨room, none, count⟩⟩ := processPair_count s pair
    · have price : (s.cfg.decimation : K) ≤ s.decimCount + 1 := by exact_mod_cast due
      rw [one, count, Nat.cast_one, mul_one, Int.cast_zero, add_zero]
      exact price
    · rw [none, count, Nat.cast_zero, mul_zero, zero_add, Int.cast_add, Int.cast_one]

end Filter

/-- A symbol costs the shortest period of samples. -/
theorem timing_paced [FloorRing K] {cfg : TimingRecovery.Config K} (valid : InRange cfg) :
    Paced TimingRecovery.processSample cfg.omegaMin cfg.omegaMin (fun s => ∃ n used, Clock cfg n used s)
      fun s => min s.mu cfg.omegaMin where
  keeps := by
    rintro s x ⟨n, used, clock⟩
    obtain ⟨more, -, next⟩ := clock.step valid x
    exact ⟨_, _, next⟩
  range := by
    rintro s ⟨n, used, clock⟩
    exact ⟨le_min clock.phase.1 (zero_le_one.trans valid.shortest), min_le_right ..⟩
  pays := by
    rintro s x ⟨n, used, clock⟩
    have pushed := (clock.push_mu (d := x)).2
    by_cases late : s.omega ≤ (s.push x).mu
    · rw [processSample_strobes late]
      have left : (s.push x).strobe.1.mu = s.mu + 1 - s.omega := by rw [← pushed]; rfl
      have before := clock.phase.2
      have slow := clock.period.1
      have kept := min_le_left (s.push x).strobe.1.mu cfg.omegaMin
      rw [left] at kept
      rcases min_choice s.mu cfg.omegaMin with same | same <;> rw [same, left] <;>
        simp only [Option.toList_some, List.length_singleton, Nat.cast_one, mul_one] <;> linarith
    · rw [processSample_quiet late]
      have grown : min (s.mu + 1) cfg.omegaMin ≤ min s.mu cfg.omegaMin + 1 := by
        rcases min_choice s.mu cfg.omegaMin with same | same <;> rw [same]
        · exact min_le_left ..
        · exact (min_le_right ..).trans (le_add_of_nonneg_right zero_le_one)
      rw [pushed]
      simpa using grown

/-- The dibits of a burst that a synchroniser has behind it. -/
def collected (s : BurstSync) : ℤ := if s.state = .collecting then s.collectIdx + 1 else 0

/-- A burst costs the last dibit of its sync word and 59 more. -/
theorem sync_paced : Paced BurstSync.pushDibit (60 : K) 59 (fun s => s.state = .collecting →
    0 ≤ s.collectIdx ∧ s.collectIdx < 59) fun s => (collected s : K) := by
  have step (s : BurstSync) (dibit : UInt8)
      (held : s.state = .collecting → 0 ≤ s.collectIdx ∧ s.collectIdx < 59) :
      ((BurstSync.pushDibit s dibit).1.state = .collecting →
        0 ≤ (BurstSync.pushDibit s dibit).1.collectIdx ∧ (BurstSync.pushDibit s dibit).1.collectIdx < 59) ∧
      60 * ((BurstSync.pushDibit s dibit).2.toList.length : ℤ) + collected (BurstSync.pushDibit s dibit).1 ≤
        collected s + 1 := by
    have few : (BurstSync.pushDibit s dibit).2.toList.length ≤ 1 := by
      cases (BurstSync.pushDibit s dibit).2 <;> simp
    obtain ⟨-, hunts | matched | grows | ends⟩ := BurstSync.pushDibit_cases s dibit
    · obtain ⟨phase, -, silent, phase', -, -⟩ := hunts
      simp [collected, phase, phase', silent]
    · obtain ⟨phase, -, silent, phase', start, -⟩ := matched
      simp [collected, phase, phase', silent, start]
    · obtain ⟨phase, room, silent, phase', next, -⟩ := grows
      have inside := held phase
      simp only [collected, phase, phase', silent, next, if_true, Option.toList_none, List.length_nil]
      omega
    · obtain ⟨phase, full, phase', -, -⟩ := ends
      have hunting : BurstSync.State.hunting ≠ .collecting := by decide
      simp only [collected, phase, phase', if_true, if_neg hunting]
      exact ⟨fun wrong => absurd wrong hunting, by omega⟩
  refine ⟨fun s dibit held => (step s dibit held).1, fun s held => ?_, fun s dibit held => ?_⟩
  · have inside : 0 ≤ collected s ∧ collected s ≤ 59 := by
      rw [collected]
      split
      · have inside := held ‹_›
        omega
      · omega
    exact ⟨by exact_mod_cast inside.1, by exact_mod_cast inside.2⟩
  · have paid := (step s dibit held).2
    exact_mod_cast paid

variable [FloorRing K] [FloatLib K] {cfg : Config K}

/-- A new chain. -/
def newChain (cfg : Config K) : DemodChain K := construct cfg (.construct cfg.filterConfig)

/-- What the stages of a chain keep, wired up. -/
def Running (cfg : Config K) (s : Carried K) : Prop :=
  (s.1.cfg = cfg.filterConfig ∧ 0 ≤ s.1.decimCount ∧ s.1.decimCount < cfg.filterConfig.decimation) ∧ True ∧
    (∃ n used, Clock cfg.timing n used s.2.2.1) ∧ True ∧
      (s.2.2.2.2.1.state = .collecting → 0 ≤ s.2.2.2.2.1.collectIdx ∧ s.2.2.2.2.1.collectIdx < 59) ∧ True

/-- What a chain has towards its next burst, in pairs. -/
def saved (cfg : Config K) (s : Carried K) : K :=
  s.1.decimCount + cfg.filter.decimation *
    (min s.2.2.1.mu cfg.timing.omegaMin + cfg.timing.omegaMin * collected s.2.2.2.2.1)

/-- A burst costs 60 of the shortest symbols. -/
theorem chain_paced (rate : 1 ≤ cfg.filter.decimation) (valid : InRange cfg.timing) :
    Paced pairStep (60 * cfg.timing.omegaMin * cfg.filter.decimation)
      (60 * cfg.timing.omegaMin * cfg.filter.decimation + (cfg.filter.decimation - 1)) (Running cfg) (saved cfg) := by
  have decimation : (0 : K) ≤ (cfg.filterConfig.decimation : ℤ) := by exact_mod_cast zero_le_one.trans rate
  have period : 0 ≤ cfg.timing.omegaMin := zero_le_one.trans valid.shortest
  have notified := (sync_paced (K := K)).cascade (paced_by_items SlotManager.notify) (by norm_num)
  have sliced := (paced_by_items (FskSlicer.decide (F := K))).cascade notified zero_le_one
  have timed := (timing_paced valid).cascade sliced period
  have found := (paced_by_items (FmDiscriminator.processSample (F := K))).cascade timed zero_le_one
  have same : cfg.filterConfig.decimation = cfg.filter.decimation := rfl
  have rate' : 1 ≤ cfg.filterConfig.decimation := rate
  convert (filter_paced rate').cascade found decimation using 1
  · rfl
  · rw [same]
    ring
  · rw [same]
    push_cast
    ring
  · rfl
  · funext s
    rw [saved, same]
    ring

omit [IsStrictOrderedRing K] in
theorem new_running (rate : 1 ≤ cfg.filter.decimation) (valid : InRange cfg.timing) :
    Running cfg (newChain cfg).carried ∧ saved cfg (newChain cfg).carried = 0 := by
  have start : (newChain cfg).carried.2.2.1.mu = 0 := by
    norm_num [newChain, construct, carried, wired, TimingRecovery.init]
  have positive : 0 ≤ cfg.timing.omegaMin := zero_le_one.trans valid.shortest
  have hunting : (newChain cfg).carried.2.2.2.2.1.state = .hunting := rfl
  refine ⟨⟨⟨rfl, le_rfl, Int.lt_of_lt_of_le zero_lt_one rate⟩, trivial, ⟨0, [], init_clock valid⟩, trivial,
    fun collecting => (by cases hunting.symm.trans collecting), trivial⟩, ?_⟩
  have none : collected (newChain cfg).carried.2.2.2.2.1 = 0 := rfl
  have unread : (newChain cfg).carried.1.decimCount = 0 := rfl
  rw [saved, start, none, unread, min_eq_left positive]
  simp

/-- However a stream is cut into calls, a channel reports at most one burst for
each 60 shortest symbols of pairs; and of any stretch of calls, at most one
burst more. -/
theorem burst_rate (rate : 1 ≤ cfg.filter.decimation) (valid : InRange cfg.timing)
    (calls later : List ((ℕ → UInt8) × ℕ)) :
    60 * cfg.timing.omegaMin * cfg.filter.decimation * ((newChain cfg).processAll calls).2.length ≤
        (pairStream calls).length ∧
      60 * cfg.timing.omegaMin * cfg.filter.decimation *
          (((newChain cfg).processAll calls).1.processAll later).2.length ≤
        60 * cfg.timing.omegaMin * cfg.filter.decimation + (cfg.filter.decimation - 1) +
          (pairStream later).length := by
  have paced := chain_paced rate valid
  obtain ⟨running, empty⟩ := new_running rate valid
  obtain ⟨state, events⟩ := processAll_run (newChain cfg) calls
  obtain ⟨-, events'⟩ := processAll_run ((newChain cfg).processAll calls).1 later
  have first := paced.run_le running (pairStream calls)
  have reached := (paced.run running (pairStream calls)).1
  rw [← state] at reached
  have second := paced.run_le reached (pairStream later)
  rw [events, events']
  exact ⟨by rwa [empty, zero_add] at first, second.trans (add_le_add_left (paced.range _ reached).2 _)⟩

end Rate

theorem channel_range : InRange (Config.ofChannel (446106250 : ℝ) "446.106").timing := by
  constructor <;> norm_num [Config.ofChannel, TimingRecovery.Config.default]

/-- With the defaults of the source, 5399 pairs hold at most one burst. -/
theorem burst_rate_channel :
    ((newChain (.ofChannel (446106250 : ℝ) "446.106")).processAll [(fun i => i.toUInt8, 5399)]).2.length ≤ 1 := by
  have rate : 1 ≤ (Config.ofChannel (446106250 : ℝ) "446.106").filter.decimation := by decide
  have limit := (burst_rate rate channel_range [(fun i => i.toUInt8, 5399)] []).1
  generalize ((newChain (.ofChannel (446106250 : ℝ) "446.106")).processAll _).2.length = bursts at limit ⊢
  have length : (pairStream [(fun i => i.toUInt8, 5399)]).length = 5399 := by
    simp [pairStream, ChannelFilter.pairsOf]
  have price : (60 * (Config.ofChannel (446106250 : ℝ) "446.106").timing.omegaMin *
      (Config.ofChannel (446106250 : ℝ) "446.106").filter.decimation : ℝ) = 2700 := by
    norm_num [Config.ofChannel, TimingRecovery.Config.default, ChannelFilter.Config.ofChannel]
  rw [length, price] at limit
  have few : (bursts : ℝ) < 2 := by
    push_cast at limit
    linarith
  exact Nat.lt_succ_iff.mp (by exact_mod_cast few)

/-! ### The levels -/

open FrontEnd Baseband TimingRecoveryLimits
open ChannelFilter (ofByte)
open ChannelFilterExact (value ofValue signal iqSample)
open FskSlicerLevels (Valid Ordered)
open GatedAverage (gated)

theorem abs_ofByte_le (byte : UInt8) : |(ofByte byte : ℝ)| ≤ 1 := by
  have top : ((byte.toNat : ℤ) : ℝ) ≤ 255 := by exact_mod_cast Nat.lt_succ_iff.mp byte.toNat_lt
  have bottom : (0 : ℝ) ≤ ((byte.toNat : ℤ) : ℝ) := by exact_mod_cast byte.toNat.zero_le
  have scale : ofByte byte = (((byte.toNat : ℤ) : ℝ) - 127.5) / 127.5 := rfl
  rw [scale, abs_le]
  constructor
  · rw [le_div_iff₀ (by norm_num)]
    linarith
  · rw [div_le_iff₀ (by norm_num)]
    linarith

/-- The strongest sample that can be received. -/
def corner : ℂ := ⟨1, 1⟩

/-- The received samples lie in a square around zero. -/
theorem norm_signal_le (pairs : List (UInt8 × UInt8)) (k : ℤ) : ‖signal pairs k‖ ≤ ‖corner‖ := by
  have diagonal : ‖corner‖ = √2 := by rw [corner, Complex.norm_eq_sqrt_sq_add_sq]; norm_num
  have sample (pair : UInt8 × UInt8) : ‖iqSample pair‖ ≤ ‖corner‖ := by
    have inside := Complex.norm_le_sqrt_two_mul_max (iqSample pair)
    have side : max |(iqSample pair).re| |(iqSample pair).im| ≤ 1 :=
      max_le (abs_ofByte_le pair.1) (abs_ofByte_le pair.2)
    rw [diagonal]
    exact inside.trans (mul_le_of_le_one_right (Real.sqrt_nonneg _) side)
  rw [signal]
  split
  · rw [List.getD_eq_getElem?_getD]
    by_cases inside : k.toNat < pairs.length
    · rw [List.getElem?_map, List.getElem?_eq_getElem inside]
      exact sample _
    · rw [List.getElem?_eq_none (by simpa using inside), Option.getD_none, norm_zero]
      exact norm_nonneg _
  · rw [norm_zero]
    exact norm_nonneg _

/-- The largest magnitude of a filtered sample. -/
noncomputable def sampleLimit (cfg : ChannelFilter.Config ℝ) : ℝ := gain (tap cfg) cfg.numTaps * ‖corner‖

/-- The largest value of the discriminator, which starts from a sample of magnitude one. -/
noncomputable def levelLimit (cfg : ChannelFilter.Config ℝ) : ℝ := sampleLimit cfg * max 1 (sampleLimit cfg)

theorem sampleLimit_nonneg (cfg : ChannelFilter.Config ℝ) : 0 ≤ sampleLimit cfg :=
  mul_nonneg (gain_nonneg _ _) (norm_nonneg _)

section Stages
variable {cfg : ChannelFilter.Config ℝ}

theorem filtered_within (usable : Usable cfg) (pairs : List (UInt8 × UInt8)) :
    ∀ z ∈ outputs ChannelFilter.processPair (.construct cfg) pairs, ‖value z‖ ≤ sampleLimit cfg := by
  intro z member
  rw [filter_outputs usable, List.mem_map] at member
  obtain ⟨m, -, rfl⟩ := member
  have same (c : ℂ) : value (ofValue c) = c := rfl
  rw [same, filtered_eq, norm_mul, norm_zpow_unit (turn_unit cfg), one_mul]
  exact norm_response (turn_unit cfg) fun j _ => norm_signal_le pairs _

/-- The discriminator multiplies each sample with the one before. -/
theorem discriminated_within (usable : Usable cfg) (pairs : List (UInt8 × UInt8)) :
    ∀ y ∈ discriminated cfg pairs, |y| ≤ levelLimit cfg := by
  refine (run_keeps FmDiscriminator.processSample (I := fun s => ‖value s.prev‖ ≤ max 1 (sampleLimit cfg))
    (fun s z before now => ?_) ?_ (filtered_within usable pairs)).2
  · rw [processSample_detect]
    refine ⟨now.trans (le_max_right ..), fun y emitted => ?_⟩
    rw [← Option.some.inj emitted]
    exact (abs_detect _ _).trans (mul_le_mul now before (norm_nonneg _) (sampleLimit_nonneg cfg))
  · have start : value (FmDiscriminator.init : FmDiscriminator ℝ).prev = 1 := by
      refine Complex.ext ?_ ?_ <;> norm_num [value, FmDiscriminator.init]
    rw [start, norm_one]
    exact le_max_left ..

/-- The outer levels are averages of symbols, from the first estimate. -/
theorem outer_within {cfg : FskSlicer.Config ℝ} {M : ℝ} (valid : Valid cfg) {vs : List ℝ}
    (bounded : ∀ v ∈ vs, |v| ≤ M) :
    Ordered cfg (after FskSlicer.decide (.init cfg) vs) ∧
      (after FskSlicer.decide (.init cfg) vs).posPeak ≤ max cfg.initOuter M ∧
      -(after FskSlicer.decide (.init cfg) vs).negPeak ≤ max cfg.initOuter M := by
  have level {v p : ℝ} (value : v ≤ M) (estimate : p ≤ max cfg.initOuter M) :
      gated cfg.emaAlpha cfg.outerThresh v p ≤ max cfg.initOuter M := by
    rw [gated]
    split
    · exact GatedAverage.average_le valid.alpha.1.le valid.alpha.2.le (value.trans (le_max_right ..)) estimate
    · exact estimate
  refine (run_keeps FskSlicer.decide (I := fun s => Ordered cfg s ∧ s.posPeak ≤ max cfg.initOuter M ∧
    -s.negPeak ≤ max cfg.initOuter M) (P := fun _ => True) (fun s v held now => ?_) ?_ bounded).1
  · obtain ⟨ordered, high, low⟩ := held
    obtain ⟨above, below⟩ := abs_le.mp now
    obtain ⟨pos, neg⟩ := ordered.track_peaks valid v
    refine ⟨⟨ordered.track valid v, ?_, ?_⟩, fun _ _ => trivial⟩
    · exact pos.trans_le (level below high)
    · have peak : -(s.track v).negPeak = gated cfg.emaAlpha cfg.outerThresh (-v) (-s.negPeak) := by
        rw [neg, neg_neg]
      exact peak.trans_le (level (by linarith) low)
  · exact ⟨FskSlicerLevels.init_ordered valid, le_max_left .., (neg_neg _).trans_le (le_max_left ..)⟩

end Stages

/-- The levels that a chain stores are within limits that its configuration gives. -/
structure Limited (cfg : Config ℝ) (s : DemodChain ℝ) : Prop where
  history : Within (levelLimit cfg.filterConfig) s.timing
  period : cfg.timing.omegaMin ≤ s.timing.omega ∧ s.timing.omega ≤ cfg.timing.omegaMax
  positive : 0 < s.slicerOuter ∧ s.slicerOuter ≤ max cfg.slicer.initOuter (levelLimit cfg.filterConfig)
  negative : s.slicer.negPeak < 0 ∧ -s.slicer.negPeak ≤ max cfg.slicer.initOuter (levelLimit cfg.filterConfig)

/-- Whatever bytes a channel is given, in whatever calls: what the timing loop
has stored, the period and both outer levels stay within their limits. -/
theorem levels_limited {cfg : Config ℝ} (usable : Usable cfg.filterConfig) (range : InRange cfg.timing)
    (valid : Valid cfg.slicer) (calls : List ((ℕ → UInt8) × ℕ)) :
    Limited cfg ((newChain cfg).processAll calls).1 := by
  have positive : 0 ≤ levelLimit cfg.filterConfig :=
    mul_nonneg (sampleLimit_nonneg _) (zero_le_one.trans (le_max_left ..))
  have state := (processAll_run (newChain cfg) calls).1
  generalize ((newChain cfg).processAll calls).1 = s at state
  have driven : s.wired = after wiredStep (newChain cfg).wired (discriminated cfg.filterConfig (pairStream calls)) := by
    simp only [pairStep, carried, after_cascade] at state
    exact congrArg (fun c => c.2.2) state
  simp only [wiredStep, wired, after_cascade] at driven
  obtain ⟨⟨⟨n, used, clock⟩, within⟩, symbols⟩ :=
    run_within range positive (discriminated_within usable (pairStream calls))
  obtain ⟨ordered, high, low⟩ := outer_within valid symbols
  have timing := congrArg Prod.fst driven
  have slicer := congrArg (fun w => w.2.1) driven
  simp only at timing slicer
  exact {
    history := by rw [timing]; exact within
    period := by rw [timing]; exact clock.period
    positive := by rw [slicerOuter, slicer]; exact ⟨ordered.high, high⟩
    negative := by rw [slicer]; exact ⟨ordered.low, low⟩ }

theorem levels_limited_channel : Limited (.ofChannel 446106250 "446.106")
    ((newChain (.ofChannel (446106250 : ℝ) "446.106")).processAll
      [(fun i => i.toUInt8, 5000), (fun _ => 255, 10000)]).1 :=
  levels_limited ⟨rfl, by decide⟩ channel_range FskSlicerLevels.default_valid
    [(fun i => i.toUInt8, 5000), (fun _ => 255, 10000)]

end DmrWatchkeeper.DemodChainLimits
