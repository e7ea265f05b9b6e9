import DmrWatchkeeper.BurstSyncFraming
import DmrWatchkeeper.DemodChainLimits

/-! A channel whose input repeats itself with the decimation, as a stuck or an
unmodulated one does, falls silent, whatever it was given before: the stages pass
on a constant, and no sync word is near a constant. -/
namespace DmrWatchkeeper.DemodChainSilence
open Stage StreamWindow DemodChain DemodChainLimits

/-! ### Dibits -/

section Dibits
open BurstSync BurstSyncTracking BurstSyncFraming SyncWords
variable {d : UInt8}

theorem constant_word (small : d.toNat < 4) : ¬NearSync (packWord (List.replicate 24 d)) := by
  have listed : d = 0 ∨ d = 1 ∨ d = 2 ∨ d = 3 := by
    simp only [← UInt8.toNat_inj, UInt8.reduceToNat]
    omega
  have unknown : matchSync (packWord (List.replicate 24 d)) = .unknown := by
    rcases listed with rfl | rfl | rfl | rfl <;> decide +kernel
  exact fun near => (matchSync_ne_unknown_iff _).mpr near unknown

theorem window_replicate {x : ℤ → UInt8} {n : ℤ} {k m : ℕ} (next : Follows x n (List.replicate k d)) {p : ℤ}
    (low : n + m ≤ p) (high : p ≤ n + k) : window x p m = List.replicate m d := by
  refine List.eq_replicate_iff.mpr ⟨length_window .., fun e member => ?_⟩
  obtain ⟨i, inside, rfl⟩ := List.mem_iff_getElem.mp member
  rw [length_window] at inside
  obtain ⟨j, place⟩ : ∃ j : ℕ, p - m + 1 + i = n + 1 + j := ⟨(p - m + i - n).toNat, by omega⟩
  rw [getElem_window, place, next j (by rw [List.length_replicate]; omega), List.getElem_replicate]

/-- Behind 24 equal dibits, more of them complete at most the burst in progress. -/
theorem constant_bursts (channel : ℤ) (xs : List UInt8) (small : d.toNat < 4) (k : ℕ) :
    (outputs pushDibit (after pushDibit (init channel) (xs ++ List.replicate 24 d))
      (List.replicate k d)).length ≤ 1 := by
  have masked : (List.replicate (24 + (k + 59)) d).map (· &&& 0x03) = List.replicate (24 + (k + 59)) d := by
    rw [List.map_replicate, and_three_of_lt small]
  have split : xs ++ List.replicate 24 d ++ List.replicate (k + 59) d =
      xs ++ (List.replicate (24 + (k + 59)) d ++ []) := by
    rw [List.append_nil, List.append_assoc, List.replicate_add 24]
  have follows : Follows (dibitAt (xs ++ List.replicate 24 d ++ List.replicate (k + 59) d)) xs.length
      (List.replicate (24 + (k + 59)) d) := masked ▸ feeds_dibitAt xs _ [] split
  have feeds := feeds_dibitAt (xs ++ List.replicate 24 d) (List.replicate (k + 59) d) []
    (by rw [List.append_nil] : xs ++ List.replicate 24 d ++ List.replicate (k + 59) d = _)
  obtain ⟨earlier, m, few, -, -, emits, -⟩ :=
    (tracked_after channel (xs ++ List.replicate 24 d) (List.replicate (k + 59) d)).settle (dibitAt_lt _) feeds
      (by simp) (fun p above below => by
        rw [List.length_append, List.length_replicate] at above below
        rw [List.length_replicate] at below
        rw [syncWord, window_replicate follows (by push_cast at above ⊢; omega) (by push_cast at below ⊢; omega)]
        exact constant_word small) 0
  have total : (outputs pushDibit (after pushDibit (init channel) (xs ++ List.replicate 24 d))
      (List.replicate (k + 59) d)).length ≤ 1 := by
    rw [outputs, emits, List.length_map]
    exact few
  rw [List.replicate_add, outputs_append, List.length_append] at total
  omega

/-- In any state, few dibits and then equal ones complete at most two bursts. -/
theorem settling_bursts (channel : ℤ) (xs : List UInt8) {ys : List UInt8} (few : ys.length ≤ 8)
    (small : d.toNat < 4) (k : ℕ) :
    (outputs pushDibit (after pushDibit (init channel) xs) (ys ++ List.replicate k d)).length ≤ 2 := by
  obtain ⟨front, back, rfl, short, filled⟩ : ∃ front back, k = front + back ∧ front ≤ 24 ∧ (front = 24 ∨ back = 0) :=
    ⟨min k 24, k - min k 24, by omega, by omega, by omega⟩
  have hunting : (BurstSync.init channel).state = .hunting := rfl
  have paced := sync_paced (K := ℚ)
  have reached := (paced.run (fun collecting => (by cases hunting.symm.trans collecting)) xs).1
  have early := paced.run_le reached (ys ++ List.replicate front d)
  have savings := (paced.range _ reached).2
  rw [List.length_append, List.length_replicate] at early
  have one : (outputs pushDibit (after pushDibit (init channel) xs) (ys ++ List.replicate front d)).length ≤ 1 := by
    have few' : (ys.length : ℚ) ≤ 8 := by exact_mod_cast few
    have short' : (front : ℚ) ≤ 24 := by exact_mod_cast short
    push_cast at early
    have bound : ((outputs pushDibit (after pushDibit (init channel) xs) (ys ++ List.replicate front d)).length : ℚ) <
        2 := by linarith
    exact Nat.lt_succ_iff.mp (by exact_mod_cast bound)
  rw [List.replicate_add, ← List.append_assoc, outputs_append, List.length_append]
  rcases filled with rfl | rfl
  · have later := constant_bursts channel (xs ++ ys) small back
    rw [List.append_assoc, after_append] at later
    omega
  · have none : (outputs pushDibit (after pushDibit (after pushDibit (init channel) xs) (ys ++ List.replicate front d))
        (List.replicate 0 d)).length = 0 := rfl
    omega

end Dibits

/-! ### Symbols -/

section Symbols
open FskSlicer FskSlicerLevels GatedAverage
variable {K : Type} [Field K] [LinearOrder K] [IsStrictOrderedRing K] {cfg : FskSlicer.Config K} {s : FskSlicer K}

theorem slice_small (s : FskSlicer K) (v : K) : (s.slice v).toNat < 4 := by
  rw [slice_eq]
  split_ifs <;> decide

/-- With the gate at half of the levels or above, a symbol does not move the
levels past itself. -/
theorem slice_track (valid : Valid cfg) (gate : 1 ≤ 2 * cfg.outerThresh) (ordered : Ordered cfg s) (v : K) :
    (s.track v).slice v = s.slice v := by
  obtain ⟨low, high⟩ := valid.alpha
  obtain ⟨pos, neg⟩ := ordered.track_peaks valid v
  have above := gated_le_double_iff (v := v) low.le high gate ordered.high
  have below := gated_lt_double_iff (v := -v) low.le high gate (neg_pos.mpr ordered.low)
  have under : (s.track v).negPeak ≤ 2 * v ↔ s.negPeak ≤ 2 * v := by
    rw [neg, ← not_lt, ← not_lt (a := 2 * v), not_iff_not]
    constructor <;> intro beyond
    · have mirrored := below.mp (by linarith)
      linarith
    · have mirrored := below.mpr (by linarith)
      linarith
  simp only [slice_eq, pos, above, under]

/-- A repeated symbol is sliced to the same dibit each time. -/
theorem constant_dibits (valid : Valid cfg) (gate : 1 ≤ 2 * cfg.outerThresh) (ordered : Ordered cfg s) (v : K)
    (k : ℕ) : outputs FskSlicer.decide s (List.replicate k v) = List.replicate k (s.slice v) := by
  induction k generalizing s with
  | zero => rfl
  | succ k ih =>
    have kept := ordered.track valid v
    rw [List.replicate_succ, outputs_cons, FskSlicer.decide]
    rw [ih kept, slice_track valid gate ordered]
    rfl

end Symbols

/-! ### Samples -/

section Samples
open TimingRecovery TimingRecoveryExact TimingRecoveryClock
variable {K : Type} [Field K] [LinearOrder K] [IsStrictOrderedRing K] [FloorRing K] {cfg : TimingRecovery.Config K}

/-- Behind eight equal samples, the next of them gives no other symbol. -/
theorem constant_symbol (valid : InRange cfg) (xs : List K) (c : K) :
    ∀ y ∈ (processSample (after processSample (init cfg) (xs ++ List.replicate 8 c)) c).2, y = c := by
  obtain ⟨used, -, clock⟩ := (init_clock valid).run valid (xs ++ List.replicate 8 c)
  have next : Follows (sampleAt (xs ++ List.replicate 9 c)) 0 (xs ++ List.replicate 9 c) := follows_sampleAt _
  have known : ∀ i : ℤ, xs.length < i → i ≤ xs.length + 9 → sampleAt (xs ++ List.replicate 9 c) i = c := by
    intro i above below
    obtain ⟨k, rfl⟩ : ∃ k : ℕ, i = 0 + xs.length + 1 + k := ⟨(i - xs.length - 1).toNat, by omega⟩
    rw [(follows_append.mp next).2 k (by rw [List.length_replicate]; omega), List.getElem_replicate]
  have start : Follows (sampleAt (xs ++ List.replicate 9 c)) 0 (xs ++ List.replicate 8 c ++ [c]) := by
    rwa [List.append_assoc, ← List.replicate_succ']
  obtain ⟨before, last⟩ := follows_append.mp start
  obtain ⟨m, -, tracks⟩ := (init_tracks valid (sampleAt_silent (xs ++ List.replicate 9 c))).run valid
    (xs ++ List.replicate 8 c) before
  have place : ((0 + (xs ++ List.replicate 8 c).length : ℕ) : ℤ) + 1 = xs.length + 9 := by
    rw [List.length_append, List.length_replicate]
    push_cast
    ring
  have held := tracks.agrees.records.push (d := c) (by
    rw [place]
    exact known _ (by omega) le_rfl)
  rw [place] at held
  generalize after processSample (init cfg) (xs ++ List.replicate 8 c) = s at clock held
  by_cases late : s.omega ≤ (s.push c).mu
  · intro y emitted
    rw [processSample_strobes late, Option.mem_some_iff] at emitted
    obtain ⟨low, high⟩ := (clock.strobe_safe valid late).phase
    have near : ∀ offset ∈ offsets ((s.push c).mu - (s.push c).omega), 0 ≤ offset ∧ offset ≤ (1 : ℕ) :=
      offsets_near low (by exact_mod_cast high)
    have read : ∀ offset ∈ offsets ((s.push c).mu - (s.push c).omega), (s.push c).idx offset = c := by
      intro offset member
      obtain ⟨recent, within⟩ := near offset member
      rw [held.idx_eq recent (by omega)]
      exact known _ (by omega) (by omega)
    have value : (s.push c).strobe.2 = (s.push c).interpolate ((s.push c).mu - (s.push c).omega) := rfl
    rw [← emitted, value]
    simp only [interpolate]
    rw [read _ (by simp [offsets]), read _ (by simp [offsets]), sub_self, mul_zero, add_zero]
  · rw [processSample_quiet late]
    exact fun y emitted => absurd emitted (by simp)

theorem constant_symbols (valid : InRange cfg) (xs : List K) (c : K) (k : ℕ) :
    ∀ y ∈ outputs processSample (after processSample (init cfg) (xs ++ List.replicate 8 c)) (List.replicate k c),
      y = c := by
  induction k generalizing xs with
  | zero => simp [outputs]
  | succ k ih =>
    intro y member
    have shifted : xs ++ List.replicate 8 c ++ [c] = xs ++ [c] ++ List.replicate 8 c := by
      rw [List.append_assoc, ← List.replicate_succ', List.append_assoc]
      rfl
    have next : (processSample (after processSample (init cfg) (xs ++ List.replicate 8 c)) c).1 =
        after processSample (init cfg) (xs ++ [c] ++ List.replicate 8 c) := by
      rw [← shifted, after_append processSample _ (xs ++ List.replicate 8 c)]
      rfl
    rw [List.replicate_succ (n := k), outputs_cons, List.mem_append, Option.mem_toList, next] at member
    rcases member with now | later
    · exact constant_symbol valid xs c y now
    · exact ih (xs ++ [c]) y later

/-- All symbols of a repeated sample are equal but for the first eight. -/
theorem settling_symbols (valid : InRange cfg) (xs : List K) (c : K) (k : ℕ) : ∃ first j, first.length ≤ 8 ∧
    outputs processSample (after processSample (init cfg) xs) (List.replicate k c) = first ++ List.replicate j c := by
  obtain ⟨front, back, rfl, short, filled⟩ : ∃ front back, k = front + back ∧ front ≤ 8 ∧ (front = 8 ∨ back = 0) :=
    ⟨min k 8, k - min k 8, by omega, by omega, by omega⟩
  have few := (paced_by_items (K := ℚ) (processSample (F := K))).run_le (s := after processSample (init cfg) xs)
    trivial (List.replicate front c)
  rw [one_mul, zero_add, List.length_replicate, Nat.cast_le] at few
  rw [List.replicate_add, outputs_append, ← after_append]
  refine ⟨_, _, few.trans short, congrArg _ (List.eq_replicate_of_mem ?_)⟩
  rcases filled with rfl | rfl
  · exact constant_symbols valid xs c back
  · simp [outputs]

end Samples

/-! ### The front end -/

section FrontEnd
open FrontEnd ChannelFilterExact
variable {cfg : ChannelFilter.Config ℝ}

/-- Items repeat themselves after `period`. -/
def Repeats {α : Type} (period : ℕ) (xs : List α) : Prop := ∀ i, i + period < xs.length → xs[i + period]? = xs[i]?

theorem Repeats.constant {α : Type} [Inhabited α] {xs : List α} (repeats : Repeats 1 xs) :
    ∃ k c, xs = List.replicate k c := by
  cases xs with
  | nil => exact ⟨0, default, rfl⟩
  | cons c xs =>
    have same : ∀ i < (c :: xs).length, (c :: xs)[i]? = some c := by
      intro i inside
      induction i with
      | zero => rfl
      | succ i ih =>
        rw [repeats i inside]
        exact ih (Nat.lt_of_succ_lt inside)
    refine ⟨(c :: xs).length, c, List.eq_replicate_of_mem fun y member => ?_⟩
    obtain ⟨i, inside, rfl⟩ := List.mem_iff_getElem.mp member
    have here := same i inside
    rwa [List.getElem?_eq_getElem inside, Option.some.injEq] at here

theorem Repeats.signal {pairs : List (UInt8 × UInt8)} {period : ℕ} (repeats : Repeats period pairs) {x : ℤ}
    (low : 0 ≤ x) (high : x + period < pairs.length) : signal pairs (x + period) = signal pairs x := by
  obtain ⟨i, rfl⟩ := Int.eq_ofNat_of_zero_le low
  have equal := repeats i (by omega)
  rw [List.getElem?_eq_getElem (by omega), List.getElem?_eq_getElem (by omega), Option.some.injEq] at equal
  have place : (i : ℤ) + period = (i + period : ℕ) := by push_cast; rfl
  rw [place, signal_known (by omega), signal_known (by omega), equal]

/-- What a channel's discriminator puts out for `later` pairs, behind `pairs`. -/
noncomputable def discriminatedBehind (cfg : ChannelFilter.Config ℝ) (pairs later : List (UInt8 × UInt8)) : List ℝ :=
  outputs FmDiscriminator.processSample
    (after FmDiscriminator.processSample .init (outputs ChannelFilter.processPair (.construct cfg) pairs))
    (outputs ChannelFilter.processPair (after ChannelFilter.processPair (.construct cfg) pairs) later)

theorem discriminated_append (cfg : ChannelFilter.Config ℝ) (pairs later : List (UInt8 × UInt8)) :
    discriminated cfg (pairs ++ later) = discriminated cfg pairs ++ discriminatedBehind cfg pairs later := by
  rw [discriminated, outputs_append ChannelFilter.processPair, outputs_append FmDiscriminator.processSample]
  rfl

/-- Where the input repeats itself with the decimation, over the filter's length
and one decimation, the discriminator is constant. -/
theorem discriminated_constant (usable : Usable cfg) (before warm later : List (UInt8 × UInt8))
    (repeats : Repeats cfg.decimation.toNat (warm ++ later))
    (enough : cfg.numTaps + cfg.decimation.toNat ≤ warm.length) :
    ∃ k c, discriminatedBehind cfg (before ++ warm) later = List.replicate k c := by
  refine Repeats.constant fun i inside => ?_
  have positive : 0 < cfg.decimation.toNat := by
    have rate := usable.rate
    omega
  have whole := discriminated_append cfg (before ++ warm) later
  have known : (discriminated cfg (before ++ warm)).length = (before ++ warm).length / cfg.decimation.toNat :=
    length_discriminated usable
  have all : (discriminated cfg (before ++ warm ++ later)).length =
      (before ++ warm ++ later).length / cfg.decimation.toNat := length_discriminated usable
  have item (i : ℕ) : (discriminatedBehind cfg (before ++ warm) later)[i]? =
      (discriminated cfg (before ++ warm ++ later))[(before ++ warm).length / cfg.decimation.toNat + i]? := by
    rw [whole, ← known, List.getElem?_append_right (by omega), Nat.add_sub_cancel_left]
  rw [whole, List.length_append, known] at all
  have begun : 0 < (before ++ warm).length / cfg.decimation.toNat := by
    refine Nat.div_pos ?_ positive
    rw [List.length_append]
    omega
  obtain ⟨m, place⟩ : ∃ m, (before ++ warm).length / cfg.decimation.toNat + i = m + 1 :=
    ⟨(before ++ warm).length / cfg.decimation.toNat + i - 1, by omega⟩
  have past : (before ++ warm).length < (m + 2) * cfg.decimation.toNat :=
    (Nat.div_lt_iff_lt_mul positive).mp (by omega)
  have room : (m + 3) * cfg.decimation.toNat ≤ (before ++ warm ++ later).length :=
    (Nat.le_div_iff_mul_le positive).mp (by omega)
  rw [item, item, ← Nat.add_assoc, place]
  refine discriminated_congr usable (by omega) (by omega) fun j below => ?_
  rw [List.append_assoc, List.length_append] at room
  rw [List.length_append] at past
  obtain ⟨x, recent⟩ : ∃ x : ℕ, (m + 2) * cfg.decimation.toNat = before.length + x + 1 + j :=
    ⟨(m + 2) * cfg.decimation.toNat - before.length - 1 - j, by omega⟩
  have next : (m + 3) * cfg.decimation.toNat = (m + 2) * cfg.decimation.toNat + cfg.decimation.toNat := by ring
  have third : (m + 1 + 2) * cfg.decimation.toNat = (m + 3) * cfg.decimation.toNat := rfl
  have now : (((m + 2) * cfg.decimation.toNat : ℕ) : ℤ) - 1 - j = before.length + (x : ℤ) := by omega
  have then_ : (((m + 1 + 2) * cfg.decimation.toNat : ℕ) : ℤ) - 1 - j =
      before.length + ((x : ℤ) + cfg.decimation.toNat) := by omega
  rw [List.append_assoc, now, then_, signal_append before _ (by omega), signal_append before _ (by omega)]
  exact repeats.signal (by omega) (by omega)

end FrontEnd

/-! ### The chain -/

section Chain
variable {cfg : Config ℝ}

/-- Behind the front end, the chain runs on what the discriminator puts out. -/
theorem behind_discriminator (cfg : Config ℝ) (pairs later : List (UInt8 × UInt8)) :
    outputs pairStep (after pairStep (newChain cfg).carried pairs) later =
      outputs wiredStep (after wiredStep (newChain cfg).wired (FrontEnd.discriminated cfg.filterConfig pairs))
        (discriminatedBehind cfg.filterConfig pairs later) := by
  simp only [pairStep, carried, after_cascade, outputs_cascade]
  rfl

/-- A constant at the discriminator brings at most two bursts. -/
theorem settling_wired (range : TimingRecoveryExact.InRange cfg.timing) (valid : FskSlicerLevels.Valid cfg.slicer)
    (gate : 1 ≤ 2 * cfg.slicer.outerThresh) (ds : List ℝ) (k : ℕ) (c : ℝ) :
    (outputs wiredStep (after wiredStep (newChain cfg).wired ds) (List.replicate k c)).length ≤ 2 := by
  obtain ⟨first, j, few, symbols⟩ := settling_symbols range ds c k
  simp only [wiredStep, wired, after_cascade, outputs_cascade]
  have start : (newChain cfg).timing = .init cfg.timing ∧ (newChain cfg).slicer = .init cfg.slicer ∧
      (newChain cfg).burstSync = .init cfg.channelIdx := ⟨rfl, rfl, rfl⟩
  rw [start.1, start.2.1, start.2.2, symbols, outputs_append FskSlicer.decide, ← after_append]
  rw [constant_dibits valid gate (FskSlicerLevels.run_ordered valid _)]
  have sliced := (paced_by_items (K := ℚ) (FskSlicer.decide (F := ℝ))).run_le (s := after FskSlicer.decide
    (.init cfg.slicer) (outputs TimingRecovery.processSample (.init cfg.timing) ds)) trivial first
  have notified (m : SlotManager) (bursts : List BurstSync.Burst) :=
    (paced_by_items (K := ℚ) SlotManager.notify).run_le (s := m) trivial bursts
  simp only [one_mul, zero_add, Nat.cast_le] at sliced notified
  exact (notified _ _).trans (settling_bursts cfg.channelIdx _ (sliced.trans few) (slice_small _ c) j)

/-- Whatever a channel was given before: where its input repeats itself with the
decimation, then from the filter's length and one decimation on at most two more
bursts are reported, however long that lasts. -/
theorem repeating_silent (usable : FrontEnd.Usable cfg.filterConfig)
    (range : TimingRecoveryExact.InRange cfg.timing) (valid : FskSlicerLevels.Valid cfg.slicer)
    (gate : 1 ≤ 2 * cfg.slicer.outerThresh) (calls warm later : List ((ℕ → UInt8) × ℕ))
    (repeats : Repeats cfg.filter.decimation.toNat (pairStream warm ++ pairStream later))
    (enough : cfg.filter.numTaps + cfg.filter.decimation.toNat ≤ (pairStream warm).length) :
    (((newChain cfg).processAll (calls ++ warm)).1.processAll later).2.length ≤ 2 := by
  obtain ⟨state, -⟩ := processAll_run (newChain cfg) (calls ++ warm)
  obtain ⟨-, events⟩ := processAll_run ((newChain cfg).processAll (calls ++ warm)).1 later
  have pairs : pairStream (calls ++ warm) = pairStream calls ++ pairStream warm := List.flatMap_append
  obtain ⟨k, c, constant⟩ := discriminated_constant usable (pairStream calls) (pairStream warm) (pairStream later)
    repeats enough
  rw [events, state, pairs, behind_discriminator, constant]
  exact settling_wired range valid gate _ k c

/-- A receiver that is stuck at one byte, for 4000 seconds. -/
theorem repeating_silent_stuck :
    (((newChain (.ofChannel (446106250 : ℝ) "446.106")).processAll
      ([(fun i => i.toUInt8, 5000)] ++ [(fun _ => 128, 139)])).1.processAll
        [(fun _ => 128, 1000000000)]).2.length ≤ 2 := by
  have stuck (k : ℕ) : pairStream [(fun _ => 128, k)] = List.replicate k (128, 128) := by
    simp [pairStream, ChannelFilter.pairsOf]
  refine repeating_silent ⟨rfl, by decide⟩ channel_range FskSlicerLevels.default_valid ?_
    [(fun i => i.toUInt8, 5000)] [(fun _ => 128, 139)] [(fun _ => 128, 1000000000)] (fun i inside => ?_) ?_
  · norm_num [Config.ofChannel, FskSlicer.Config.default]
  · rw [stuck, stuck, ← List.replicate_add] at inside ⊢
    rw [List.length_replicate] at inside
    rw [List.getElem?_replicate_of_lt inside, List.getElem?_replicate_of_lt (by omega)]
  · rw [stuck, List.length_replicate]
    decide

end Chain
end DmrWatchkeeper.DemodChainSilence
