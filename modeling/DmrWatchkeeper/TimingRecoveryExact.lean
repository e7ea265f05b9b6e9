import DmrWatchkeeper.TimingRecovery
import DmrWatchkeeper.Library.StreamWindow
import Mathlib.Tactic.Linarith
import Mathlib.Tactic.NormNum
import Mathlib.Data.Rat.Floor

/-! The timing loop in exact arithmetic: over any ordered field with a floor,
the loop samples the piecewise-linear interpolant of its input at a sequence of
instants that is defined without history, phase or samples. -/
namespace DmrWatchkeeper.TimingRecoveryExact
open TimingRecovery StreamWindow LinearInterpolation

section Specification
variable {K : Type} [Field K] [LinearOrder K]

/-- Configurations whose symbol periods the 8-sample history can serve. -/
structure InRange (cfg : Config K) : Prop where
  shortest : 1 ≤ cfg.omegaMin
  low : cfg.omegaMin ≤ cfg.nominalSps
  high : cfg.nominalSps ≤ cfg.omegaMax
  longest : cfg.omegaMax ≤ 6

/-- A symbol instant, with the loop's values just after it. -/
structure Instant (K : Type) where
  time : K
  /-- The period up to the next instant. -/
  omega : K
  /-- The sum of `K2 * e` over the instants so far. -/
  integral : K
  symbol : K

variable (cfg : Config K) (X : K → K) (i : Instant K)

/-- The timing error at the instant after `i`. -/
def Instant.error : K :=
  X (i.time + i.omega - i.omega / 2) * (X (i.time + i.omega) - i.symbol)

def Instant.next : Instant K where
  time := i.time + i.omega
  omega := max cfg.omegaMin (min cfg.omegaMax
    (i.omega + cfg.K1 * i.error X + (i.integral + cfg.K2 * i.error X)))
  integral := i.integral + cfg.K2 * i.error X
  symbol := X (i.time + i.omega)

/-- The instants at which a signal `X` is sampled. -/
def instant : ℕ → Instant K
  | 0 => { time := 0, omega := cfg.nominalSps, integral := 0, symbol := 0 }
  | k + 1 => (instant k).next cfg X

variable {cfg : Config K} {X : K → K}

theorem instant_omega_bounds (valid : InRange cfg) (k : ℕ) :
    1 ≤ (instant cfg X k).omega ∧ (instant cfg X k).omega ≤ 6 := by
  suffices bounds : cfg.omegaMin ≤ (instant cfg X k).omega ∧
      (instant cfg X k).omega ≤ cfg.omegaMax by
    exact ⟨valid.shortest.trans bounds.1, bounds.2.trans valid.longest⟩
  cases k with
  | zero => exact ⟨valid.low, valid.high⟩
  | succ k => exact ⟨le_max_left .., max_le (valid.low.trans valid.high) (min_le_left ..)⟩

end Specification

theorem clamp_eq {F : Type} [LinearOrder F] {lo hi : F} (order : lo ≤ hi) (v : F) :
    clamp v lo hi = max lo (min hi v) := by
  unfold clamp
  by_cases below : v < lo
  · rw [if_pos below, min_eq_right (below.le.trans order), max_eq_left below.le]
  · rw [not_lt] at below
    rw [if_neg below.not_gt]
    by_cases above : hi < v
    · rw [if_pos above, min_eq_left above.le, max_eq_right order]
    · rw [if_neg above, min_eq_right (not_lt.mp above), max_eq_right below]

/-! ### The history -/

section History
variable {F : Type} [OfScientific F] {x : ℤ → F} {n : ℤ} {s : TimingRecovery F} {d : F}

/-- The circular history holds the last 8 of `n` samples. -/
structure Records (x : ℤ → F) (n : ℤ) (s : TimingRecovery F) : Prop where
  head : s.histIdx = n % 8
  hist : Holds (fun j => s.hist.getD j 0.0) 8 (fun i => x (i + 1)) (n - 8) n

theorem Records.push [Add F] (held : Records x n s) (next : x (n + 1) = d) :
    Records x (n + 1) (s.push d) where
  head := by
    rw [TimingRecovery.push, held.head]
    exact head_succ n (by decide)
  hist := Holds.push (by decide) held.hist held.head next

/-- Counting back at most 7 samples never meets an overwritten one. -/
theorem Records.idx_eq (held : Records x n s) {offset : ℤ} (low : 0 ≤ offset)
    (high : offset ≤ 7) : s.idx offset = x (n - offset) := by
  have slot : (s.histIdx - 1 - offset + kHistLen * 2).tmod kHistLen = (n - 1 - offset) % 8 := by
    rw [held.head, sub_sub, sub_sub]
    exact head_back n (by decide) (by push_cast; omega)
  have position : n - 1 - offset + 1 = n - offset := by ring
  rw [idx, slot, ← position]
  exact held.hist (n - 1 - offset) (by omega) (by omega)

end History


variable {K : Type} [Field K] [LinearOrder K] [IsStrictOrderedRing K] [FloorRing K]
  {cfg : Config K} {x : ℤ → K} {n k : ℕ} {i : Instant K} {s : TimingRecovery K} {d : K}

/-- Truncation toward zero. -/
instance : CastToInt K where
  toInt x := if 0 ≤ x then ⌊x⌋ else ⌈x⌉

/-- `interpolate` reads the interpolant, `frac` before the latest sample. -/
theorem Records.interpolate_eq {n : ℤ} (held : Records x n s) {frac : K} (low : 0 ≤ frac)
    (high : frac < 7) : s.interpolate frac = interpolant x (n - frac) := by
  have floor_low : 0 ≤ ⌊frac⌋ := Int.floor_nonneg.mpr low
  have floor_high : ⌊frac⌋ < 7 := Int.floor_lt.mpr (by exact_mod_cast high)
  have split : (n : K) - frac = n - (⌊frac⌋ + Int.fract frac) := by rw [Int.floor_add_fract]
  have earlier : n - (⌊frac⌋ + 1) = n - ⌊frac⌋ - 1 := by ring
  simp only [interpolate, CastToInt.toInt, if_pos low]
  rw [held.idx_eq floor_low (by omega), held.idx_eq (by omega) (by omega), earlier,
    Int.self_sub_floor, split,
    interpolant_back x n _ (Int.fract_nonneg frac) (Int.fract_lt_one frac).le]

/-! ### One sample -/

/-- After `n` samples and `k` symbols, the last of them at the instant `i`,
`mu` is the time since that instant. -/
structure Agrees (cfg : Config K) (x : ℤ → K) (n k : ℕ) (i : Instant K) (s : TimingRecovery K) :
    Prop where
  config : s.cfg = cfg
  records : Records x n s
  omega : s.omega = i.omega
  integral : s.vP = i.integral
  symbol : s.prevSym = i.symbol
  phase : s.mu = n - i.time
  count : s.symbolCount = UInt64.ofNat k

omit [IsStrictOrderedRing K] in
theorem Agrees.push (agrees : Agrees cfg x n k i s) (next : x (n + 1) = d) :
    Agrees cfg x (n + 1) k i (s.push d) where
  config := agrees.config
  records := by
    have held := agrees.records.push next
    exact_mod_cast held
  omega := agrees.omega
  integral := agrees.integral
  symbol := agrees.symbol
  phase := by
    have one : (1.0 : K) = 1 := by norm_num
    simp only [TimingRecovery.push, agrees.phase, one]
    push_cast
    ring
  count := agrees.count

/-- A strobe less than one sample after the next instant moves the loop to it. -/
theorem Agrees.strobe (valid : InRange cfg) (agrees : Agrees cfg x n k i s)
    (bounds : 1 ≤ i.omega ∧ i.omega ≤ 6) (reached : (i.next cfg (interpolant x)).time ≤ n)
    (recent : n < (i.next cfg (interpolant x)).time + 1) :
    Agrees cfg x n (k + 1) (i.next cfg (interpolant x)) s.strobe.1 ∧
      s.strobe.2 = (i.next cfg (interpolant x)).symbol := by
  have half : (0.5 : K) = 1 / 2 := by norm_num
  have place : (i.next cfg (interpolant x)).time = i.time + i.omega := rfl
  have late : s.mu - s.omega = n - (i.time + i.omega) := by
    rw [agrees.phase, agrees.omega]
    ring
  have middle : s.mu - s.omega + s.omega * 0.5 = n - (i.time + i.omega - i.omega / 2) := by
    rw [late, agrees.omega, half]
    ring
  obtain ⟨shortest, longest⟩ := bounds
  rw [place] at reached recent
  have current : s.interpolate (s.mu - s.omega) = (i.next cfg (interpolant x)).symbol := by
    rw [agrees.records.interpolate_eq (by linarith) (by linarith), late, Int.cast_natCast,
      sub_sub_cancel]
    rfl
  have between : s.interpolate (s.mu - s.omega + s.omega * 0.5) =
      interpolant x (i.time + i.omega - i.omega / 2) := by
    rw [agrees.records.interpolate_eq (by rw [middle]; linarith) (by rw [middle]; linarith), middle, Int.cast_natCast,
      sub_sub_cancel]
  have error : s.interpolate (s.mu - s.omega + s.omega * 0.5) *
      (s.interpolate (s.mu - s.omega) - s.prevSym) = i.error (interpolant x) := by
    rw [between, current, agrees.symbol]
    rfl
  refine ⟨?_, current⟩
  exact
    { config := agrees.config
      records := { head := agrees.records.head, hist := agrees.records.hist }
      omega := by
        simp only [TimingRecovery.strobe]
        rw [error, clamp_eq (by rw [agrees.config]; exact valid.low.trans valid.high),
          agrees.config, agrees.omega, agrees.integral, ← add_assoc]
        rfl
      integral := by
        simp only [TimingRecovery.strobe]
        rw [error, agrees.config, agrees.integral]
        rfl
      symbol := current
      phase := late
      count := by
        simp only [TimingRecovery.strobe, agrees.count, UInt64.ofNat_add]
        rfl }

/-- After `n` samples and `k` symbols, instant `k + 1` is still ahead. -/
structure Tracks (cfg : Config K) (x : ℤ → K) (n k : ℕ) (s : TimingRecovery K) : Prop where
  agrees : Agrees cfg x n k (instant cfg (interpolant x) k) s
  reached : (instant cfg (interpolant x) k).time ≤ n
  pending : n < (instant cfg (interpolant x) (k + 1)).time

theorem init_tracks (valid : InRange cfg) (silent : ∀ i ≤ 0, x i = 0) :
    Tracks cfg x 0 0 (init cfg) where
  agrees :=
    { config := rfl
      records :=
        { head := rfl
          hist := fun i _ below => by
            have zero : (0.0 : K) = 0 := by norm_num
            simp only [silent (i + 1) (show i + 1 ≤ 0 by omega), init, Vector.getD, Array.getD]
            simp [zero] }
      omega := rfl
      integral := by norm_num [init, instant]
      symbol := by norm_num [init, instant]
      phase := by norm_num [init, instant]
      count := rfl }
  reached := by simp [instant]
  pending := by
    have positive := valid.shortest.trans valid.low
    simp only [instant, Instant.next, Nat.cast_zero, zero_add]
    linarith

omit [IsStrictOrderedRing K] in
theorem processSample_quiet (early : ¬s.omega ≤ s.mu + 1.0) :
    processSample s d = (s.push d, none) :=
  if_neg early

omit [IsStrictOrderedRing K] in
theorem processSample_strobes (late : s.omega ≤ s.mu + 1.0) :
    processSample s d = ((s.push d).strobe.1, some (s.push d).strobe.2) :=
  if_pos late

/-- The strobe condition compares the sample count with the next instant. -/
theorem Tracks.due_iff (tracks : Tracks cfg x n k s) : s.omega ≤ s.mu + 1.0 ↔
    (instant cfg (interpolant x) (k + 1)).time ≤ (n + 1 : ℕ) := by
  have one : (1.0 : K) = 1 := by norm_num
  have place : (instant cfg (interpolant x) (k + 1)).time =
      (instant cfg (interpolant x) k).time + (instant cfg (interpolant x) k).omega := rfl
  rw [tracks.agrees.omega, tracks.agrees.phase, one, place]
  push_cast
  constructor <;> intro due <;> linarith

theorem Tracks.quiet (tracks : Tracks cfg x n k s) (next : x (n + 1) = d)
    (early : ¬(instant cfg (interpolant x) (k + 1)).time ≤ (n + 1 : ℕ)) :
    (processSample s d).2 = none ∧ Tracks cfg x (n + 1) k (processSample s d).1 := by
  rw [processSample_quiet (mt tracks.due_iff.mp early)]
  refine ⟨rfl, tracks.agrees.push next, tracks.reached.trans ?_, not_le.mp early⟩
  exact_mod_cast n.le_succ

theorem Tracks.strobes (valid : InRange cfg) (tracks : Tracks cfg x n k s) (next : x (n + 1) = d)
    (due : (instant cfg (interpolant x) (k + 1)).time ≤ (n + 1 : ℕ)) :
    (processSample s d).2 = some (instant cfg (interpolant x) (k + 1)).symbol ∧
      Tracks cfg x (n + 1) (k + 1) (processSample s d).1 := by
  have pending := tracks.pending
  have recent : ((n + 1 : ℕ) : K) < (instant cfg (interpolant x) (k + 1)).time + 1 := by
    push_cast
    linarith
  obtain ⟨agrees, emits⟩ := (tracks.agrees.push next).strobe valid
    (instant_omega_bounds valid k) due recent
  rw [processSample_strobes (tracks.due_iff.mpr due), emits]
  refine ⟨rfl, agrees, due, recent.trans_le ?_⟩
  have later := (instant_omega_bounds (X := interpolant x) valid (k + 1)).1
  exact add_le_add_right later _

/-! ### Whole runs -/

/-- The position and value of the symbol at instant `k`. -/
def emission (cfg : Config K) (X : K → K) (k : ℕ) : ℕ × K :=
  (⌈(instant cfg X k).time⌉₊, X (instant cfg X k).time)

/-- From any tracked state, the symbols are those of the instants reached. -/
theorem Tracks.run (valid : InRange cfg) (tracks : Tracks cfg x n k s) (xs : List K)
    (next : Follows x n xs) : ∃ m,
      Stage.emitted processSample n s xs =
        (List.range' (k + 1) m).map (emission cfg (interpolant x)) ∧
      Tracks cfg x (n + xs.length) (k + m) (Stage.after processSample s xs) := by
  induction xs generalizing n k s with
  | nil => exact ⟨0, rfl, tracks⟩
  | cons d xs ih =>
    obtain ⟨first, others⟩ := follows_cons.mp next
    rw [Stage.emitted_cons, Stage.after_cons, List.length_cons, Nat.add_comm xs.length, ← Nat.add_assoc]
    by_cases due : (instant cfg (interpolant x) (k + 1)).time ≤ (n + 1 : ℕ)
    · obtain ⟨emits, tracked⟩ := tracks.strobes valid first due
      obtain ⟨m, rest, tail⟩ := ih tracked (by exact_mod_cast others)
      refine ⟨m + 1, ?_, by rwa [Nat.add_comm m, ← Nat.add_assoc]⟩
      have position : ⌈(instant cfg (interpolant x) (k + 1)).time⌉₊ = n + 1 :=
        (Nat.ceil_eq_iff n.succ_ne_zero).mpr ⟨tracks.pending, due⟩
      rw [emits, rest, List.range'_succ, List.map_cons, emission, position]
      rfl
    · obtain ⟨emits, tracked⟩ := tracks.quiet first due
      obtain ⟨m, rest, tail⟩ := ih tracked (by exact_mod_cast others)
      exact ⟨m, by rw [emits, rest]; rfl, tail⟩

/-- Instants are at least one sample apart. -/
theorem instant_time_strictMono (valid : InRange cfg) (X : K → K) :
    StrictMono fun k => (instant cfg X k).time := by
  apply strictMono_nat_of_lt_succ
  intro k
  have positive := zero_lt_one.trans_le (instant_omega_bounds (X := X) valid k).1
  exact lt_add_of_pos_right _ positive

/-- The tracked count is the number of instants reached after the start. -/
theorem Tracks.count_iff (valid : InRange cfg) (tracks : Tracks cfg x n k s) (j : ℕ) :
    j < k ↔ (instant cfg (interpolant x) (j + 1)).time ≤ n := by
  have order := (instant_time_strictMono valid (interpolant x)).monotone
  constructor
  · intro before
    exact (order (Nat.succ_le_of_lt before)).trans tracks.reached
  · intro reached
    by_contra beyond
    have later := order (show k + 1 ≤ j + 1 by omega)
    exact absurd (later.trans reached) (not_le.mpr tracks.pending)

/-- However a stream is cut into vectors, `process` emits the interpolant's
values at the instants reached so far, each as soon as its instant is reached,
and the loop's period, integrator and previous symbol are those of the last
instant. -/
theorem process_exact (valid : InRange cfg) (silent : ∀ i ≤ 0, x i = 0)
    (vectors : List (List K)) (fed : Follows x 0 vectors.flatten) :
    ∃ count, (∀ k, k < count ↔
        (instant cfg (interpolant x) (k + 1)).time ≤ (vectors.flatten.length : K)) ∧
      Stage.emitted processSample 0 (init cfg) vectors.flatten =
        (List.range count).map (fun k => (⌈(instant cfg (interpolant x) (k + 1)).time⌉₊,
          interpolant x (instant cfg (interpolant x) (k + 1)).time)) ∧
      (processAll (init cfg) vectors).2 = (List.range count).map (fun k =>
        interpolant x (instant cfg (interpolant x) (k + 1)).time) ∧
      Agrees cfg x vectors.flatten.length count (instant cfg (interpolant x) count)
        (processAll (init cfg) vectors).1 := by
  obtain ⟨count, emits, tracks⟩ := (init_tracks valid silent).run valid vectors.flatten fed
  rw [Nat.zero_add, Nat.zero_add] at tracks
  have events : Stage.emitted processSample 0 (init cfg) vectors.flatten =
      (List.range count).map (fun k => emission cfg (interpolant x) (k + 1)) := by
    rw [emits, List.range'_eq_map_range, List.map_map]
    refine List.map_congr_left fun k _ => ?_
    rw [Function.comp_apply, Nat.zero_add, Nat.add_comm]
  rw [processAll_eq]
  refine ⟨count, tracks.count_iff valid, events, ?_, tracks.agrees⟩
  rw [Stage.outputs, events, List.map_map]
  rfl

/-- The stream of a list of samples, zero before and after. -/
def sampleAt (xs : List K) (i : ℤ) : K := if 1 ≤ i then xs.getD (i - 1).toNat 0 else 0

omit [LinearOrder K] [IsStrictOrderedRing K] [FloorRing K] in
theorem follows_sampleAt (xs : List K) : Follows (sampleAt xs) 0 xs := by
  intro k bound
  have position : ((0 : ℤ) + 1 + k - 1).toNat = k := by omega
  rw [sampleAt, if_pos (by omega), position, List.getD_eq_getElem?_getD,
    List.getElem?_eq_getElem bound, Option.getD_some]

omit [LinearOrder K] [IsStrictOrderedRing K] [FloorRing K] in
theorem sampleAt_silent (xs : List K) : ∀ i ≤ 0, sampleAt xs i = 0 :=
  fun _ before => if_neg (by omega)

/-- Six samples of a ramp, in two vectors, give one symbol. -/
theorem process_exact_ramp :
    (processAll (init (Config.default : Config ℚ)) [[1, 2, 3], [4, 5, 6]]).2 = [5.2083] := by
  have valid : InRange (Config.default : Config ℚ) := by constructor <;> norm_num [Config.default]
  obtain ⟨count, counted, -, emits, -⟩ := process_exact valid
    (sampleAt_silent _) [[1, 2, 3], [4, 5, 6]] (follows_sampleAt _)
  have first := counted 0
  have second := counted 1
  have period := (instant_omega_bounds (X := interpolant (sampleAt [[1, 2, 3], [4, 5, 6]].flatten))
    valid 1).1
  have start : (instant Config.default (interpolant (sampleAt [[1, 2, 3], [4, 5, 6]].flatten))
      1).time = (5 : ℤ) + (0.2083 : ℚ) := by
    norm_num [instant, Instant.next, Config.default]
  have one : count = 1 := by
    have some_symbol : 0 < count := first.mpr (by rw [start]; norm_num)
    have no_more : ¬1 < count := by
      intro more
      have late := second.mp more
      rw [instant, Instant.next, start] at late
      have length : ([[1, 2, 3], [4, 5, 6]] : List (List ℚ)).flatten.length = 6 := rfl
      rw [length] at late
      push_cast at late
      linarith
    omega
  have fifth : sampleAt [[1, 2, 3], [4, 5, 6]].flatten 5 = (5 : ℚ) := rfl
  have sixth : sampleAt [[1, 2, 3], [4, 5, 6]].flatten (5 + 1) = (6 : ℚ) := rfl
  rw [emits, one, List.range_one, List.map_singleton, start,
    interpolant_between _ 5 (by norm_num) (by norm_num), fifth, sixth]
  norm_num

end DmrWatchkeeper.TimingRecoveryExact
