import DmrWatchkeeper.FskDemodulation
import DmrWatchkeeper.Library.GatedAverage

/-! The order of the slicer's levels, in exact arithmetic: the peaks never meet
zero, and larger values are never decided as lower levels. -/
namespace DmrWatchkeeper.FskSlicerLevels
open FskSlicer GatedAverage

variable {K : Type} [Field K] [LinearOrder K]

structure Valid (cfg : Config K) : Prop where
  alpha : 0 < cfg.emaAlpha ∧ cfg.emaAlpha < 1
  thresh : 0 < cfg.outerThresh
  outer : 0 < cfg.initOuter

/-- The peaks are on their own sides of zero. -/
structure Ordered (cfg : Config K) (s : FskSlicer K) : Prop where
  config : s.cfg = cfg
  high : 0 < s.posPeak
  low : s.negPeak < 0

/-- The place of a dibit in the order of the levels, from the lowest. -/
def rank (dibit : UInt8) : ℕ := [3, 2, 0, 1].idxOf dibit

variable [IsStrictOrderedRing K] {cfg : Config K} {s : FskSlicer K} {v w : K}

/-! ### Tracking -/

/-- Each peak is a gated average of its own side's values. -/
theorem Ordered.track_peaks (valid : Valid cfg) (ordered : Ordered cfg s) (v : K) :
    (s.track v).posPeak = gated cfg.emaAlpha cfg.outerThresh v s.posPeak ∧
      (s.track v).negPeak = -gated cfg.emaAlpha cfg.outerThresh (-v) (-s.negPeak) := by
  have above := mul_pos valid.thresh ordered.high
  have below := mul_neg_of_pos_of_neg valid.thresh ordered.low
  unfold track
  rw [ordered.config]
  by_cases high : cfg.outerThresh * s.posPeak < v
  · rw [if_pos high, gated_open high, gated_closed (by linarith), neg_neg]
    exact ⟨rfl, rfl⟩
  · rw [if_neg high, gated_closed (not_lt.mp high)]
    by_cases low : v < cfg.outerThresh * s.negPeak
    · rw [if_pos low, gated_open (by linarith), average]
      exact ⟨rfl, by ring⟩
    · rw [if_neg low, gated_closed (by linarith), neg_neg]
      exact ⟨rfl, rfl⟩

omit [IsStrictOrderedRing K] in
theorem track_cfg (s : FskSlicer K) (v : K) : (s.track v).cfg = s.cfg := by
  simp only [track]
  split_ifs <;> rfl

theorem Ordered.track (valid : Valid cfg) (ordered : Ordered cfg s) (v : K) :
    Ordered cfg (s.track v) := by
  obtain ⟨positive, below⟩ := valid.alpha
  obtain ⟨high, low⟩ := ordered.track_peaks valid v
  refine ⟨(track_cfg s v).trans ordered.config, ?_, ?_⟩
  · rw [high]
    exact gated_pos positive.le below valid.thresh.le ordered.high
  · rw [low]
    exact neg_neg_of_pos (gated_pos positive.le below valid.thresh.le (neg_pos.mpr ordered.low))

theorem init_ordered (valid : Valid cfg) : Ordered cfg (init cfg) :=
  ⟨rfl, valid.outer, neg_neg_of_pos valid.outer⟩

theorem run_ordered (valid : Valid cfg) (vs : List K) :
    Ordered cfg (Stage.after decide (init cfg) vs) :=
  Stage.after_invariant decide (fun _ v ordered => ordered.track valid v) (init_ordered valid) vs

/-! ### Slicing -/

theorem slice_eq (s : FskSlicer K) (v : K) : s.slice v =
    if s.posPeak ≤ 2 * v then 1 else if 0 ≤ v then 0 else if s.negPeak ≤ 2 * v then 2 else 3 := by
  have half : (0.5 : K) = 1 / 2 := by norm_num
  have zero : (0.0 : K) = 0 := by norm_num
  have double (peak : K) : peak * (1 / 2) ≤ v ↔ peak ≤ 2 * v := by
    constructor <;> intro reached <;> linarith
  unfold slice
  simp only [half, zero, double]

/-- The rank counts the thresholds that the value reaches. -/
theorem Ordered.rank_slice (ordered : Ordered cfg s) (v : K) : rank (s.slice v) =
    (if s.negPeak ≤ 2 * v then 1 else 0) + (if 0 ≤ v then 1 else 0) +
      if s.posPeak ≤ 2 * v then 1 else 0 := by
  have high := ordered.high
  have low := ordered.low
  rw [slice_eq]
  by_cases top : s.posPeak ≤ 2 * v
  · rw [if_pos top, if_pos top, if_pos (by linarith), if_pos (by linarith)]
    rfl
  · rw [if_neg top, if_neg top]
    by_cases upper : 0 ≤ v
    · rw [if_pos upper, if_pos upper, if_pos (by linarith)]
      rfl
    · rw [if_neg upper, if_neg upper]
      split <;> rfl

/-- A threshold that larger values still reach adds to the rank monotonically. -/
theorem count_mono {p q : Prop} [Decidable p] [Decidable q] (kept : p → q) :
    (if p then 1 else 0) ≤ if q then 1 else 0 := by
  by_cases reached : p
  · rw [if_pos reached, if_pos (kept reached)]
  · rw [if_neg reached]
    exact Nat.zero_le _

/-- A larger value reaches every threshold that a smaller one reaches, each with
the peaks that it has itself moved. -/
theorem Ordered.decide_mono (valid : Valid cfg) (ordered : Ordered cfg s) (order : v ≤ w) :
    rank ((s.track v).slice v) ≤ rank ((s.track w).slice w) := by
  obtain ⟨positive, below⟩ := valid.alpha
  obtain ⟨high_v, low_v⟩ := ordered.track_peaks valid v
  obtain ⟨high_w, low_w⟩ := ordered.track_peaks valid w
  rw [(ordered.track valid v).rank_slice, (ordered.track valid w).rank_slice]
  apply Nat.add_le_add
  · apply Nat.add_le_add
    · apply count_mono
      intro reached
      by_contra missed
      rw [low_w, not_le] at missed
      have passed := gated_lt_double (v := -w) (w := -v) (t := cfg.outerThresh) positive.le below
        (neg_pos.mpr ordered.low) (neg_le_neg order) (by linarith)
      rw [low_v] at reached
      linarith
    · exact count_mono order.trans'
  · apply count_mono
    intro reached
    rw [high_v] at reached
    rw [high_w]
    exact gated_le_double positive.le below ordered.high order reached

/-- Every level is decided for some value. -/
theorem Ordered.decides_every_level (valid : Valid cfg) (ordered : Ordered cfg s) :
    ∀ dibit ∈ ([3, 2, 0, 1] : List UInt8), ∃ v, (decide s v).2 = some dibit := by
  obtain ⟨positive, below⟩ := valid.alpha
  have high := ordered.high
  have low := ordered.low
  have still := ordered.track_peaks valid
  have opening := mul_pos valid.thresh high
  have closing := mul_neg_of_pos_of_neg valid.thresh low
  have own (level : K) : gated cfg.emaAlpha cfg.outerThresh level level = level := by
    simp [gated, average]
  intro dibit member
  simp only [List.mem_cons, List.not_mem_nil, or_false] at member
  simp only [FskSlicer.decide, Option.some.injEq, slice_eq, (still _).1, (still _).2]
  rcases member with rfl | rfl | rfl | rfl
  · refine ⟨s.negPeak, ?_⟩
    rw [own, gated_closed (by linarith), if_neg (by linarith), if_neg (by linarith),
      if_neg (by linarith)]
  · refine ⟨max (cfg.outerThresh * s.negPeak) (s.negPeak / 2), ?_⟩
    have negative : max (cfg.outerThresh * s.negPeak) (s.negPeak / 2) < 0 :=
      max_lt closing (by linarith)
    have gate := le_max_left (cfg.outerThresh * s.negPeak) (s.negPeak / 2)
    have half := le_max_right (cfg.outerThresh * s.negPeak) (s.negPeak / 2)
    rw [gated_closed (by linarith), gated_closed (by linarith), if_neg (by linarith),
      if_neg (by linarith), if_pos (by linarith)]
  · refine ⟨0, ?_⟩
    rw [gated_closed (by linarith), if_neg (by linarith), if_pos le_rfl]
  · refine ⟨s.posPeak, ?_⟩
    rw [own, if_pos (by linarith)]

/-- After any symbol values: the peaks are on their own sides of zero, and so are
the thresholds, so every level is decided for some value; and of two values, the
larger is not decided as the lower level. -/
theorem levels_ordered (valid : Valid cfg) (vs : List K) :
    ((Stage.after decide (init cfg) vs).negPeak < 0 ∧ 0 < (Stage.after decide (init cfg) vs).posPeak) ∧
    ((Stage.after decide (init cfg) vs).negPeak * 0.5 < 0 ∧
      0 < (Stage.after decide (init cfg) vs).posPeak * 0.5) ∧
    (∀ dibit ∈ ([3, 2, 0, 1] : List UInt8), ∃ v,
      (decide (Stage.after decide (init cfg) vs) v).2 = some dibit) ∧
    ∀ v w, v ≤ w → ∃ lower upper, (decide (Stage.after decide (init cfg) vs) v).2 = some lower ∧
      (decide (Stage.after decide (init cfg) vs) w).2 = some upper ∧ rank lower ≤ rank upper := by
  have ordered := run_ordered valid vs
  have half : (0 : K) < 0.5 := by norm_num
  refine ⟨⟨ordered.low, ordered.high⟩, ⟨mul_neg_of_neg_of_pos ordered.low half,
    mul_pos ordered.high half⟩, ordered.decides_every_level valid, fun v w order => ?_⟩
  exact ⟨_, _, rfl, rfl, ordered.decide_mono valid order⟩

theorem default_valid : Valid (Config.default : Config K) := by
  constructor <;> norm_num [Config.default]

/-- After one strong symbol, the outer level of the start is an inner one. -/
theorem levels_ordered_after_strong :
    (decide (Stage.after decide (init (Config.default : Config ℚ)) [100]) 0.02).2 = some 0 ∧
      0 < (Stage.after decide (init (Config.default : Config ℚ)) [100]).posPeak :=
  ⟨by decide +kernel, (levels_ordered default_valid [100]).1.2⟩

end DmrWatchkeeper.FskSlicerLevels
