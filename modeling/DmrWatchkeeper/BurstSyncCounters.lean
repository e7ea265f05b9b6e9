import DmrWatchkeeper.BurstSyncScanner

/-! The `int` arithmetic of the synchroniser. All of it is bounded by the
buffers and by one burst but the match counter behind the timeslot, which no
step ever lowers. -/
namespace DmrWatchkeeper.BurstSyncCounters
open BurstSync BurstSyncTracking BurstSyncScanner GreedyScan

/-- The range of `int`. -/
def InInt (n : ℤ) : Prop := -2 ^ 31 ≤ n ∧ n < 2 ^ 31

/-- The values of the `int` expressions in `extract_first_half`. -/
def firstHalfInts (s : BurstSync) : List ℤ :=
  let start := (s.histHead - 73 + kHistLen * 2).tmod kHistLen
  [s.histHead - 73, s.histHead - 73 + kHistLen * 2, start] ++
    (List.range 49).flatMap fun i : ℕ => [start + i, (start + i).tmod kHistLen, (i : ℤ) + 1]

/-- The values of the `int` expressions that `push_dibit` evaluates for a dibit. -/
def pushInts (s : BurstSync) (dibit : UInt8) : List ℤ :=
  let r := s.record (dibit &&& 0x03)
  [s.histHead + 1, (s.histHead + 1).tmod kHistLen] ++ match s.state with
    | .hunting => if matchSync r.syncReg ≠ .unknown then (r.tsToggle + 1) :: firstHalfInts r else []
    | .collecting => (if r.collectIdx < 49 then [49 + r.collectIdx] else []) ++ [r.collectIdx + 1]

/-- No expression leaves the range of `int` while the stream is pushed. -/
def NoOverflow (s : BurstSync) (xs : List UInt8) : Prop :=
  ∀ front d back, xs = front ++ d :: back →
    ∀ n ∈ pushInts (Stage.after pushDibit s front) d, InInt n

variable {s : BurstSync} {d : UInt8} {xs : List UInt8}

theorem noOverflow_nil : NoOverflow s [] := by
  intro front d back split
  simp at split

theorem noOverflow_cons : NoOverflow s (d :: xs) ↔
    (∀ n ∈ pushInts s d, InInt n) ∧ NoOverflow (pushDibit s d).1 xs := by
  constructor
  · intro safe
    refine ⟨safe [] d xs rfl, fun front e back split => ?_⟩
    exact safe (d :: front) e back (by rw [split, List.cons_append])
  · rintro ⟨now, later⟩ front e back split
    cases front with
    | nil =>
      obtain ⟨rfl, -⟩ := List.cons.inj split
      exact now
    | cons f front =>
      obtain ⟨rfl, rest⟩ := List.cons.inj split
      exact later front e back rest

/-! ### One dibit -/

/-- The counters that are reduced or reset stay small, and the other one is not
negative. -/
structure Bounded (s : BurstSync) : Prop where
  head : 0 ≤ s.histHead ∧ s.histHead < 128
  index : 0 ≤ s.collectIdx ∧ s.collectIdx ≤ 59
  unfinished : s.state = .collecting → s.collectIdx < 59
  toggle : 0 ≤ s.tsToggle

theorem init_bounded (channel : ℤ) : Bounded (init channel) := by
  constructor <;> simp [init]

theorem record_head (bounded : Bounded s) (d : UInt8) :
    (s.record d).histHead = (s.histHead + 1) % 128 := by
  obtain ⟨low, high⟩ := bounded.head
  rw [BurstSync.record, kHistLen, Int.tmod_eq_emod_of_nonneg (by omega)]

theorem Bounded.push (bounded : Bounded s) (d : UInt8) :
    Bounded (pushDibit s d).1 ∧ s.tsToggle ≤ (pushDibit s d).1.tsToggle := by
  obtain ⟨⟨head, -⟩, effect⟩ := pushDibit_cases s d
  have toggle := bounded.toggle
  have index := bounded.index
  rw [record_head bounded] at head
  rcases effect with ⟨-, -, -, state, same, count⟩ | ⟨-, -, -, state, reset, count⟩ |
    ⟨-, room, -, -, next, count⟩ | ⟨phase, -, state, next, count⟩
  · exact ⟨⟨by omega, by omega, by simp [state], by omega⟩, by omega⟩
  · exact ⟨⟨by omega, by omega, by omega, by omega⟩, by omega⟩
  · exact ⟨⟨by omega, by omega, by omega, by omega⟩, by omega⟩
  · have unfinished := bounded.unfinished phase
    exact ⟨⟨by omega, by omega, by simp [state], by omega⟩, by omega⟩

/-- The expressions of `extract_first_half` are within two buffer lengths. -/
theorem firstHalfInts_inInt (head : 0 ≤ s.histHead ∧ s.histHead < 128) :
    ∀ n ∈ firstHalfInts s, InInt n := by
  have start : (s.histHead - 73 + kHistLen * 2).tmod kHistLen = (s.histHead + 183) % 128 := by
    rw [kHistLen, Int.tmod_eq_emod_of_nonneg (by omega)]
    omega
  unfold InInt
  simp only [firstHalfInts, start]
  intro n member
  rcases List.mem_append.mp member with offsets | copies
  · simp only [kHistLen, List.mem_cons, List.not_mem_nil, or_false] at offsets
    omega
  · obtain ⟨i, bound, copied⟩ := List.mem_flatMap.mp copies
    rw [List.mem_range] at bound
    have slot : ((s.histHead + 183) % 128 + i).tmod kHistLen = ((s.histHead + 183) % 128 + i) % 128 := by
      rw [kHistLen, Int.tmod_eq_emod_of_nonneg (by omega)]
    simp only [slot, List.mem_cons, List.not_mem_nil, or_false] at copied
    omega

theorem headInts_inInt (bounded : Bounded s) :
    ∀ n ∈ [s.histHead + 1, (s.histHead + 1).tmod kHistLen], InInt n := by
  obtain ⟨low, high⟩ := bounded.head
  have slot : (s.histHead + 1).tmod kHistLen = (s.histHead + 1) % 128 := by
    rw [kHistLen, Int.tmod_eq_emod_of_nonneg (by omega)]
  unfold InInt
  intro n member
  simp only [slot, List.mem_cons, List.not_mem_nil, or_false] at member
  omega

/-- While a burst is collected, its length bounds the expressions. -/
theorem collectInts_inInt (bounded : Bounded s) (phase : s.state = .collecting) (d : UInt8) :
    ∀ n ∈ pushInts s d, InInt n := by
  have index := bounded.index
  have same : (s.record (d &&& 0x03)).collectIdx = s.collectIdx := rfl
  simp only [pushInts, phase, same]
  refine List.forall_mem_append.mpr ⟨headInts_inInt bounded, ?_⟩
  unfold InInt
  intro n member
  split at member
  · simp only [List.mem_append, List.mem_singleton] at member
    omega
  · simp only [List.nil_append, List.mem_singleton] at member
    omega

/-- A match evaluates the count of matches among expressions that are in range. -/
theorem matchInts_inInt_iff (bounded : Bounded s) (phase : s.state = .hunting)
    (found : matchSync (s.record (d &&& 0x03)).syncReg ≠ .unknown) :
    (∀ n ∈ pushInts s d, InInt n) ↔ s.tsToggle + 1 < 2 ^ 31 := by
  have toggle := bounded.toggle
  have copied : ∀ n ∈ firstHalfInts (s.record (d &&& 0x03)), InInt n := by
    apply firstHalfInts_inInt
    rw [record_head bounded]
    omega
  have same : (s.record (d &&& 0x03)).tsToggle = s.tsToggle := rfl
  simp only [pushInts, phase, if_pos found, same]
  rw [List.forall_mem_append]
  constructor
  · rintro ⟨-, counted⟩
    exact (counted _ List.mem_cons_self).2
  · intro counted
    exact ⟨headInts_inInt bounded, List.forall_mem_cons.mpr ⟨⟨by omega, counted⟩, copied⟩⟩

/-- The only expression that can leave the range is the count of matches. -/
theorem pushInts_inInt_iff (bounded : Bounded s) (before : s.tsToggle < 2 ^ 31) (d : UInt8) :
    (∀ n ∈ pushInts s d, InInt n) ↔ (pushDibit s d).1.tsToggle < 2 ^ 31 := by
  obtain ⟨-, ⟨phase, silent, -, -, -, count⟩ | ⟨phase, found, -, -, -, count⟩ |
    ⟨phase, -, -, -, -, count⟩ | ⟨phase, -, -, -, count⟩⟩ := pushDibit_cases s d
  · rw [count]
    simp only [pushInts, phase, silent, ne_eq, not_true, ↓reduceIte, List.append_nil]
    exact iff_of_true (headInts_inInt bounded) before
  · rw [count]
    exact matchInts_inInt_iff bounded phase found
  · rw [count]
    exact iff_of_true (collectInts_inInt bounded phase d) before
  · rw [count]
    exact iff_of_true (collectInts_inInt bounded phase d) before

/-! ### Whole streams -/

theorem tsToggle_mono (bounded : Bounded s) (xs : List UInt8) :
    s.tsToggle ≤ (Stage.after pushDibit s xs).tsToggle := by
  induction xs generalizing s with
  | nil => exact Int.le_refl _
  | cons d xs ih =>
    obtain ⟨next, grows⟩ := bounded.push d
    exact grows.trans (ih next)

theorem noOverflow_iff_toggle (bounded : Bounded s) (before : s.tsToggle < 2 ^ 31)
    (xs : List UInt8) : NoOverflow s xs ↔ (Stage.after pushDibit s xs).tsToggle < 2 ^ 31 := by
  induction xs generalizing s with
  | nil => exact iff_of_true noOverflow_nil before
  | cons d xs ih =>
    obtain ⟨next, -⟩ := bounded.push d
    rw [noOverflow_cons, pushInts_inInt_iff bounded before, Stage.after_cons]
    constructor
    · rintro ⟨now, later⟩
      exact (ih next now).mp later
    · intro final
      have now := (tsToggle_mono next xs).trans_lt final
      exact ⟨now, (ih next now).mpr final⟩

/-- After a stream the count is the number of sync words selected in it. -/
theorem tsToggle_eq (channel : ℤ) {ps : List ℕ}
    (selected : Selects (EndsSync (dibitAt xs)) 60 xs.length 1 ps) :
    (Stage.after pushDibit (init channel) xs).tsToggle = ps.length := by
  have feeds : Feeds (dibitAt xs) 0 xs := feeds_dibitAt [] xs [] (by simp)
  obtain ⟨-, -, -, toggle⟩ := Hunting.run_scan (n := 0) (dibitAt_lt xs) selected
    (init_hunting channel xs) feeds rfl (Nat.zero_add _).symm
  rwa [Nat.zero_add] at toggle

/-- A stream is pushed without signed overflow exactly where fewer than `2 ^ 31`
sync words are selected in it: each of them increments `ts_toggle_`, of which
only the parity is used. -/
theorem noOverflow_iff (channel : ℤ) (xs : List UInt8) : NoOverflow (init channel) xs ↔
    ∃ ps, Selects (EndsSync (dibitAt xs)) 60 xs.length 1 ps ∧ ps.length < 2 ^ 31 := by
  rw [noOverflow_iff_toggle (init_bounded channel) (by simp [init])]
  constructor
  · intro few
    obtain ⟨ps, selected⟩ : ∃ ps, Selects (EndsSync (dibitAt xs)) 60 xs.length 1 ps :=
      selects_total (by decide) 1
    rw [tsToggle_eq channel selected] at few
    exact ⟨ps, selected, by exact_mod_cast few⟩
  · rintro ⟨ps, selected, few⟩
    rw [tsToggle_eq channel selected]
    exact_mod_cast few

/-! ### A stream that overflows -/

/-- What the count of matches depends on: the register, and how much of a burst
has been collected. -/
structure Control where
  syncReg : UInt64
  collected : Option ℤ
  found : ℤ
  deriving DecidableEq

def Control.push (c : Control) (dibit : UInt8) : Control :=
  let syncReg := ((c.syncReg <<< 2) ||| (dibit &&& 0x03).toUInt64) &&& kMask48
  match c.collected with
  | none =>
    if matchSync syncReg = .unknown then { c with syncReg }
    else { syncReg, collected := some 0, found := c.found + 1 }
  | some k =>
    if k + 1 ≥ 59 then { c with syncReg, collected := none }
    else { c with syncReg, collected := some (k + 1) }

/-- The synchroniser is where its control is, after `before` earlier matches. -/
structure Controlled (before : ℤ) (c : Control) (s : BurstSync) : Prop where
  syncReg : s.syncReg = c.syncReg
  state : s.state = if c.collected = none then .hunting else .collecting
  index : ∀ k, c.collected = some k → s.collectIdx = k
  count : s.tsToggle = before + c.found

variable {before : ℤ} {c : Control}

theorem Controlled.push (controlled : Controlled before c s) (d : UInt8) :
    Controlled before (c.push d) (pushDibit s d).1 := by
  obtain ⟨⟨-, register⟩, effect⟩ := pushDibit_cases s d
  have recorded : (s.record (d &&& 0x03)).syncReg =
      ((c.syncReg <<< 2) ||| (d &&& 0x03).toUInt64) &&& kMask48 := by
    rw [← controlled.syncReg, BurstSync.record]
  have state := controlled.state
  have count := controlled.count
  rw [recorded] at register effect
  unfold Control.push
  cases at_ : c.collected with
  | none =>
    rw [at_, if_pos rfl] at state
    simp only [state, reduceCtorEq, false_and, or_false, true_and] at effect
    rcases effect with ⟨silent, -, stays, -, same⟩ | ⟨found, -, starts, reset, next⟩
    · simp only [if_pos silent]
      exact ⟨register, by rw [stays, if_pos rfl], by simp, same.trans count⟩
    · simp only [if_neg found]
      refine ⟨register, starts, fun k zero => ?_, by rw [next, count, add_assoc]⟩
      rw [reset, ← Option.some.inj zero]
  | some k =>
    rw [at_, if_neg (Option.some_ne_none k)] at state
    simp only [state, reduceCtorEq, false_and, false_or, true_and, controlled.index k at_] at effect
    rcases effect with ⟨room, -, stays, next, same⟩ | ⟨full, ends, -, same⟩
    · simp only [if_neg (not_le.mpr room)]
      refine ⟨register, stays, fun j further => ?_, same.trans count⟩
      rw [next, ← Option.some.inj further]
    · simp only [if_pos full]
      exact ⟨register, ends, by simp, same.trans count⟩

theorem Controlled.run (controlled : Controlled before c s) (xs : List UInt8) :
    Controlled before (xs.foldl Control.push c) (Stage.after pushDibit s xs) := by
  induction xs generalizing s c with
  | nil => exact controlled
  | cons d xs ih => exact ih (controlled.push d)

/-- A sync word, and zeros up to the end of its burst. -/
def block : List UInt8 :=
  [1, 3, 1, 1, 1, 1, 3, 3, 3, 1, 1, 3, 3, 1, 3, 3, 1, 3, 1, 1, 3, 3, 1, 3] ++ List.replicate 59 0

/-- From an empty register, the block counts once and leaves the register empty. -/
theorem block_control : block.foldl Control.push ⟨0, none, 0⟩ = ⟨0, none, 1⟩ := by decide +kernel

theorem blocks_run (idle : Controlled before ⟨0, none, 0⟩ s) (k : ℕ) :
    (Stage.after pushDibit s (List.replicate k block).flatten).tsToggle = before + k := by
  induction k generalizing before s with
  | zero => exact idle.count
  | succ k ih =>
    have once := idle.run block
    rw [block_control] at once
    have again : Controlled (before + 1) ⟨0, none, 0⟩ (Stage.after pushDibit s block) :=
      ⟨once.syncReg, once.state, once.index, by rw [once.count, add_zero]⟩
    rw [List.replicate_succ, List.flatten_cons, Stage.after_append, ih again]
    push_cast
    ring

/-- After some 178 thousand million dibits the count of matches overflows. -/
theorem long_stream_overflows : ¬NoOverflow (init 0) (List.replicate (2 ^ 31) block).flatten := by
  have idle : Controlled 0 ⟨0, none, 0⟩ (init 0) := ⟨rfl, rfl, by simp, rfl⟩
  rw [noOverflow_iff_toggle (init_bounded 0) (by simp [init]), blocks_run idle]
  norm_num

end DmrWatchkeeper.BurstSyncCounters
