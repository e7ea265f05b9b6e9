import DmrWatchkeeper.Library.LabelledRun
import DmrWatchkeeper.MonitorEvents

/-! The end of the program. Behind the signal, the channelizer thread finishes
what it is at, which may be one more block, and returns; then `main` gets
through its join. No party has to be given more than a bounded number of turns,
and no order of turns among the parties matters. -/
namespace DmrWatchkeeper.MonitorShutdown
open RingBuffer RingBufferThreads Channelizer CaptureAlignment Countdown
open Monitor MonitorEvents

/-- Turns that the thread has left in `read`. -/
def readLeft : Consumer → ℕ
  | .idle => blockBytes.toNat + 3
  | .loadedTail _ _ _ => blockBytes.toNat + 2
  | .copying _ _ _ rest => rest.length + 1

/-- Turns that the thread has left, once the signal has come. -/
def threadLeft (s : Channelizer.State) : ℕ :=
  match s.thread with
  | .returned => 0
  | .outer => 1
  | .inner => 1
  | .handing next => s.chains.length - next + 2
  | .reading => readLeft s.threads.consumer + s.chains.length + 2
  | .polled _ => blockBytes.toNat + s.chains.length + 6
  | .polling => blockBytes.toNat + s.chains.length + 7

/-- The blocks read, with the one that the thread may still be after. -/
def blocksDue (s : Channelizer.State) : ℕ :=
  s.blocks.length + match s.thread with
    | .polling | .polled _ | .reading => 1
    | _ => 0

/-- The copies of a call move as many bytes as the call goes on with. -/
theorem length_moves (r : RingBuffer) (index len : UInt64) : (r.moves index len).length = len.toNat := by
  have size : ∀ c : Chunk, c.moves.length = c.size.toNat := by
    intro c
    rw [Chunk.moves, List.length_map, List.length_range]
  simp only [moves, chunks, List.length_flatMap, List.map_cons, List.sum_cons, size]
  have short : min len (r.capacity - (index &&& r.mask)) ≤ len := by
    rw [UInt64.le_iff_toNat_le, RingBufferCopies.toNat_min]
    exact Nat.min_le_left ..
  by_cases wraps : min len (r.capacity - (index &&& r.mask)) < len
  · rw [if_pos wraps]
    have rest := UInt64.toNat_sub_of_le _ _ short
    rw [UInt64.le_iff_toNat_le] at short
    simp only [List.map_cons, List.map_nil, List.sum_cons, List.sum_nil, rest]
    omega
  · rw [if_neg wraps]
    rw [UInt64.lt_iff_toNat_lt] at wraps
    rw [UInt64.le_iff_toNat_le] at short
    simp only [List.map_nil, List.sum_nil]
    omega

theorem readLen_le (head tail len : UInt64) : (readLen head tail len).toNat ≤ len.toNat := by
  rw [readLen]
  split
  · rename_i less
    exact (UInt64.lt_iff_toNat_lt.mp less).le
  · exact Nat.le_refl _

variable {k : ℕ} {s : Channelizer.State}

/-- Behind the signal, and under the invariant of the threads. -/
structure Ending (k : ℕ) (s : Channelizer.State) : Prop where
  inv : CaptureAlignment.Inv k s
  signalled : s.running = false

theorem threadStep_running (s : Channelizer.State) : (threadStep s).running = s.running := by
  rw [threadStep.eq_def]
  split
  · rfl
  · rfl
  · rfl
  · rfl
  · split
    · rfl
    · split <;> rfl
  · split <;> rfl
  · rfl

theorem captureStep_running (s : Channelizer.State) (pairs : ℕ → UInt8 × UInt8) (count : ℕ) :
    (captureStep s pairs count).running = s.running := by
  rw [captureStep]
  split <;> rfl

theorem Ending.step (held : Ending k s) (large : 1 ≤ k) (turn : Channelizer.Turn) :
    Ending k (Channelizer.step s turn) where
  inv := held.inv.step large turn
  signalled := by
    cases turn with
    | capture pairs count => exact (captureStep_running s pairs count).trans held.signalled
    | channelizer => exact (threadStep_running s).trans held.signalled
    | signal => rfl

/-- Each of its own turns brings the thread nearer to its end. -/
theorem Ending.thread_falls (held : Ending k s) : threadLeft (threadStep s) ≤ threadLeft s - 1 := by
  obtain ⟨inv, signalled⟩ := held
  have snapshot := inv.blocks.snapshot
  cases at_ : s.thread with
  | outer => simp [threadLeft, threadStep, at_, signalled]
  | inner => simp [threadLeft, threadStep, at_, signalled]
  | returned => simp [threadLeft, threadStep, at_]
  | polling => simp [threadLeft, threadStep, at_]
  | polled head =>
    rw [at_] at snapshot
    have idle := snapshot.1
    by_cases few : head - s.threads.ring.tail < blockBytes
    · simp only [threadLeft, threadStep, at_, if_pos few]
      omega
    · simp only [threadLeft, threadStep, at_, if_neg few, idle, readLeft]
      omega
  | handing next =>
    by_cases more : next < s.chains.length
    · simp only [threadLeft, threadStep, at_, if_pos more, List.length_modify]
      omega
    · simp only [threadLeft, threadStep, at_, if_neg more]
      omega
  | reading =>
    rw [at_] at snapshot
    obtain ⟨⟨ring, producer, consumer, accepted, returned⟩, running, thread, block, chains, current,
      deliveries, kept, reads, blocks⟩ := s
    subst at_
    cases consumer with
    | idle =>
      simp only [threadLeft, threadStep, RingBufferThreads.step, consume, readLeft]
      omega
    | loadedTail dest len tail =>
      obtain ⟨rfl, -⟩ := snapshot
      have fits := readLen_le ring.head tail blockBytes
      by_cases none : readLen ring.head tail blockBytes = 0
      · have few : (0 : UInt64) < blockBytes := by decide
        simp only [threadLeft, threadStep, RingBufferThreads.step, consume, readLeft, if_pos none, if_pos few]
        omega
      · simp only [threadLeft, threadStep, RingBufferThreads.step, consume, readLeft, if_neg none, length_moves]
        omega
    | copying dest tail n rest =>
      cases rest with
      | nil =>
        by_cases few : n < blockBytes
        · simp only [threadLeft, threadStep, RingBufferThreads.step, consume, readLeft, if_pos few]
          omega
        · simp only [threadLeft, threadStep, RingBufferThreads.step, consume, readLeft, if_neg few]
          omega
      | cons move rest =>
        simp only [threadLeft, threadStep, RingBufferThreads.step, consume, readLeft, List.length_cons]
        omega

theorem threadLeft_le (held : Ending k s) : threadLeft s ≤ blockBytes.toNat + s.chains.length + 7 := by
  cases at_ : s.thread with
  | reading =>
    have left : readLeft s.threads.consumer ≤ blockBytes.toNat + 3 := by
      have consumes := held.inv.threads.consumes
      have snapshot := held.inv.blocks.snapshot
      rw [at_] at snapshot
      simp only [Snapshot] at snapshot
      cases copies : s.threads.consumer with
      | idle => exact Nat.le_refl _
      | loadedTail dest len tail => exact Nat.le_succ _
      | copying dest tail n rest =>
        rw [copies] at consumes snapshot
        obtain rfl := snapshot
        obtain ⟨-, -, count, -, rfl, -⟩ := consumes
        simp only [readLeft, RingBufferSafety.plan, List.length_map, List.length_range']
        omega
    simp only [threadLeft, at_]
    omega
  | _ =>
    simp only [threadLeft, at_]
    omega

/-- Only one more block can be read. -/
theorem Ending.blocks_falls (held : Ending k s) : blocksDue (threadStep s) ≤ blocksDue s := by
  obtain ⟨-, signalled⟩ := held
  cases at_ : s.thread with
  | outer => simp [blocksDue, threadStep, at_, signalled]
  | inner => simp [blocksDue, threadStep, at_, signalled]
  | returned => simp [blocksDue, threadStep, at_]
  | polling => simp [blocksDue, threadStep, at_]
  | polled head =>
    by_cases few : head - s.threads.ring.tail < blockBytes
    · simp only [blocksDue, threadStep, at_, if_pos few]
      omega
    · simp only [blocksDue, threadStep, at_, if_neg few]
      omega
  | handing next =>
    simp only [blocksDue, threadStep, at_]
    split <;> simp
  | reading =>
    simp only [blocksDue, threadStep, at_]
    split
    · simp
    · split <;> simp

/-- A delivery in progress is none of the thread's business. -/
theorem captureStep_left (s : Channelizer.State) (pairs : ℕ → UInt8 × UInt8) (count : ℕ) :
    threadLeft (captureStep s pairs count) = threadLeft s ∧
      blocksDue (captureStep s pairs count) = blocksDue s := by
  obtain ⟨thread, -, blocks, -, chains⟩ := captureStep_frame s pairs count
  have consumer : (captureStep s pairs count).threads.consumer = s.threads.consumer := by
    rw [captureStep_threads]
    rfl
  exact ⟨by rw [threadLeft, threadLeft, thread, chains, consumer], by rw [blocksDue, blocksDue, thread, blocks]⟩

theorem Ending.step_falls (held : Ending k s) (turn : Channelizer.Turn) :
    threadLeft (Channelizer.step s turn) ≤
        threadLeft s - (match turn with | .channelizer => 1 | _ => 0) ∧
      blocksDue (Channelizer.step s turn) ≤ blocksDue s := by
  cases turn with
  | capture pairs count =>
    obtain ⟨left, due⟩ := captureStep_left s pairs count
    exact ⟨left.le, due.le⟩
  | channelizer => exact ⟨held.thread_falls, held.blocks_falls⟩
  | signal => exact ⟨Nat.le_refl _, Nat.le_refl _⟩

theorem step_inboxes (s : Channelizer.State) (turn : Channelizer.Turn) :
    (Channelizer.step s turn).chains.length = s.chains.length := by
  cases turn with
  | capture pairs count => exact congrArg List.length (captureStep_frame s pairs count).2.2.2.2
  | channelizer =>
    rw [Channelizer.step, threadStep.eq_def]
    split
    · rfl
    · rfl
    · rfl
    · rfl
    · split
      · rfl
      · split <;> rfl
    · split
      · exact List.length_modify ..
      · rfl
    · rfl
  | signal => rfl

/-! ### The whole program -/

def isThread : Monitor.Turn → Bool
  | .system .channelizer => true
  | _ => false

def isMain : Monitor.Turn → Bool
  | .main => true
  | _ => false

section Program
variable {F D : Type}

/-- Turns that `main` has left, once the thread has returned. -/
def mainLeft (s : Monitor F D) : ℕ :=
  match s.main with
  | .stopping => 0
  | .joining => 1
  | .loop => 2
  | .totals => 3
  | .summary next => s.chains.length - next + 4
  | .sleeping => s.chains.length + 5

/-- The thread has returned, and the lines `lines` are all that there will be. -/
structure Returned (lines : List (Channel.Event D)) (s : Monitor F D) : Prop where
  thread : s.system.thread = .returned
  signalled : s.system.running = false
  emitted : s.emitted = lines

theorem mainStep_falls {lines : List (Channel.Event D)} {s : Monitor F D} (held : Returned lines s) :
    mainLeft s.mainStep ≤ mainLeft s - 1 := by
  cases at_ : s.main with
  | loop => simp [mainLeft, mainStep, at_, held.signalled]
  | sleeping =>
    by_cases early : s.tick + 1 < 10
    · simp only [mainLeft, mainStep, at_, if_pos early]
      omega
    · simp only [mainLeft, mainStep, at_, if_neg early]
      omega
  | summary next =>
    cases here : s.chains[next]? with
    | none =>
      simp only [mainLeft, mainStep, at_, here]
      omega
    | some chain =>
      have bound := (List.getElem?_eq_some_iff.mp here).1
      have same : (s.summarise next chain).chains = s.chains := by
        simp only [summarise]
        split <;> rfl
      simp only [mainLeft, mainStep, at_, here, same]
      omega
  | totals => simp [mainLeft, mainStep, at_]
  | joining => simp [mainLeft, mainStep, at_, held.thread]
  | stopping => simp [mainLeft, mainStep, at_]

theorem mainLeft_le (s : Monitor F D) : mainLeft s ≤ s.chains.length + 5 := by
  cases at_ : s.main <;> simp only [mainLeft, at_] <;> omega

/-- A chain and an inbox for each channel. -/
def Sizes (n : ℕ) (s : Monitor F D) : Prop := s.chains.length = n ∧ s.system.chains.length = n

theorem start_sizes (r : RingBuffer) (chains : List (DemodChain F)) :
    Sizes chains.length (start r chains : Monitor F D) := ⟨rfl, List.length_replicate⟩

variable [OfScientific F] [Add F] [Sub F] [Mul F] [Div F] [IntCast F] [LT F] [LE F]
  [DecidableLT F] [DecidableLE F] [CastToInt F] [FloatLib F]
  [IntCast D] [Mul D] [Div D] [Neg D] [LT D] [DecidableLT D] [BEq D]

theorem systemStep_length (s : Monitor F D) (turn : Channelizer.Turn) :
    (s.systemStep turn).chains.length = s.chains.length := by
  have configs := congrArg List.length (systemStep_frame s turn).1
  rwa [List.length_map, List.length_map] at configs

/-- Nothing is emitted once the thread has returned. -/
theorem Returned.step {lines : List (Channel.Event D)} {s : Monitor F D} (held : Returned lines s)
    (turn : Monitor.Turn) : Returned lines (s.step turn) := by
  obtain ⟨thread, signalled, emitted⟩ := held
  cases turn with
  | main =>
    obtain ⟨system, -, same⟩ := mainStep_frame s
    exact ⟨by rw [Monitor.step, system, thread], by rw [Monitor.step, system, signalled],
      by rw [Monitor.step, same, emitted]⟩
  | system turn =>
    cases turn with
    | capture pairs count =>
      exact ⟨(captureStep_frame ..).1.trans thread, (captureStep_running ..).trans signalled, emitted⟩
    | channelizer =>
      have idle : threadStep s.system = s.system := by rw [threadStep, thread]
      have same : s.systemStep .channelizer = { s with system := threadStep s.system } := by
        simp only [systemStep, thread]
        rfl
      rw [Monitor.step, same, idle]
      exact ⟨thread, signalled, emitted⟩
    | signal => exact ⟨thread, rfl, emitted⟩

/-- Behind the return of the thread, `main` finishes. -/
theorem Returned.closes {lines : List (Channel.Event D)} {s : Monitor F D} (held : Returned lines s)
    (closing : List Monitor.Turn) : (closing.foldl Monitor.step s).emitted = lines ∧
      (s.chains.length + 5 ≤ closing.countP isMain →
        (closing.foldl Monitor.step s).main = .stopping) := by
  have keeps : ∀ (s : Monitor F D) turn, Returned lines s → Returned lines (s.step turn) :=
    fun s turn held => held.step turn
  have falls : ∀ (s : Monitor F D) turn, Returned lines s →
      mainLeft (s.step turn) ≤ mainLeft s - (isMain turn).toNat := by
    intro s turn held
    cases turn with
    | main => exact mainStep_falls held
    | system turn =>
      have main := (systemStep_frame s turn).2.2.2.1
      have chains := systemStep_length s turn
      have same : mainLeft (s.systemStep turn) = mainLeft s := by
        rw [mainLeft, mainLeft, main, chains]
      exact same.le
  refine ⟨(run_keeps keeps held closing).emitted, fun enough => ?_⟩
  have done := run_done mainLeft keeps falls held ((mainLeft_le s).trans enough)
  cases at_ : (closing.foldl Monitor.step s).main <;> simp [mainLeft, at_] at done ⊢

theorem Sizes.step {n : ℕ} {s : Monitor F D} (held : Sizes n s) (turn : Monitor.Turn) :
    Sizes n (s.step turn) := by
  cases turn with
  | main =>
    obtain ⟨system, chains, -⟩ := mainStep_frame s
    exact ⟨by rw [Monitor.step, chains, held.1], by rw [Monitor.step, system, held.2]⟩
  | system turn =>
    refine ⟨(systemStep_length s turn).trans held.1, Eq.trans ?_ held.2⟩
    exact step_inboxes s.system turn

/-- In any order of turns: once the signal has come, the thread returns within a
bounded number of its own turns, and reads at most one more block; from then on
no line is emitted, and `main` gets through its join and to `cap.stop()` within
a bounded number of its own turns. -/
theorem shuts_down {allocate : RingBuffer.Allocator} {c : UInt64} {r : RingBuffer} (created : RingBuffer.create allocate c = .ok r)
    (large : blockBytes.toNat ≤ c.toNat) (chains : List (DemodChain F))
    (before later closing : List Monitor.Turn) {s t : Monitor F D}
    (reached : before.foldl Monitor.step (start r chains) = s) (signalled : s.system.running = false)
    (ran : later.foldl Monitor.step s = t)
    (enough : blockBytes.toNat + chains.length + 7 ≤ later.countP isThread) :
    t.system.thread = .returned ∧ t.system.blocks.length ≤ s.system.blocks.length + 1 ∧
      (closing.foldl Monitor.step t).emitted = t.emitted ∧
      (chains.length + 5 ≤ closing.countP isMain → (closing.foldl Monitor.step t).main = .stopping) := by
  obtain ⟨k, -, positive, initial⟩ := started_inv created large chains.length
  have ending : Ending k s.system := by
    refine ⟨?_, signalled⟩
    rw [← reached, run_system]
    exact initial.run positive (systemTurns before)
  have sizes : Sizes chains.length s := by
    rw [← reached]
    exact run_keeps (fun s turn held => held.step turn) (start_sizes r chains) before
  have keeps : ∀ (s : Monitor F D) turn, Ending k s.system → Ending k (s.step turn).system := by
    intro s turn held
    cases turn with
    | main =>
      rw [Monitor.step, (mainStep_frame s).1]
      exact held
    | system turn => exact held.step positive turn
  have falls : ∀ (s : Monitor F D) turn, Ending k s.system →
      threadLeft (s.step turn).system ≤ threadLeft s.system - (isThread turn).toNat ∧
        blocksDue (s.step turn).system ≤ blocksDue s.system := by
    intro s turn held
    cases turn with
    | main =>
      rw [Monitor.step, (mainStep_frame s).1]
      exact ⟨Nat.le_refl _, Nat.le_refl _⟩
    | system turn => cases turn <;> exact held.step_falls _
  have left : threadLeft s.system ≤ later.countP isThread := by
    have most := threadLeft_le ending
    rw [sizes.2] at most
    omega
  have done : threadLeft t.system = 0 := by
    rw [← ran]
    exact run_done (fun s => threadLeft s.system) keeps (fun s turn held => (falls s turn held).1) ending left
  have due : blocksDue t.system ≤ blocksDue s.system := by
    rw [← ran]
    exact run_not_raised (fun s => blocksDue s.system) keeps (fun s turn held => (falls s turn held).2)
      ending later
  have here : t.system.thread = .returned := by
    cases at_ : t.system.thread <;> simp [threadLeft, at_] at done ⊢
  have read : t.system.blocks.length ≤ s.system.blocks.length + 1 := by
    simp only [blocksDue, here] at due
    refine due.trans ?_
    split <;> omega
  have ended : Ending k t.system := ran ▸ run_keeps keeps ending later
  have quiet : Returned t.emitted t := ⟨here, ended.signalled, rfl⟩
  have sizes' : Sizes chains.length t := by
    rw [← ran]
    exact run_keeps (fun s turn held => held.step turn) sizes later
  obtain ⟨lines, closes⟩ := quiet.closes closing
  exact ⟨here, read, lines, fun turns => closes (sizes'.1 ▸ turns)⟩

end Program

/-- Interrupted at once, with one channel. -/
theorem shuts_down_interrupted :
    ((List.replicate 6 Turn.main).foldl Monitor.step
      ((List.replicate 4104 (Turn.system .channelizer)).foldl Monitor.step
        ([Turn.system .signal].foldl Monitor.step
          (start Channelizer.blockRing [DemodChain.newChain] : Monitor Float32 ℚ)))).main =
      .stopping := by
  have turns : blockBytes.toNat + [DemodChain.newChain].length + 7 ≤
      (List.replicate 4104 (Turn.system .channelizer)).countP isThread := by
    rw [List.countP_replicate]
    decide
  have closing : [DemodChain.newChain].length + 5 ≤ (List.replicate 6 Turn.main).countP isMain := by decide
  exact (shuts_down Channelizer.blockRing_created (by decide) [DemodChain.newChain] [.system .signal] _ _ rfl rfl rfl
    turns).2.2.2 closing

end DmrWatchkeeper.MonitorShutdown
