import DmrWatchkeeper.MonitorEvents

/-! What the overrun counter says. It is advanced when `write` compares its
length, before the bytes are copied, so that a delivery in progress may already
be counted; apart from that it is the number of deliveries that were cut. -/
namespace DmrWatchkeeper.CaptureAccounting
open RingBuffer RingBufferThreads Channelizer CaptureAlignment FreeRunning
open Monitor MonitorEvents
open RingBufferCopies (bytes)

/-- The completed deliveries of which the ring kept less than was delivered. -/
def cutDeliveries (s : Channelizer.State) : ℕ :=
  (s.kept.zip s.deliveries).countP fun e => e.1.length < e.2.length

/-- Whether the delivery in progress is going to be cut. -/
def cutNow (s : Channelizer.State) : ℕ :=
  match s.threads.producer with
  | .copying _ _ n _ => if n.toNat < 2 * s.current.2 then 1 else 0
  | _ => 0

/-- The counter is exact, up to wrapping. -/
def Accounted (s : Channelizer.State) : Prop :=
  Counts s.threads.ring.overruns (cutDeliveries s + cutNow s)

variable {k : ℕ} {s : Channelizer.State}

/-- Comparing the length: the counter moves just when less goes on. -/
theorem countOverrun_counts {r : RingBuffer} {n : ℕ} (counts : Counts r.overruns n)
    (head tail len : UInt64) : Counts (r.countOverrun head tail len)
      (n + if (r.writeLen head tail len).toNat < len.toNat then 1 else 0) := by
  by_cases excess : len > r.capacity - (head - tail)
  · have less : (r.capacity - (head - tail)).toNat < len.toNat := UInt64.lt_iff_toNat_lt.mp excess
    rw [countOverrun, if_pos excess, writeLen, if_pos excess, if_pos less]
    exact counts.succ
  · rw [countOverrun, if_neg excess, writeLen, if_neg excess, if_neg (Nat.lt_irrefl _)]
    exact counts

theorem countP_snoc {α : Type} {kept deliveries : List (List α)} (same : kept.length = deliveries.length)
    (accepted delivered : List α) :
    ((kept ++ [accepted]).zip (deliveries ++ [delivered])).countP (fun e => e.1.length < e.2.length) =
      (kept.zip deliveries).countP (fun e => e.1.length < e.2.length) +
        if accepted.length < delivered.length then 1 else 0 := by
  rw [List.zip_append same, List.countP_append, List.zip_cons_cons, List.zip_nil_right,
    List.countP_singleton]
  simp only [decide_eq_true_eq]

/-- A step of `on_samples`. -/
theorem Accounted.capture (held : Accounted s) (captures : Captures s)
    (pairs : ℕ → UInt8 × UInt8) (count : Fin (2 ^ 31)) : Accounted (captureStep s pairs count) := by
  obtain ⟨delivers, -, cut⟩ := captures
  have same := cut.length_eq
  obtain ⟨⟨ring, producer, consumer, accepted, returned⟩, running, thread, block, chains, current,
    deliveries, kept, reads, blocks⟩ := s
  simp only [Accounted, cutDeliveries, cutNow] at held delivers same
  cases producer with
  | idle => exact held
  | loadedHead data len head =>
    obtain ⟨-, pairCount⟩ := delivers
    have counted := countOverrun_counts held head ring.tail len
    by_cases none : ring.writeLen head ring.tail len = 0
    · simp only [Accounted, cutDeliveries, cutNow, captureStep, RingBufferThreads.step, produce, if_pos none]
      have cutNone : (ring.writeLen head ring.tail len).toNat < len.toNat ↔ 0 < current.2 := by
        rw [none, pairCount]
        exact Nat.mul_pos_iff_of_pos_left (by decide)
      rw [countP_snoc same]
      simpa only [Option.getD_some, List.length_nil, Nat.zero_div, List.range_zero, List.map_nil,
        List.length_map, List.length_range, Nat.add_zero, cutNone] using counted
    · simp only [Accounted, cutDeliveries, cutNow, captureStep, RingBufferThreads.step, produce, if_neg none]
      rw [← pairCount]
      exact counted
  | copying data head n rest =>
    obtain ⟨-, even, within⟩ := delivers
    cases rest with
    | nil =>
      simp only [Accounted, cutDeliveries, cutNow, captureStep, RingBufferThreads.step, produce]
      have cutHere : n.toNat / 2 < current.2 ↔ n.toNat < 2 * current.2 := by omega
      rw [countP_snoc same]
      simpa only [Option.getD_some, RingBufferCopies.length_bytes, List.length_map, List.length_range,
        Nat.add_zero, cutHere] using held
    | cons move rest => exact held

/-- The thread takes bytes out and counts nothing. -/
theorem Accounted.thread (held : Accounted s) : Accounted (threadStep s) := by
  obtain ⟨current, kept, deliveries⟩ := threadStep_frame s
  have sides : (threadStep s).threads.producer = s.threads.producer ∧
      (threadStep s).threads.ring.overruns = s.threads.ring.overruns := by
    rcases threadStep_threads s with same | stepped
    · rw [same]
      exact ⟨rfl, rfl⟩
    · rw [stepped]
      refine ⟨rfl, ?_⟩
      simp only [RingBufferThreads.step]
      rw [consume.eq_def]
      split
      · rfl
      · dsimp only
        split <;> rfl
      · rfl
      · rfl
  rw [Accounted, cutDeliveries, cutNow, current, kept, deliveries, sides.1, sides.2]
  exact held

theorem Accounted.step (held : Accounted s) (inv : CaptureAlignment.Inv k s) (turn : Channelizer.Turn) :
    Accounted (Channelizer.step s turn) := by
  cases turn with
  | capture pairs count => exact held.capture inv.captures pairs count
  | channelizer => exact held.thread
  | signal => exact held

theorem Accounted.run (held : Accounted s) (inv : CaptureAlignment.Inv k s) (large : 1 ≤ k)
    (turns : List Channelizer.Turn) : Accounted (turns.foldl Channelizer.step s) := by
  induction turns generalizing s with
  | nil => exact held
  | cons turn turns ih => exact ih (held.step inv turn) (inv.step large turn)

/-- With nothing cut, everything delivered is kept. -/
theorem kept_of_uncut {α : Type} {kept deliveries : List (List α)}
    (cut : List.Forall₂ (· <+: ·) kept deliveries)
    (uncut : (kept.zip deliveries).countP (fun e => e.1.length < e.2.length) = 0) : kept = deliveries := by
  induction cut with
  | nil => rfl
  | @cons accepted delivered kept deliveries front rest ih =>
    rw [List.zip_cons_cons, List.countP_cons] at uncut
    have whole : ¬ accepted.length < delivered.length := by
      intro less
      rw [decide_eq_true less, if_pos rfl] at uncut
      omega
    rw [front.eq_of_length_le (not_lt.mp whole), ih (by omega)]

section Program
variable {F D : Type} [OfScientific F] [Add F] [Sub F] [Mul F] [Div F] [IntCast F] [LT F] [LE F]
  [DecidableLT F] [DecidableLE F] [CastToInt F] [FloatLib F]
  [IntCast D] [Mul D] [Div D] [Neg D] [LT D] [DecidableLT D] [BEq D]

/-- In every order of the threads, the overrun counter is the number of
deliveries that were cut, with the one in progress; and as long as it reads
zero, with fewer than `2 ^ 64` deliveries, each channel has emitted what its
chain emits for the front of what the device delivered, nothing left out. -/
theorem overruns_exact {allocate : RingBuffer.Allocator} {c : UInt64} {r : RingBuffer} (created : RingBuffer.create allocate c = .ok r)
    (large : blockBytes.toNat ≤ c.toNat) (chains : List (DemodChain F))
    (distinct : (chains.map (·.cfg.label)).Nodup) (turns : List Monitor.Turn) {s : Monitor F D}
    (reached : turns.foldl Monitor.step (start r chains) = s) :
    s.system.threads.ring.overruns = UInt64.ofNat (cutDeliveries s.system + cutNow s.system) ∧
      (s.system.threads.ring.overruns = 0 → s.system.deliveries.length + 1 < 2 ^ 64 →
        s.system.kept = s.system.deliveries ∧
        ∀ (i : ℕ) (chain : DemodChain F), chains[i]? = some chain → ∃ pairs,
          pairs <+: s.system.deliveries.flatten ∧ blockPairs ∣ pairs.length ∧
          2 * (s.system.deliveries.flatten.length - pairs.length) ≤ c.toNat + blockBytes.toNat ∧
          s.emitted.filter (eventChannel · = chain.cfg.label) = directEvents chain pairs) := by
  obtain ⟨tracks, k, power, inv⟩ := reached_inv created large distinct reached
  have counted : Accounted s.system := by
    rw [← reached, run_system]
    obtain ⟨k, -, positive, initial⟩ := started_inv created large chains.length
    obtain ⟨-, -, -, rfl⟩ := RingBufferCopies.create_sized created
    have fresh : Accounted (start ⟨c, c - 1, fun _ => 0, 0, 0, 0⟩ chains : Monitor F D).system :=
      counts_zero
    exact fresh.run initial positive (systemTurns turns)
  have exact_ := counts_iff.mp counted
  refine ⟨exact_, fun quiet fewer => ?_⟩
  have none : cutDeliveries s.system = 0 := by
    have short : cutDeliveries s.system ≤ s.system.deliveries.length := by
      refine List.countP_le_length.trans ?_
      rw [List.length_zip]
      exact Nat.min_le_right ..
    have most : cutNow s.system ≤ 1 := by
      rw [cutNow]
      split
      · split <;> omega
      · omega
    have zero : (0 : UInt64).toNat = (cutDeliveries s.system + cutNow s.system) % 2 ^ 64 := by
      rw [← quiet]
      exact counted
    rw [Nat.mod_eq_of_lt (by omega)] at zero
    have start : (0 : UInt64).toNat = 0 := rfl
    omega
  have whole := kept_of_uncut inv.captures.cut none
  refine ⟨whole, fun i chain listed => ?_⟩
  obtain ⟨pairs, front, blocks, recent, events, -⟩ := tracks.direct inv listed
  rw [whole] at front recent
  exact ⟨pairs, front, blocks, power ▸ recent, events⟩

end Program

/-- A block is delivered, kept and handed on, and the counter reads zero. -/
theorem overruns_exact_one_block : ∃ s : Monitor Float32 ℚ,
    (firstTurns 1).foldl Monitor.step (start blockRing [DemodChain.newChain]) = s ∧
    s.system.threads.ring.overruns = 0 ∧ s.system.kept = s.system.deliveries ∧
    s.system.deliveries = [(List.range blockPairs).map ramp] ∧
    ∃ pairs, pairs <+: (List.range blockPairs).map ramp ∧
      s.emitted.filter (eventChannel · = "446.106") = directEvents DemodChain.newChain pairs := by
  have turns := firstTurns_system (D := ℚ) [DemodChain.newChain]
  rw [List.length_singleton] at turns
  obtain ⟨deliveries, -, -, zero⟩ := turns
  have few : [(List.range blockPairs).map ramp].length + 1 < 2 ^ 64 := by
    rw [List.length_singleton]
    decide
  rw [← deliveries] at few
  obtain ⟨whole, refines⟩ := (overruns_exact (D := ℚ) blockRing_created (by decide) [DemodChain.newChain]
    (List.nodup_singleton _) (firstTurns 1) rfl).2 zero few
  obtain ⟨pairs, front, -, -, events⟩ := refines 0 DemodChain.newChain rfl
  rw [deliveries, List.flatten_singleton] at front
  exact ⟨_, rfl, zero, whole, deliveries, pairs, front, events⟩

end DmrWatchkeeper.CaptureAccounting
