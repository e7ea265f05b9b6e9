import DmrWatchkeeper.Channelizer

/-! Parties that are left alone: a whole delivery, a whole block with its way
through the chains. The turns of a round are these in sequence. -/
namespace DmrWatchkeeper.Channelizer
open RingBuffer RingBufferCopies RingBufferThreads PairedStream

variable {s : State} {pairs : ℕ → UInt8 × UInt8} {count : Fin (2 ^ 31)}

/-- The state that a delivery leaves. -/
def State.deliver (s : State) (pairs : ℕ → UInt8 × UInt8) (count : ℕ) : State :=
  let written := s.threads.ring.write (components pairs) (UInt64.ofNat (2 * count))
  { s with
    threads := { s.threads with
      ring := written.1
      accepted := s.threads.accepted ++ bytes (components pairs) written.2.toNat }
    current := (pairs, count)
    deliveries := s.deliveries ++ [(List.range count).map pairs]
    kept := s.kept ++ [(List.range (written.2.toNat / 2)).map pairs] }

/-- The state that the read of a block leaves. -/
def State.takeBlock (s : State) : State :=
  let taken := s.threads.ring.read s.block blockBytes
  { s with
    threads := { s.threads with
      ring := taken.1
      returned := s.threads.returned ++ bytes taken.2.1 taken.2.2.toNat }
    block := taken.2.1
    reads := s.reads ++ [taken.2.2]
    blocks := s.blocks ++ [bytes taken.2.1 blockBytes.toNat]
    thread := .handing 0 }

/-- The rest of a copy, and the store behind it. -/
theorem capture_copies {data : ℕ → UInt8} {head n : UInt64} {rest : List (ℕ × ℕ)}
    (copying : s.threads.producer = .copying data head n rest) :
    (List.replicate (rest.length + 1) (Turn.capture pairs count)).foldl step s =
      { s with
        threads := { s.threads with
          ring := { s.threads.ring with buf := copyIn data s.threads.ring.buf rest, head := head + n }
          producer := .idle
          accepted := s.threads.accepted ++ bytes data n.toNat }
        deliveries := s.deliveries ++ [(List.range s.current.2).map s.current.1]
        kept := s.kept ++ [(List.range (n.toNat / 2)).map s.current.1] } := by
  induction rest generalizing s with
  | nil =>
    simp only [List.length_nil, List.replicate_succ, List.replicate_zero, List.foldl_cons, List.foldl_nil, step,
      captureStep, copying, produce, RingBufferThreads.step, length_bytes, Option.getD_some]
    rfl
  | cons move rest ih =>
    obtain ⟨cell, i⟩ := move
    rw [List.length_cons, List.replicate_succ, List.foldl_cons, ih]
    · simp only [step, captureStep, copying, produce, RingBufferThreads.step, Option.getD_none, List.append_nil]
      rfl
    · simp only [step, captureStep, copying, produce, RingBufferThreads.step]

/-- A whole delivery of which something is accepted. -/
theorem delivery_run (pairs : ℕ → UInt8 × UInt8) (count : Fin (2 ^ 31)) (idle : s.threads.producer = .idle)
    {n : UInt64}
    (accepts : s.threads.ring.writeLen s.threads.ring.head s.threads.ring.tail (UInt64.ofNat (2 * count)) = n)
    (some_ : n ≠ 0) :
    (List.replicate ((s.threads.ring.moves s.threads.ring.head n).length + 3)
      (Turn.capture pairs count)).foldl step s = s.deliver pairs count := by
  have loaded : step (step s (.capture pairs count)) (.capture pairs count) = { s with
      threads := { s.threads with
        ring := { s.threads.ring with
          overruns := s.threads.ring.countOverrun s.threads.ring.head s.threads.ring.tail
            (UInt64.ofNat (2 * count)) }
        producer := .copying (components pairs) s.threads.ring.head n (s.threads.ring.moves s.threads.ring.head n) }
      current := (pairs, count) } := by
    simp only [step, captureStep, idle, produce, RingBufferThreads.step, accepts, if_neg some_, Option.getD_none,
      List.append_nil]
  rw [List.replicate_succ, List.replicate_succ, List.foldl_cons, List.foldl_cons, loaded, capture_copies rfl]
  simp only [State.deliver, write_eq, accepts, idle]

/-- The rest of the copy of a block, and the store behind it. -/
theorem thread_copies {dest : ℕ → UInt8} {tail : UInt64} {rest : List (ℕ × ℕ)} (reading : s.thread = .reading)
    (copying : s.threads.consumer = .copying dest tail blockBytes rest) :
    (List.replicate (rest.length + 1) Turn.channelizer).foldl step s =
      { s with
        threads := { s.threads with
          ring := { s.threads.ring with tail := tail + blockBytes }
          consumer := .idle
          returned := s.threads.returned ++ bytes (copyOut s.threads.ring.buf dest rest) blockBytes.toNat }
        block := copyOut s.threads.ring.buf dest rest
        reads := s.reads ++ [blockBytes]
        blocks := s.blocks ++ [bytes (copyOut s.threads.ring.buf dest rest) blockBytes.toNat]
        thread := .handing 0 } := by
  have whole : ¬ blockBytes < blockBytes := by decide
  induction rest generalizing s dest with
  | nil =>
    simp only [List.length_nil, List.replicate_succ, List.replicate_zero, List.foldl_cons, List.foldl_nil, step,
      threadStep, reading, copying, consume, RingBufferThreads.step, if_neg whole, givenBytes_some]
    rfl
  | cons move rest ih =>
    obtain ⟨cell, i⟩ := move
    have copied : step s .channelizer = { s with threads := { s.threads with
        consumer := .copying (Function.update dest i (s.threads.ring.buf cell)) tail blockBytes rest } } := by
      simp only [step, threadStep, reading, copying, consume, RingBufferThreads.step, givenBytes_none,
        List.append_nil]
    rw [List.length_cons, List.replicate_succ, List.foldl_cons, ih (by rw [copied]; exact reading) (by rw [copied]),
      copied]
    rfl

/-- From the top of its loop, the thread polls and reads a block. -/
theorem block_run (outer : s.thread = .outer) (running : s.running = true) (idle : s.threads.consumer = .idle)
    (there : ¬ s.threads.ring.head - s.threads.ring.tail < blockBytes) :
    (List.replicate ((s.threads.ring.moves s.threads.ring.tail blockBytes).length + 6) Turn.channelizer).foldl
      step s = s.takeBlock := by
  have length : readLen s.threads.ring.head s.threads.ring.tail blockBytes = blockBytes := by
    rw [readLen]
    simp only [gt_iff_lt]
    split
    · rename_i few
      exact absurd few there
    · rfl
  have some_ : ¬ blockBytes = 0 := by decide
  have polled : step (step (step s .channelizer) .channelizer) .channelizer = { s with thread := .reading } := by
    simp only [step, threadStep, outer, running, if_true, if_neg there]
  have loaded : step (step { s with thread := .reading } .channelizer) .channelizer = { s with
      thread := .reading
      threads := { s.threads with
        consumer := .copying s.block s.threads.ring.tail blockBytes
          (s.threads.ring.moves s.threads.ring.tail blockBytes) } } := by
    simp only [step, threadStep, idle, consume, RingBufferThreads.step, length, if_neg some_, givenBytes_none,
      List.append_nil]
  rw [List.replicate_succ, List.replicate_succ, List.replicate_succ, List.replicate_succ, List.replicate_succ,
    List.foldl_cons, List.foldl_cons, List.foldl_cons, List.foldl_cons, List.foldl_cons, polled, loaded,
    thread_copies rfl rfl]
  simp only [State.takeBlock, read_eq, length, idle]

/-- The block goes to the chains that do not have it yet, and the thread back to
the top. -/
theorem hand_run {left : ℕ} {earlier : List (List (List UInt8))} {inbox : List (List UInt8)}
    (handing : s.thread = .handing earlier.length) (given : s.chains = earlier ++ List.replicate left inbox) :
    (List.replicate (left + 1) Turn.channelizer).foldl step s =
      { s with
        chains := earlier ++ List.replicate left (inbox ++ [bytes s.block (2 * blockPairs)])
        thread := .outer } := by
  induction left generalizing s earlier with
  | zero =>
    rw [List.replicate_zero, List.append_nil] at given
    simp only [List.replicate_succ, List.replicate_zero, List.foldl_cons, List.foldl_nil, step, threadStep, handing,
      given, if_neg (Nat.lt_irrefl _), List.append_nil]
  | succ left ih =>
    have more : earlier.length < s.chains.length := by simp [given]
    have handed : step s .channelizer = { s with
        chains := (earlier ++ [inbox ++ [bytes s.block (2 * blockPairs)]]) ++ List.replicate left inbox
        thread := .handing (earlier.length + 1) } := by
      have modified : s.chains.modify earlier.length (· ++ [bytes s.block (2 * blockPairs)]) =
          (earlier ++ [inbox ++ [bytes s.block (2 * blockPairs)]]) ++ List.replicate left inbox := by
        rw [given, List.replicate_succ, List.modify_eq_take_cons_drop (by simp)]
        simp [List.drop_append]
      simp only [step, threadStep, handing, if_pos more, modified]
    have next : (step s .channelizer).thread =
        .handing (earlier ++ [inbox ++ [bytes s.block (2 * blockPairs)]]).length := by
      rw [handed, List.length_append]
      rfl
    rw [List.replicate_succ, List.foldl_cons, ih next (by rw [handed]), handed]
    simp [List.replicate_succ]

/-! ### A round on an empty ring of one block -/

def blockRing : RingBuffer := ⟨4096, 4095, fun _ => 0, 0, 0, 0⟩

theorem blockRing_created : create .unlimited 4096 = .ok blockRing := rfl

theorem blockRing_sized : Sized blockRing 12 := ⟨rfl, rfl⟩

/-- A delivery that fills the ring, and the way of the block to the chains. -/
def round (pairs : ℕ → UInt8 × UInt8) (count : Fin (2 ^ 31)) (chainCount : ℕ) : List Turn :=
  List.replicate 4099 (.capture pairs count) ++ List.replicate 4102 .channelizer ++
    List.replicate (chainCount + 1) .channelizer

theorem blockRing_moves : blockRing.moves 0 blockBytes = (List.range 4096).map fun j => ((0 + j) % 2 ^ 12, j) :=
  moves_eq blockRing_sized FreeRunning.counts_zero (le_refl 4096)

/-- What is read back of a full ring. -/
theorem read_written (data dest : ℕ → UInt8) :
    bytes (copyOut (copyIn data blockRing.buf (blockRing.moves 0 blockBytes)) dest (blockRing.moves 0 blockBytes))
      blockBytes.toNat = bytes data blockBytes.toNat := by
  have stored : StreamWindow.Holds (copyIn data blockRing.buf (blockRing.moves 0 blockBytes)) (2 ^ 12)
      (fun i => data i.toNat) (0 : ℕ) (0 + 4096 : ℕ) := by
    rw [blockRing_moves]
    exact copyIn_holds 4096 (fun i above below => absurd below (not_lt.mpr above)) le_rfl (le_refl 4096)
      fun j _ => by simp
  refine List.ext_getElem (by rw [length_bytes, length_bytes]) fun i bound _ => ?_
  rw [length_bytes] at bound
  rw [getElem_bytes, getElem_bytes]
  conv_lhs => rw [blockRing_moves]
  rw [blockRing_moves] at stored
  rw [copyOut_apply 4096 stored (by omega), if_pos (show i < 4096 from bound)]
  simp

theorem moves_congr {r r' : RingBuffer} (capacity : r.capacity = r'.capacity) (mask : r.mask = r'.mask)
    (index len : UInt64) : r.moves index len = r'.moves index len := by
  simp only [moves, chunks, capacity, mask]

/-- What the ring is when a delivery of at least a block has filled it. -/
theorem write_fills (data : ℕ → UInt8) {len : UInt64} (fills : 4096 ≤ len.toNat) : blockRing.write data len =
    ({ blockRing with
      overruns := blockRing.countOverrun 0 0 len
      buf := copyIn data blockRing.buf (blockRing.moves 0 blockBytes)
      head := blockBytes }, blockBytes) := by
  have accepts : blockRing.writeLen blockRing.head blockRing.tail len = blockBytes := by
    apply UInt64.toNat_inj.mp
    have head : FreeRunning.Counts blockRing.head 0 := rfl
    have tail : FreeRunning.Counts blockRing.tail 0 := rfl
    rw [writeLen_toNat _ blockRing_sized head tail le_rfl (Nat.zero_le _), show blockBytes.toNat = 4096 from rfl]
    omega
  rw [write_eq, accepts]
  rfl

theorem round_run (pairs : ℕ → UInt8 × UInt8) (count : Fin (2 ^ 31)) (fills : blockPairs ≤ count) (chainCount : ℕ) :
    ∃ s, (round pairs count chainCount).foldl step
        { threads := { ring := blockRing }, chains := List.replicate chainCount [] } = s ∧
      s.deliveries = [(List.range count).map pairs] ∧ s.kept = [(List.range blockPairs).map pairs] ∧
      s.reads = [blockBytes] ∧ s.blocks = [interleave ((List.range blockPairs).map pairs)] ∧
      s.chains = List.replicate chainCount s.blocks ∧
      s.threads.ring.overruns = blockRing.countOverrun 0 0 (UInt64.ofNat (2 * count)) ∧ s.running = true := by
  have size : blockBytes.toNat = 2 * blockPairs := rfl
  have half : blockBytes.toNat / 2 = blockPairs := rfl
  have offered : 4096 ≤ (UInt64.ofNat (2 * count)).toNat := by
    have unit : blockPairs = 2048 := rfl
    have bound := count.isLt
    rw [UInt64.toNat_ofNat_of_lt' (show 2 * (count : ℕ) < 2 ^ 64 by omega)]
    omega
  have written := write_fills (components pairs) offered
  have given := read_written (components pairs) fun _ => 0
  have moved : (blockRing.moves 0 blockBytes).length = 4096 := by
    rw [blockRing_moves, List.length_map, List.length_range]
  let start : State := { threads := { ring := blockRing }, chains := List.replicate chainCount [] }
  have delivered : (List.replicate ((blockRing.moves 0 blockBytes).length + 3) (Turn.capture pairs count)).foldl step start =
      start.deliver pairs count :=
    delivery_run pairs count rfl (congrArg Prod.snd (write_eq .. ▸ written)) (by decide)
  have filled : start.deliver pairs count = { start with
      threads := {
        ring := { blockRing with
          overruns := blockRing.countOverrun 0 0 (UInt64.ofNat (2 * count))
          buf := copyIn (components pairs) blockRing.buf (blockRing.moves 0 blockBytes)
          head := blockBytes }
        accepted := bytes (components pairs) blockBytes.toNat }
      current := (pairs, count)
      deliveries := [(List.range count).map pairs]
      kept := [(List.range blockPairs).map pairs] } := by
    simp only [State.deliver, start, written, half, List.nil_append]
  have taken := block_run (s := start.deliver pairs count) (by rw [filled]) (by rw [filled]) (by rw [filled])
    (by rw [filled]; exact (by decide : ¬ blockBytes - 0 < blockBytes))
  generalize start.deliver pairs count = s at *
  have moves : s.threads.ring.moves 0 blockBytes = blockRing.moves 0 blockBytes :=
    moves_congr (by rw [filled]) (by rw [filled]) 0 blockBytes
  have head : s.threads.ring.head = blockBytes := by rw [filled]
  have tail : s.threads.ring.tail = 0 := by
    rw [filled]
    rfl
  have buf : s.threads.ring.buf = copyIn (components pairs) blockRing.buf (blockRing.moves 0 blockBytes) := by
    rw [filled]
  have block : s.block = fun _ => 0 := by rw [filled]
  have length : readLen blockBytes 0 blockBytes = blockBytes := by decide
  have copied : s.takeBlock = { s with
      threads := { s.threads with
        ring := { s.threads.ring with tail := blockBytes }
        returned := s.threads.returned ++ bytes (components pairs) blockBytes.toNat }
      block := copyOut s.threads.ring.buf s.block (blockRing.moves 0 blockBytes)
      reads := s.reads ++ [blockBytes]
      blocks := s.blocks ++ [bytes (components pairs) blockBytes.toNat]
      thread := .handing 0 } := by
    simp only [State.takeBlock, read_eq, head, tail, length, moves, buf, block, given, UInt64.zero_add]
  rw [tail, moves] at taken
  have inboxes : s.takeBlock.chains = [] ++ List.replicate chainCount [] := by
    rw [copied, filled]
    rfl
  have handed := hand_run (s := s.takeBlock) (by rw [copied]; rfl) inboxes
  have latest : bytes s.takeBlock.block (2 * blockPairs) = interleave ((List.range blockPairs).map pairs) := by
    rw [copied, ← range_components, ← bytes]
    simp only [buf, block]
    exact given
  have whole : bytes (components pairs) blockBytes.toNat = interleave ((List.range blockPairs).map pairs) := by
    rw [size, ← range_components, bytes]
  rw [moved] at delivered taken
  refine ⟨_, rfl, ?_⟩
  rw [round, List.foldl_append, List.foldl_append, delivered, taken, handed, latest, copied, whole, filled]
  exact ⟨rfl, rfl, rfl, rfl, rfl, rfl, rfl⟩

end DmrWatchkeeper.Channelizer
