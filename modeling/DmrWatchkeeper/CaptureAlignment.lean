import DmrWatchkeeper.ChannelizerRounds
import DmrWatchkeeper.RingBufferSafety
import Mathlib.Data.List.Forall2

/-! Alignment of samples between capture and demodulation. Truncation at a
full ring always cuts between pairs, since both byte counts stay even; and the
bytes that `available` reports cannot go away before they are read. -/
namespace DmrWatchkeeper.CaptureAlignment
open RingBuffer RingBufferCopies RingBufferThreads Channelizer FreeRunning PairedStream
open RingBufferSafety (Indexed inv_start)

/-- What a delivery in progress still knows of its pairs. -/
def Delivers (current : (ℕ → UInt8 × UInt8) × ℕ) : Producer → Prop
  | .idle => True
  | .loadedHead data len _ => data = components current.1 ∧ len.toNat = 2 * current.2
  | .copying data _ n _ =>
    data = components current.1 ∧ n.toNat % 2 = 0 ∧ n.toNat ≤ 2 * current.2

/-- The accepted bytes are whole pairs, from the front of each delivery. -/
structure Captures (s : Channelizer.State) : Prop where
  delivers : Delivers s.current s.threads.producer
  whole : s.threads.accepted = interleave s.kept.flatten
  cut : List.Forall₂ (· <+: ·) s.kept s.deliveries

/-- Inside `read`, the block is there. -/
def BlockRead (accepted returned : ℕ) : Consumer → Prop
  | .idle => returned + blockBytes.toNat ≤ accepted
  | .loadedTail _ len _ => len = blockBytes ∧ returned + blockBytes.toNat ≤ accepted
  | .copying _ _ n _ => n = blockBytes

/-- What the thread knows of the ring at each point of its loop. -/
def Snapshot (t : RingBufferThreads.State) : Thread → Prop
  | .polled head => t.consumer = .idle ∧
    ∃ H, Counts head H ∧ t.returned.length ≤ H ∧ H ≤ t.accepted.length
  | .reading => BlockRead t.accepted.length t.returned.length t.consumer
  | _ => t.consumer = .idle

/-- The chains before position `next` have the latest block, the others not yet. -/
def Handed (block : ℕ → UInt8) (blocks : List (List UInt8)) (chains : List (List (List UInt8))) :
    Thread → Prop
  | .handing next => ∃ earlier, blocks = earlier ++ [bytes block blockBytes.toNat] ∧
    ∀ i (bound : i < chains.length), chains[i] = if i < next then blocks else earlier
  | _ => ∀ inbox ∈ chains, inbox = blocks

/-- The read bytes are whole blocks, and every chain gets each of them. -/
structure Blocks (s : Channelizer.State) : Prop where
  snapshot : Snapshot s.threads s.thread
  full : ∀ got ∈ s.reads, got = blockBytes
  uniform : ∀ b ∈ s.blocks, b.length = blockBytes.toNat
  taken : s.threads.returned = s.blocks.flatten
  handed : Handed s.block s.blocks s.chains s.thread

/-- The invariant of every interleaving. -/
structure Inv (k : ℕ) (s : Channelizer.State) : Prop where
  threads : RingBufferSafety.Inv k s.threads
  captures : Captures s
  blocks : Blocks s

/-- What alignment means for the chains: only full blocks, consecutive and the
same for all, each byte in the place of its component, nothing cut in two. -/
structure Aligned (s : Channelizer.State) : Prop where
  full_reads : ∀ got ∈ s.reads, got = blockBytes
  even_indices : s.threads.ring.head.toNat % 2 = 0 ∧ s.threads.ring.tail.toNat % 2 = 0
  uniform : ∀ b ∈ s.blocks, b.length = blockBytes.toNat
  consecutive : s.blocks.flatten = s.threads.returned ∧ s.threads.returned <+: s.threads.accepted
  same_blocks : ∀ inbox ∈ s.chains, inbox = s.blocks ∨
    (∃ next, s.thread = .handing next) ∧ inbox = s.blocks.dropLast
  cut : List.Forall₂ (· <+: ·) s.kept s.deliveries
  pairs : ∀ n block, s.blocks[n]? = some block → ∀ j < blockPairs,
    ∃ pair, s.kept.flatten[blockPairs * n + j]? = some pair ∧
      block[2 * j]? = some pair.1 ∧ block[2 * j + 1]? = some pair.2

variable {k : ℕ} {s : Channelizer.State}

theorem Captures.even (held : Captures s) : s.threads.accepted.length % 2 = 0 := by
  rw [held.whole, length_interleave]
  omega

theorem Blocks.even (held : Blocks s) : s.threads.returned.length % 2 = 0 := by
  rw [held.taken, length_flatten_uniform held.uniform, show blockBytes.toNat = 4096 from rfl]
  omega

/-- A whole number of pairs is published. -/
theorem bytes_components (pairs : ℕ → UInt8 × UInt8) {n : ℕ} (even : n % 2 = 0) :
    bytes (components pairs) n = interleave ((List.range (n / 2)).map pairs) := by
  rw [← range_components, show 2 * (n / 2) = n by omega, bytes]

theorem range_map_prefix {α : Type} (f : ℕ → α) {m n : ℕ} (short : m ≤ n) :
    (List.range m).map f <+: (List.range n).map f := by
  obtain ⟨d, rfl⟩ := Nat.exists_eq_add_of_le short
  rw [List.range_add, List.map_append]
  exact List.prefix_append ..

/-! ### The capture side -/

theorem Captures.capture (held : Captures s) (threads : RingBufferSafety.Inv k s.threads)
    (large : 1 ≤ k) (even : s.threads.returned.length % 2 = 0) (pairs : ℕ → UInt8 × UInt8)
    (count : Fin (2 ^ 31)) : Captures (captureStep s pairs count) := by
  have evenAccepted := held.even
  obtain ⟨delivers, whole, cut⟩ := held
  obtain ⟨indexed, produces, -⟩ := threads
  obtain ⟨⟨ring, producer, consumer, accepted, returned⟩, running, thread, block, chains, current,
    deliveries, kept, reads, blocks⟩ := s
  simp only at delivers whole cut indexed produces even evenAccepted
  cases producer with
  | idle =>
    have len : (UInt64.ofNat (2 * count)).toNat = 2 * count := by
      have bound := count.isLt
      exact UInt64.toNat_ofNat_of_lt' (show 2 * (count : ℕ) < 2 ^ 64 by omega)
    exact ⟨⟨rfl, len⟩, by simpa [captureStep, RingBufferThreads.step, produce] using whole, cut⟩
  | loadedHead data len head =>
    obtain ⟨rfl, pairCount⟩ := delivers
    obtain ⟨rfl, -⟩ := produces
    have short := writeLen_toNat len indexed.sized indexed.head indexed.tail indexed.order
      indexed.room
    have evenCapacity : 2 ^ k % 2 = 0 := by
      obtain ⟨j, rfl⟩ := Nat.exists_eq_add_of_le large
      rw [pow_add]
      omega
    have evenLength : (ring.writeLen ring.head ring.tail len).toNat % 2 = 0 := by omega
    have within : (ring.writeLen ring.head ring.tail len).toNat ≤ 2 * current.2 := by omega
    by_cases none : ring.writeLen ring.head ring.tail len = 0
    · simp only [captureStep, RingBufferThreads.step, produce, if_pos none, Option.getD_some]
      refine ⟨trivial, ?_, List.rel_append cut (.cons ?_ .nil)⟩
      · simpa using whole
      · exact range_map_prefix _ (Nat.zero_le _)
    · simp only [captureStep, RingBufferThreads.step, produce, if_neg none, Option.getD_none]
      exact ⟨⟨rfl, evenLength, within⟩, by simpa using whole, cut⟩
  | copying data head n rest =>
    obtain ⟨rfl, evenLength, within⟩ := delivers
    cases rest with
    | nil =>
      simp only [captureStep, RingBufferThreads.step, produce, Option.getD_some, length_bytes]
      refine ⟨trivial, ?_, List.rel_append cut (.cons ?_ .nil)⟩
      · simp only
        rw [List.flatten_append, List.flatten_singleton, interleave_append, ← whole,
          bytes_components _ evenLength]
      · exact range_map_prefix _ (by omega)
    | cons move rest =>
      exact ⟨⟨rfl, evenLength, within⟩,
        by simpa [captureStep, RingBufferThreads.step, produce] using whole, cut⟩

theorem captureStep_threads (s : Channelizer.State) (pairs : ℕ → UInt8 × UInt8) (count : ℕ) :
    (captureStep s pairs count).threads = RingBufferThreads.step s.threads
      (.producer (components pairs) (UInt64.ofNat (2 * count))) := by
  rw [captureStep]
  split <;> rfl

theorem captureStep_frame (s : Channelizer.State) (pairs : ℕ → UInt8 × UInt8) (count : ℕ) :
    (captureStep s pairs count).thread = s.thread ∧ (captureStep s pairs count).reads = s.reads ∧
      (captureStep s pairs count).blocks = s.blocks ∧
      (captureStep s pairs count).block = s.block ∧
      (captureStep s pairs count).chains = s.chains := by
  rw [captureStep]
  split <;> exact ⟨rfl, rfl, rfl, rfl, rfl⟩

/-- More bytes in the ring are no less than before. -/
theorem Snapshot.grows {t u : RingBufferThreads.State} {thread : Thread} (held : Snapshot t thread)
    (consumer : u.consumer = t.consumer) (returned : u.returned = t.returned)
    (more : t.accepted.length ≤ u.accepted.length) : Snapshot u thread := by
  cases thread with
  | polled head =>
    obtain ⟨idle, H, counts, above, below⟩ := held
    exact ⟨consumer.trans idle, H, counts, by rwa [returned], below.trans more⟩
  | reading =>
    rw [Snapshot, consumer, returned]
    rw [Snapshot] at held
    cases reads_at : t.consumer with
    | idle =>
      rw [reads_at] at held
      exact Nat.le_trans held more
    | loadedTail dest len tail =>
      rw [reads_at] at held
      exact ⟨held.1, held.2.trans more⟩
    | copying dest tail n rest =>
      rw [reads_at] at held
      exact held
  | _ => exact consumer.trans held

/-- A capture step leaves the thread and its blocks alone. -/
theorem Blocks.capture (held : Blocks s) (pairs : ℕ → UInt8 × UInt8) (count : ℕ) :
    Blocks (captureStep s pairs count) := by
  have threads := captureStep_threads s pairs count
  obtain ⟨thread, reads, blocks, block, chains⟩ := captureStep_frame s pairs count
  have consumer : (captureStep s pairs count).threads.consumer = s.threads.consumer := by
    rw [threads]
    rfl
  have returned : (captureStep s pairs count).threads.returned = s.threads.returned := by
    rw [threads]
    rfl
  have more : s.threads.accepted.length ≤ (captureStep s pairs count).threads.accepted.length := by
    rw [threads, RingBufferThreads.step, List.length_append]
    omega
  refine ⟨?_, by rw [reads]; exact held.full, by rw [blocks]; exact held.uniform,
    by rw [returned, blocks]; exact held.taken,
    by rw [thread, blocks, block, chains]; exact held.handed⟩
  rw [thread]
  exact held.snapshot.grows consumer returned more

/-! ### The thread -/

/-- The thread takes bytes out of the ring, if it touches the ring at all. -/
theorem threadStep_threads (s : Channelizer.State) : (threadStep s).threads = s.threads ∨
    (threadStep s).threads = RingBufferThreads.step s.threads (.consumer s.block blockBytes) := by
  rw [threadStep.eq_def]
  split
  · exact .inl rfl
  · exact .inl rfl
  · exact .inl rfl
  · exact .inl rfl
  · split
    · exact .inr rfl
    · split <;> exact .inr rfl
  · split <;> exact .inl rfl
  · exact .inl rfl

theorem threadStep_frame (s : Channelizer.State) : (threadStep s).current = s.current ∧
    (threadStep s).kept = s.kept ∧ (threadStep s).deliveries = s.deliveries := by
  rw [threadStep.eq_def]
  split
  · exact ⟨rfl, rfl, rfl⟩
  · exact ⟨rfl, rfl, rfl⟩
  · exact ⟨rfl, rfl, rfl⟩
  · exact ⟨rfl, rfl, rfl⟩
  · split
    · exact ⟨rfl, rfl, rfl⟩
    · split <;> exact ⟨rfl, rfl, rfl⟩
  · split <;> exact ⟨rfl, rfl, rfl⟩
  · exact ⟨rfl, rfl, rfl⟩

theorem Captures.thread (held : Captures s) : Captures (threadStep s) := by
  have producer : (threadStep s).threads.producer = s.threads.producer ∧
      (threadStep s).threads.accepted = s.threads.accepted := by
    rcases threadStep_threads s with same | stepped
    · exact ⟨by rw [same], by rw [same]⟩
    · exact ⟨by rw [stepped]; rfl, by rw [stepped]; rfl⟩
  obtain ⟨current, kept, deliveries⟩ := threadStep_frame s
  refine ⟨?_, ?_, ?_⟩
  · rw [current, producer.1]
    exact held.delivers
  · rw [producer.2, kept]
    exact held.whole
  · rw [kept, deliveries]
    exact held.cut

/-- A step inside `read`: the block is copied, and given in full. -/
theorem Blocks.read (held : Blocks s) (threads : RingBufferSafety.Inv k s.threads)
    (reading : s.thread = .reading) : Blocks (threadStep s) := by
  obtain ⟨snapshot, full, uniform, taken, handed⟩ := held
  obtain ⟨indexed, -, consumes⟩ := threads
  obtain ⟨⟨ring, producer, consumer, accepted, returned⟩, running, thread, block, chains, current,
    deliveries, kept, reads, blocks⟩ := s
  subst reading
  simp only at snapshot full uniform taken handed indexed consumes
  have order := indexed.order
  have room := indexed.room
  have wide := Nat.pow_lt_pow_right (show 1 < 2 by decide) indexed.sized.lt
  cases consumer with
  | idle =>
    refine ⟨⟨rfl, ?_⟩, full, uniform, ?_, handed⟩
    · simpa [threadStep, RingBufferThreads.step, consume, givenBytes, Snapshot, BlockRead] using snapshot
    · simpa [threadStep, RingBufferThreads.step, consume, givenBytes] using taken
  | loadedTail dest len tail =>
    obtain ⟨rfl, (there : returned.length + blockBytes.toNat ≤ accepted.length)⟩ := snapshot
    obtain rfl := consumes
    have length := readLen_toNat blockBytes indexed.head indexed.tail order (by omega)
    have whole : readLen ring.head ring.tail blockBytes = blockBytes := by
      apply UInt64.toNat_inj.mp
      rw [length]
      omega
    have some_bytes : ¬ blockBytes = 0 := by decide
    simp only [threadStep, RingBufferThreads.step, consume, whole, if_neg some_bytes]
    exact ⟨rfl, full, uniform, by simpa [givenBytes] using taken, handed⟩
  | copying dest tail n rest =>
    obtain rfl := snapshot
    cases rest with
    | nil =>
      have whole : ¬ blockBytes < blockBytes := by decide
      simp only [threadStep, RingBufferThreads.step, consume, if_neg whole]
      refine ⟨rfl, ?_, ?_, ?_, blocks, rfl, ?_⟩
      · intro got member
        rcases List.mem_append.mp member with before | now
        · exact full got before
        · exact List.mem_singleton.mp now
      · intro b member
        rcases List.mem_append.mp member with before | now
        · exact uniform b before
        · rw [List.mem_singleton.mp now, length_bytes]
      · simp only
        rw [List.flatten_append, List.flatten_singleton, taken, givenBytes_some]
      · intro i bound
        rw [if_neg (Nat.not_lt_zero i)]
        exact handed _ (List.getElem_mem bound)
    | cons move rest =>
      exact ⟨rfl, full, uniform,
        by simpa [threadStep, RingBufferThreads.step, consume, givenBytes] using taken, handed⟩

/-- A step of the loop over the chains: one more chain has the latest block. -/
theorem Blocks.hand (held : Blocks s) {next : ℕ} (handing : s.thread = .handing next) :
    Blocks (threadStep s) := by
  obtain ⟨snapshot, full, uniform, taken, handed⟩ := held
  obtain ⟨threads, running, thread, block, chains, current, deliveries, kept, reads, blocks⟩ := s
  subst handing
  simp only at snapshot full uniform taken handed
  obtain ⟨earlier, latest, given⟩ := handed
  simp only [threadStep]
  by_cases more : next < chains.length
  · rw [if_pos more]
    refine ⟨snapshot, full, uniform, taken, earlier, latest, fun i bound => ?_⟩
    have size : 2 * blockPairs = blockBytes.toNat := rfl
    simp only [List.length_modify] at bound
    simp only [List.getElem_modify, size]
    by_cases here : next = i
    · subst here
      rw [if_pos rfl, if_pos (by omega), given next bound, if_neg (by omega), ← latest]
    · rw [if_neg here, given i bound]
      refine if_congr ?_ rfl rfl
      omega
  · rw [if_neg more]
    refine ⟨snapshot, full, uniform, taken, fun inbox member => ?_⟩
    obtain ⟨i, (bound : i < chains.length), rfl⟩ := List.getElem_of_mem member
    exact (given i bound).trans (if_pos (by omega))

/-- A step of `available` or of its test: enough bytes reported are enough bytes
accepted, since only this thread takes bytes out. -/
theorem Blocks.poll (held : Blocks s) (indexed : Indexed k s.threads.ring s.threads.accepted
    s.threads.returned) {head : UInt64} (polled : s.thread = .polled head) :
    Blocks (threadStep s) := by
  obtain ⟨snapshot, full, uniform, taken, handed⟩ := held
  obtain ⟨⟨ring, producer, consumer, accepted, returned⟩, running, thread, block, chains, current,
    deliveries, kept, reads, blocks⟩ := s
  subst polled
  simp only at snapshot full uniform taken handed indexed
  have room := indexed.room
  have wide := Nat.pow_lt_pow_right (show 1 < 2 by decide) indexed.sized.lt
  obtain ⟨rfl, H, counts, (above : returned.length ≤ H), (below : H ≤ accepted.length)⟩ := snapshot
  have reported := counts.sub indexed.tail above (by omega)
  simp only [threadStep]
  by_cases few : head - ring.tail < blockBytes
  · rw [if_pos few]
    exact ⟨rfl, full, uniform, taken, handed⟩
  · rw [if_neg few]
    rw [UInt64.lt_iff_toNat_lt, reported] at few
    exact ⟨show returned.length + blockBytes.toNat ≤ accepted.length by omega, full, uniform,
      taken, handed⟩

theorem Blocks.thread (held : Blocks s) (threads : RingBufferSafety.Inv k s.threads) :
    Blocks (threadStep s) := by
  have indexed := threads.indexed
  cases at_ : s.thread with
  | polled head => exact held.poll indexed at_
  | reading => exact held.read threads at_
  | handing next => exact held.hand at_
  | outer =>
    obtain ⟨snapshot, full, uniform, taken, handed⟩ := held
    rw [at_] at snapshot handed
    cases running : s.running <;> simp only [threadStep, at_, running] <;>
      exact ⟨snapshot, full, uniform, taken, handed⟩
  | inner =>
    obtain ⟨snapshot, full, uniform, taken, handed⟩ := held
    rw [at_] at snapshot handed
    cases running : s.running <;> simp only [threadStep, at_, running] <;>
      exact ⟨snapshot, full, uniform, taken, handed⟩
  | polling =>
    obtain ⟨snapshot, full, uniform, taken, handed⟩ := held
    rw [at_] at snapshot handed
    simp only [threadStep, at_]
    exact ⟨⟨snapshot, _, indexed.head, indexed.order, le_rfl⟩, full, uniform, taken, handed⟩
  | returned =>
    rw [threadStep, at_]
    exact held

/-! ### All interleavings -/

theorem Inv.step (held : Inv k s) (large : 1 ≤ k) (turn : Channelizer.Turn) : Inv k (Channelizer.step s turn) := by
  cases turn with
  | capture pairs count =>
    refine ⟨?_, held.captures.capture held.threads large held.blocks.even pairs count,
      held.blocks.capture pairs count⟩
    rw [Channelizer.step, captureStep_threads]
    exact held.threads.step _
  | channelizer =>
    refine ⟨?_, held.captures.thread, held.blocks.thread held.threads⟩
    rw [Channelizer.step]
    rcases threadStep_threads s with same | stepped
    · rw [same]
      exact held.threads
    · rw [stepped]
      exact held.threads.step _
  | signal =>
    exact ⟨held.threads, ⟨held.captures.delivers, held.captures.whole, held.captures.cut⟩,
      ⟨held.blocks.snapshot, held.blocks.full, held.blocks.uniform, held.blocks.taken,
        held.blocks.handed⟩⟩

theorem Inv.run (held : Inv k s) (large : 1 ≤ k) (turns : List Channelizer.Turn) :
    Inv k (turns.foldl Channelizer.step s) := by
  induction turns generalizing s with
  | nil => exact held
  | cons turn turns ih => exact ih (held.step large turn)

/-- The blocks are the front of the accepted pairs, component by component. -/
theorem Inv.pairs (held : Inv k s) {n : ℕ} {block : List UInt8} (listed : s.blocks[n]? = some block)
    {j : ℕ} (inside : j < blockPairs) : ∃ pair, s.kept.flatten[blockPairs * n + j]? = some pair ∧
      block[2 * j]? = some pair.1 ∧ block[2 * j + 1]? = some pair.2 := by
  have size : 2 * blockPairs = blockBytes.toNat := rfl
  have delivered := held.threads.indexed.delivered
  rw [held.blocks.taken, held.captures.whole] at delivered
  obtain ⟨unread, whole⟩ := delivered
  have uniform := held.blocks.uniform
  have member := List.mem_of_getElem? listed
  have known := (List.getElem?_eq_some_iff.mp listed).1
  have total := length_flatten_uniform uniform
  have length := uniform block member
  rw [← size] at uniform total length
  have place : ∀ i < 2 * blockPairs,
      block[i]? = (interleave s.kept.flatten)[2 * blockPairs * n + i]? := by
    intro i bound
    have far : 2 * blockPairs * n + i < s.blocks.flatten.length := by
      have fits := Nat.mul_le_mul_left (2 * blockPairs) (show n + 1 ≤ s.blocks.length from known)
      rw [Nat.mul_succ] at fits
      omega
    rw [← whole, List.getElem?_append_left far, getElem?_flatten_uniform uniform listed bound]
  obtain ⟨first, second⟩ := getElem?_interleave s.kept.flatten (blockPairs * n + j)
  have atEven := place (2 * j) (by omega)
  have atOdd := place (2 * j + 1) (by omega)
  rw [show 2 * blockPairs * n + 2 * j = 2 * (blockPairs * n + j) by ring, first] at atEven
  rw [show 2 * blockPairs * n + (2 * j + 1) = 2 * (blockPairs * n + j) + 1 by ring, second] at atOdd
  rw [List.getElem?_eq_getElem (by omega)] at atEven
  obtain ⟨pair, found, -⟩ := Option.map_eq_some_iff.mp atEven.symm
  exact ⟨pair, found, by rw [List.getElem?_eq_getElem (by omega), atEven, found, Option.map_some],
    by rw [atOdd, found, Option.map_some]⟩

theorem Inv.same_blocks (held : Inv k s) {inbox : List (List UInt8)} (member : inbox ∈ s.chains) :
    inbox = s.blocks ∨ (∃ next, s.thread = .handing next) ∧ inbox = s.blocks.dropLast := by
  have handed := held.blocks.handed
  cases at_ : s.thread with
  | handing next =>
    rw [at_] at handed
    obtain ⟨earlier, latest, given⟩ := handed
    obtain ⟨i, bound, rfl⟩ := List.getElem_of_mem member
    rw [given i bound]
    split
    · exact .inl rfl
    · exact .inr ⟨⟨next, rfl⟩, by rw [latest, List.dropLast_concat]⟩
  | _ =>
    rw [at_] at handed
    exact .inl (handed inbox member)

theorem Inv.aligned (held : Inv k s) : Aligned s where
  full_reads := held.blocks.full
  even_indices := by
    have head := held.threads.indexed.head
    have tail := held.threads.indexed.tail
    have accepted := held.captures.even
    have returned := held.blocks.even
    rw [Counts] at head tail
    omega
  uniform := held.blocks.uniform
  consecutive := ⟨held.blocks.taken.symm, held.threads.indexed.delivered⟩
  same_blocks := fun _ member => held.same_blocks member
  cut := held.captures.cut
  pairs := fun _ _ listed _ inside => held.pairs listed inside

/-- Alignment of capture and demodulation, for every capacity of at least one
block, all deliveries and every order of the two threads' memory accesses. -/
theorem capture_aligned {allocate : Allocator} {c : UInt64} {r : RingBuffer} (created : create allocate c = .ok r)
    (large : blockBytes.toNat ≤ c.toNat) (chainCount : ℕ) (turns : List Channelizer.Turn) :
    Aligned (turns.foldl Channelizer.step
      { threads := { ring := r }, chains := List.replicate chainCount [] }) := by
  obtain ⟨k, power, start⟩ := inv_start created
  have positive : 1 ≤ k := by
    rcases Nat.eq_zero_or_pos k with rfl | positive
    · rw [power] at large
      exact absurd large (by decide)
    · exact positive
  have initial : Inv k { threads := { ring := r }, chains := List.replicate chainCount [] } := {
    threads := start
    captures := ⟨trivial, rfl, .nil⟩
    blocks := {
      snapshot := rfl
      full := fun got member => absurd member List.not_mem_nil
      uniform := fun b member => absurd member List.not_mem_nil
      taken := rfl
      handed := fun inbox member => List.eq_of_mem_replicate member } }
  exact (initial.run positive turns).aligned

/-- A delivery that is cut at the end of the ring, and two chains that get the
block of the pairs that were kept. -/
theorem capture_aligned_one_block : ∃ s, (round (fun i => (UInt8.ofNat i, 127)) 5000 2).foldl Channelizer.step
      { threads := { ring := blockRing }, chains := [[], []] } = s ∧ Aligned s ∧
    s.deliveries = [(List.range 5000).map fun i => (UInt8.ofNat i, 127)] ∧
    s.kept = [(List.range blockPairs).map fun i => (UInt8.ofNat i, 127)] ∧ s.reads = [blockBytes] ∧
    s.blocks = [interleave ((List.range blockPairs).map fun i => (UInt8.ofNat i, 127))] ∧
    s.chains = [s.blocks, s.blocks] := by
  obtain ⟨s, reached, deliveries, kept, reads, blocks, chains, -⟩ :=
    round_run (fun i => (UInt8.ofNat i, 127)) 5000 (by decide) 2
  have aligned : Aligned s := reached ▸ capture_aligned blockRing_created (by decide) 2 _
  exact ⟨s, reached, aligned, deliveries, kept, reads, blocks, chains⟩

end DmrWatchkeeper.CaptureAlignment
