import DmrWatchkeeper.RingBufferThreads
import Mathlib.Data.List.Range

/-! Safety of the ring buffer under every interleaving. Each party works from
a snapshot of the other's index; what makes that sound is that the snapshot
can only be too cautious. -/
namespace DmrWatchkeeper.RingBufferSafety
open RingBuffer RingBufferCopies RingBufferThreads FreeRunning StreamWindow

/-- The moves that are left of a copy of `n` bytes from position `start` on,
after the first `count` of them. -/
def plan (C start count n : ℕ) : List (ℕ × ℕ) :=
  (List.range' count (n - count)).map fun j => ((start + j) % C, j)

/-- The indices are the lengths of the two byte streams. -/
structure Indexed (k : ℕ) (r : RingBuffer) (accepted returned : List UInt8) : Prop where
  sized : Sized r k
  head : Counts r.head accepted.length
  tail : Counts r.tail returned.length
  order : returned.length ≤ accepted.length
  room : accepted.length ≤ returned.length + 2 ^ k
  delivered : returned <+: accepted

/-- The buffer holds the unread bytes of the stream. -/
def Stored (k : ℕ) (r : RingBuffer) (stream : List UInt8) (lo hi : ℕ) : Prop :=
  Holds r.buf (2 ^ k) (streamFrom 0 stream 0) lo hi

/-- What the producer relies on. While it copies, the stream is already taken
to end in the bytes that it is going to publish. -/
def Produces (k : ℕ) (r : RingBuffer) (accepted returned : List UInt8) : Producer → Prop
  | .idle => Stored k r accepted returned.length accepted.length
  | .loadedHead _ _ head => head = r.head ∧ Stored k r accepted returned.length accepted.length
  | .copying data head n rest => head = r.head ∧
    accepted.length + n.toNat ≤ returned.length + 2 ^ k ∧ ∃ count ≤ n.toNat,
      rest = plan (2 ^ k) accepted.length count n.toNat ∧
      Stored k r (accepted ++ bytes data n.toNat) returned.length (accepted.length + count)

/-- What the consumer relies on. -/
def Consumes (k : ℕ) (r : RingBuffer) (accepted returned : List UInt8) : Consumer → Prop
  | .idle => True
  | .loadedTail _ _ tail => tail = r.tail
  | .copying dest tail n rest => tail = r.tail ∧
    returned.length + n.toNat ≤ accepted.length ∧ ∃ count ≤ n.toNat,
      rest = plan (2 ^ k) returned.length count n.toNat ∧
      ∀ j < count, dest j = streamFrom 0 accepted 0 (returned.length + j : ℕ)

/-- The invariant of every interleaving. -/
structure Inv (k : ℕ) (s : State) : Prop where
  indexed : Indexed k s.ring s.accepted s.returned
  produces : Produces k s.ring s.accepted s.returned s.producer
  consumes : Consumes k s.ring s.accepted s.returned s.consumer

variable {k : ℕ} {r : RingBuffer} {accepted returned : List UInt8} {s : State}
  {data dest : ℕ → UInt8} {len : UInt64}

theorem plan_cons {C start count n cell i : ℕ} {rest : List (ℕ × ℕ)}
    (left : (cell, i) :: rest = plan C start count n) :
    count < n ∧ cell = (start + count) % C ∧ i = count ∧ rest = plan C start (count + 1) n := by
  rw [plan] at left
  cases remaining : n - count with
  | zero =>
    rw [remaining] at left
    cases left
  | succ m =>
    rw [remaining, List.range'_succ, List.map_cons, List.cons.injEq, Prod.mk.injEq] at left
    refine ⟨by omega, left.1.1, left.1.2, ?_⟩
    rw [left.2, plan, show n - (count + 1) = m by omega]

theorem plan_nil {C start count n : ℕ} (left : [] = plan C start count n) (within : count ≤ n) :
    count = n := by
  have length := congrArg List.length left
  rw [plan, List.length_map, List.length_range', List.length_nil] at length
  omega

theorem moves_plan {index n : UInt64} {start : ℕ} (sized : Sized r k) (counts : Counts index start)
    (fits : n.toNat ≤ 2 ^ k) : r.moves index n = plan (2 ^ k) start 0 n.toNat := by
  rw [moves_eq sized counts fits, plan, List.range_eq_range', Nat.sub_zero]

/-- Bytes to come do not disturb the bytes already published. -/
theorem stream_append {later : List UInt8} {i : ℕ} (known : i < accepted.length) :
    streamFrom 0 (accepted ++ later) 0 (i : ℕ) = streamFrom 0 accepted 0 (i : ℕ) :=
  streamFrom_append (by omega) (by omega)

theorem stream_new {n i : ℕ} (inside : i < n) :
    streamFrom 0 (accepted ++ bytes data n) 0 (accepted.length + i : ℕ) = data i := by
  have here : accepted.length + i < (accepted ++ bytes data n).length := by
    rw [List.length_append, length_bytes]
    omega
  rw [← Nat.zero_add (accepted.length + i), streamFrom_at here, List.getElem_append_right (by omega)]
  simp

/-- Bytes read from the stream behind a prefix extend the prefix. -/
theorem Indexed.delivered_append (held : Indexed k r accepted returned) {n : ℕ}
    (known : returned.length + n ≤ accepted.length)
    (given : ∀ j < n, dest j = streamFrom 0 accepted 0 (returned.length + j : ℕ)) :
    returned ++ bytes dest n <+: accepted := by
  obtain ⟨unread, rfl⟩ := held.delivered
  rw [List.length_append] at known
  rw [List.prefix_append_right_inj]
  have same : bytes dest n = unread.take n := by
    refine List.ext_getElem (by rw [length_bytes, List.length_take]; omega) fun j bound inside => ?_
    rw [length_bytes] at bound
    have here : returned.length + j < (returned ++ unread).length := by
      rw [List.length_append]
      omega
    rw [getElem_bytes, given j bound, ← Nat.zero_add (returned.length + j), streamFrom_at here,
      List.getElem_append_right (by omega), List.getElem_take]
    simp
  rw [same]
  exact List.take_prefix n unread

/-- The head moves over bytes for which there is room. -/
theorem Indexed.publish (held : Indexed k r accepted returned) {n : UInt64}
    (room : accepted.length + n.toNat ≤ returned.length + 2 ^ k) :
    Indexed k { r with head := r.head + n } (accepted ++ bytes data n.toNat) returned where
  sized := ⟨held.sized.capacity, held.sized.mask⟩
  head := by
    rw [List.length_append, length_bytes]
    exact held.head.add n
  tail := held.tail
  order := by
    have order := held.order
    rw [List.length_append]
    omega
  room := by
    rw [List.length_append, length_bytes]
    exact room
  delivered := held.delivered.trans (List.prefix_append ..)

/-- The tail moves over bytes that were there. -/
theorem Indexed.release (held : Indexed k r accepted returned) {n : UInt64}
    (known : returned.length + n.toNat ≤ accepted.length)
    (given : ∀ j < n.toNat, dest j = streamFrom 0 accepted 0 (returned.length + j : ℕ)) :
    Indexed k { r with tail := r.tail + n } accepted (returned ++ bytes dest n.toNat) where
  sized := ⟨held.sized.capacity, held.sized.mask⟩
  head := held.head
  tail := by
    rw [List.length_append, length_bytes]
    exact held.tail.add n
  order := by
    rw [List.length_append, length_bytes]
    exact known
  room := by
    have room := held.room
    rw [List.length_append]
    omega
  delivered := held.delivered_append known given

/-- Whatever the producer is doing, the unread bytes are in the buffer. -/
theorem Produces.stored {p : Producer} (held : Produces k r accepted returned p) :
    Stored k r accepted returned.length accepted.length := by
  cases p with
  | idle => exact held
  | loadedHead data len head => exact held.2
  | copying data head n rest =>
    obtain ⟨-, -, count, -, -, cells⟩ := held
    refine Holds.congr (cells.mono le_rfl (by omega)) fun i above below => ?_
    exact streamFrom_append (by omega) (by omega)

theorem Indexed.frame {r' : RingBuffer} (held : Indexed k r accepted returned)
    (capacity : r'.capacity = r.capacity) (mask : r'.mask = r.mask) (head : r'.head = r.head)
    (tail : r'.tail = r.tail) : Indexed k r' accepted returned where
  sized := ⟨capacity ▸ held.sized.capacity, mask ▸ held.sized.mask⟩
  head := head ▸ held.head
  tail := tail ▸ held.tail
  order := held.order
  room := held.room
  delivered := held.delivered

/-- Publishing more bytes does not disturb the consumer. -/
theorem Consumes.grow {c : Consumer} {r' : RingBuffer} (held : Consumes k r accepted returned c)
    (tail : r'.tail = r.tail) (later : List UInt8) : Consumes k r' (accepted ++ later) returned c := by
  cases c with
  | idle => trivial
  | loadedTail dest len own => exact Eq.trans held tail.symm
  | copying dest own n rest =>
    obtain ⟨loaded, known, count, within, left, given⟩ := held
    refine ⟨loaded.trans tail.symm, ?_, count, within, left, fun j bound => ?_⟩
    · rw [List.length_append]
      omega
    · rw [given j bound, stream_append (by omega)]

/-- Releasing bytes does not disturb the producer. -/
theorem Produces.release {p : Producer} {r' : RingBuffer} (held : Produces k r accepted returned p)
    (buf : r'.buf = r.buf) (head : r'.head = r.head) (given : List UInt8) :
    Produces k r' accepted (returned ++ given) p := by
  have fewer : (returned.length : ℤ) ≤ (returned ++ given).length := by
    rw [List.length_append]
    omega
  cases p with
  | idle =>
    rw [Produces, Stored, buf]
    exact Holds.mono held fewer le_rfl
  | loadedHead data len own =>
    refine ⟨held.1.trans head.symm, ?_⟩
    rw [Stored, buf]
    exact Holds.mono held.2 fewer le_rfl
  | copying data own n rest =>
    obtain ⟨loaded, room, count, within, left, cells⟩ := held
    refine ⟨loaded.trans head.symm, by omega, count, within, left, ?_⟩
    rw [Stored, buf]
    exact Holds.mono cells fewer le_rfl

/-! ### The steps of the two parties -/

theorem produce_keeps {p : Producer} {c : Consumer} (indexed : Indexed k r accepted returned)
    (produces : Produces k r accepted returned p) (consumes : Consumes k r accepted returned c)
    (data : ℕ → UInt8) (len : UInt64) :
    Indexed k (produce r data len p).1 (accepted ++ (produce r data len p).2.2.getD []) returned ∧
      Produces k (produce r data len p).1 (accepted ++ (produce r data len p).2.2.getD []) returned
        (produce r data len p).2.1 ∧
      Consumes k (produce r data len p).1 (accepted ++ (produce r data len p).2.2.getD []) returned
        c := by
  cases p with
  | idle =>
    simp only [produce, Option.getD_none, List.append_nil]
    exact ⟨indexed, ⟨rfl, produces⟩, consumes⟩
  | loadedHead data len head =>
    obtain ⟨rfl, cells⟩ := produces
    have order := indexed.order
    have room := indexed.room
    have short := writeLen_toNat len indexed.sized indexed.head indexed.tail order indexed.room
    simp only [produce]
    split
    · simp only [Option.getD_some, List.append_nil]
      exact ⟨indexed.frame rfl rfl rfl rfl, cells, List.append_nil accepted ▸ consumes.grow rfl []⟩
    · simp only [Option.getD_none, List.append_nil]
      refine ⟨indexed.frame rfl rfl rfl rfl, ⟨rfl, by omega, 0, Nat.zero_le _, ?_, ?_⟩,
        List.append_nil accepted ▸ consumes.grow rfl []⟩
      · exact moves_plan indexed.sized indexed.head (by omega)
      · refine Holds.congr (cells.mono le_rfl (by omega)) fun i above below => ?_
        exact (streamFrom_append (by omega) (by omega)).symm
  | copying data head n rest =>
    obtain ⟨rfl, room, count, within, left, cells⟩ := produces
    have order := indexed.order
    cases rest with
    | nil =>
      obtain rfl := plan_nil left within
      simp only [produce, Option.getD_some]
      refine ⟨indexed.publish room, ?_, consumes.grow rfl _⟩
      rw [Produces, List.length_append, length_bytes]
      exact cells
    | cons move rest =>
      obtain ⟨cell, i⟩ := move
      obtain ⟨before, rfl, rfl, left⟩ := plan_cons left
      simp only [produce, Option.getD_none, List.append_nil]
      refine ⟨indexed.frame rfl rfl rfl rfl, ⟨rfl, room, i + 1, before, left, ?_⟩,
        List.append_nil accepted ▸ consumes.grow rfl []⟩
      have written := Holds.write_nat cells (by omega) (by omega)
      rw [stream_new before] at written
      exact written

theorem consume_keeps {p : Producer} {c : Consumer} (indexed : Indexed k r accepted returned)
    (produces : Produces k r accepted returned p) (consumes : Consumes k r accepted returned c)
    (dest : ℕ → UInt8) (len : UInt64) :
    Indexed k (consume r dest len c).1 accepted (returned ++ givenBytes (consume r dest len c).2.2) ∧
      Produces k (consume r dest len c).1 accepted
        (returned ++ givenBytes (consume r dest len c).2.2) p ∧
      Consumes k (consume r dest len c).1 accepted
        (returned ++ givenBytes (consume r dest len c).2.2) (consume r dest len c).2.1 := by
  have order := indexed.order
  cases c with
  | idle =>
    simp only [consume, givenBytes_none, List.append_nil]
    exact ⟨indexed, produces, rfl⟩
  | loadedTail dest len tail =>
    obtain rfl := consumes
    have near : accepted.length - returned.length < 2 ^ 64 := by
      have wide := Nat.pow_lt_pow_right (show 1 < 2 by decide) indexed.sized.lt
      have room := indexed.room
      omega
    have short := readLen_toNat len indexed.head indexed.tail order near
    simp only [consume]
    split
    · rw [givenBytes_some, show bytes dest (0 : UInt64).toNat = [] from rfl, List.append_nil]
      exact ⟨indexed, produces, trivial⟩
    · rw [givenBytes_none, List.append_nil]
      have room := indexed.room
      exact ⟨indexed, produces, rfl, by omega, 0, Nat.zero_le _,
        moves_plan indexed.sized indexed.tail (by omega), fun j bound => absurd bound (by omega)⟩
  | copying dest tail n rest =>
    obtain ⟨rfl, known, count, within, left, given⟩ := consumes
    cases rest with
    | nil =>
      obtain rfl := plan_nil left within
      simp only [consume, givenBytes_some]
      exact ⟨indexed.release known given, produces.release rfl rfl _, trivial⟩
    | cons move rest =>
      obtain ⟨cell, i⟩ := move
      obtain ⟨before, rfl, rfl, left⟩ := plan_cons left
      simp only [consume, givenBytes_none, List.append_nil]
      refine ⟨indexed, produces, rfl, known, i + 1, before, left, fun j bound => ?_⟩
      by_cases newest : j = i
      · subst newest
        have byte := produces.stored (returned.length + j : ℕ) (by omega) (by omega)
        rw [slot_natCast] at byte
        rw [Function.update_self]
        exact byte
      · rw [Function.update_of_ne newest]
        exact given j (by omega)

/-! ### The invariant, and what it says about the cells -/

theorem Inv.step (held : Inv k s) (turn : Turn) : Inv k (step s turn) := by
  cases turn with
  | producer data len =>
    obtain ⟨indexed, produces, consumes⟩ :=
      produce_keeps held.indexed held.produces held.consumes data len
    exact ⟨indexed, produces, consumes⟩
  | consumer dest len =>
    obtain ⟨indexed, produces, consumes⟩ :=
      consume_keeps held.indexed held.produces held.consumes dest len
    exact ⟨indexed, produces, consumes⟩

theorem Inv.run (held : Inv k s) (turns : List Turn) : Inv k (turns.foldl RingBufferThreads.step s) := by
  induction turns generalizing s with
  | nil => exact held
  | cons turn turns ih => exact ih (held.step turn)

theorem inv_start {allocate : Allocator} {c : UInt64} (created : create allocate c = .ok r) :
    ∃ k, c.toNat = 2 ^ k ∧ Inv k { ring := r } := by
  obtain ⟨k, sized, power, rfl⟩ := create_sized created
  have empty : Stored k ⟨c, c - 1, fun _ => 0, 0, 0, 0⟩ [] 0 0 :=
    fun i above below => absurd below (by omega)
  exact ⟨k, power, ⟨sized, counts_zero, counts_zero, le_rfl, Nat.zero_le _, List.prefix_rfl⟩,
    empty, trivial⟩

theorem Indexed.distance (held : Indexed k r accepted returned) :
    (r.head - r.tail).toNat = accepted.length - returned.length := by
  have order := held.order
  have room := held.room
  have wide := Nat.pow_lt_pow_right (show 1 < 2 by decide) held.sized.lt
  exact held.head.sub held.tail order (by omega)

/-- The unread cells are those of the positions between the two counts. -/
theorem Indexed.unreadCells_eq (held : Indexed k r accepted returned) : unreadCells r =
    (List.range (accepted.length - returned.length)).map fun i => (returned.length + i) % 2 ^ k := by
  have room := held.room
  have wide := Nat.pow_lt_pow_right (show 1 < 2 by decide) held.sized.lt
  rw [unreadCells, held.distance]
  refine List.map_congr_left fun i member => ?_
  have bound := List.mem_range.mp member
  have counts := held.tail.add (UInt64.ofNat i)
  rw [UInt64.toNat_ofNat_of_lt' (show i < 2 ^ 64 by omega)] at counts
  exact counts.mask held.sized.mask held.sized.lt.le

theorem Indexed.mem_unreadCells (held : Indexed k r accepted returned) {cell : ℕ} :
    cell ∈ unreadCells r ↔
      ∃ i < accepted.length - returned.length, cell = (returned.length + i) % 2 ^ k := by
  rw [held.unreadCells_eq, List.mem_map]
  constructor
  · rintro ⟨i, member, rfl⟩
    exact ⟨i, List.mem_range.mp member, rfl⟩
  · rintro ⟨i, bound, rfl⟩
    exact ⟨i, List.mem_range.mpr bound, rfl⟩

/-- Nothing is lost: what is not yet given is in the unread cells. -/
theorem Inv.kept (held : Inv k s) :
    s.returned ++ (unreadCells s.ring).map s.ring.buf = s.accepted := by
  have stored := held.produces.stored
  have cells := held.indexed.unreadCells_eq
  obtain ⟨unread, whole⟩ := held.indexed.delivered
  have length := congrArg List.length whole
  rw [List.length_append] at length
  rw [cells, List.map_map]
  conv_rhs => rw [← whole]
  rw [List.append_cancel_left_eq]
  refine List.ext_getElem (by rw [List.length_map, List.length_range]; omega) fun i bound inside => ?_
  have byte := stored (s.returned.length + i : ℕ) (by omega) (by omega)
  have here : s.returned.length + i < s.accepted.length := by omega
  rw [slot_natCast, ← Nat.zero_add (s.returned.length + i), streamFrom_at here, Nat.zero_add] at byte
  rw [List.getElem_map, List.getElem_range, Function.comp_apply, byte]
  simp only [← whole, List.getElem_append_right (Nat.le_add_right ..), Nat.add_sub_cancel_left]

/-- The cells that the consumer is in the middle of copying are unread ones. -/
theorem Inv.copied_unread (held : Inv k s) {cell : ℕ} (busy : cell ∈ s.consumer.cells s.ring) :
    cell ∈ unreadCells s.ring := by
  have consumes := held.consumes
  have room := held.indexed.room
  cases reading : s.consumer with
  | idle => simp [reading, Consumer.cells] at busy
  | loadedTail dest len tail => simp [reading, Consumer.cells] at busy
  | copying dest tail n rest =>
    rw [reading] at busy consumes
    obtain ⟨rfl, known, -⟩ := consumes
    rw [Consumer.cells, moves_eq held.indexed.sized held.indexed.tail (by omega), List.map_map] at busy
    obtain ⟨j, member, same⟩ := List.mem_map.mp busy
    have bound := List.mem_range.mp member
    exact held.indexed.mem_unreadCells.mpr ⟨j, by omega, same.symm⟩

/-- The producer writes behind the unread bytes, less than one lap ahead. -/
theorem Inv.written_free (held : Inv k s) {cell : ℕ} (next : s.producer.next = some cell) :
    cell ∉ unreadCells s.ring := by
  have produces := held.produces
  have order := held.indexed.order
  cases writing : s.producer with
  | idle => simp [writing, Producer.next] at next
  | loadedHead data len head => simp [writing, Producer.next] at next
  | copying data head n rest =>
    cases rest with
    | nil => simp [writing, Producer.next] at next
    | cons move rest =>
      rw [writing] at next produces
      cases next
      obtain ⟨-, fits, count, -, left, -⟩ := produces
      obtain ⟨before, slot, -, -⟩ := plan_cons left
      intro unread
      obtain ⟨i, bound, same⟩ := held.indexed.mem_unreadCells.mp unread
      exact slot_ne_nat (by omega) (by omega) (same.symm.trans slot)

theorem Consumer.next_mem_cells {c : Consumer} {cell : ℕ} (sized : Sized r k)
    (room : accepted.length ≤ returned.length + 2 ^ k) (tail : Counts r.tail returned.length)
    (consumes : Consumes k r accepted returned c) (next : c.next = some cell) :
    cell ∈ c.cells r := by
  cases c with
  | idle => cases next
  | loadedTail dest len tail => cases next
  | copying dest own n rest =>
    cases rest with
    | nil => cases next
    | cons move rest =>
      cases next
      obtain ⟨rfl, known, count, -, left, -⟩ := consumes
      obtain ⟨before, slot, -, -⟩ := plan_cons left
      rw [Consumer.cells, moves_eq sized tail (by omega), List.map_map]
      exact List.mem_map.mpr ⟨count, List.mem_range.mpr before, slot.symm⟩

theorem Inv.safe (held : Inv k s) : Safe s where
  writes_free cell next :=
    ⟨held.written_free next, fun busy => held.written_free next (held.copied_unread busy)⟩
  reads_published cell next := held.copied_unread
    (Consumer.next_mem_cells held.indexed.sized held.indexed.room held.indexed.tail held.consumes next)
  bounded := by
    have order := held.indexed.order
    have room := held.indexed.room
    rw [UInt64.le_iff_toNat_le, held.indexed.distance, held.indexed.sized.capacity]
    omega
  head_counts := held.indexed.head
  tail_counts := held.indexed.tail
  delivered := held.indexed.delivered
  kept := held.kept

/-- Safety of the single-producer single-consumer ring: for every capacity
that the constructor accepts, all calls and every order of the two parties'
memory accesses. -/
theorem ring_threads_safe {allocate : Allocator} {c : UInt64} (created : create allocate c = .ok r) (turns : List Turn) :
    Safe (turns.foldl RingBufferThreads.step { ring := r }) := by
  obtain ⟨k, -, start⟩ := inv_start created
  exact (start.run turns).safe

/-- Three bytes are written and two of them read; then three more are written
across the wrap, while a read of four has begun. -/
def lap : List Turn :=
  List.replicate 6 (.producer (fun i => UInt8.ofNat i) 3) ++ List.replicate 5 (.consumer (fun _ => 0) 2) ++
    List.replicate 3 (.producer (fun i => UInt8.ofNat (i + 3)) 3) ++ [.consumer (fun _ => 0) 4] ++
    List.replicate 3 (.producer (fun _ => 0) 0) ++ List.replicate 6 (.consumer (fun _ => 0) 0)

theorem ring_threads_safe_lap : ∃ s, lap.foldl RingBufferThreads.step { ring := ⟨4, 3, fun _ => 0, 0, 0, 0⟩ } = s ∧
    Safe s ∧ s.ring.head = 6 ∧ s.ring.tail = 6 ∧ s.accepted = [0, 1, 2, 3, 4, 5] ∧ s.returned = s.accepted :=
  ⟨_, rfl, ring_threads_safe (show create .unlimited 4 = .ok _ from rfl) lap, by decide, by decide, by decide, by decide⟩

end DmrWatchkeeper.RingBufferSafety
