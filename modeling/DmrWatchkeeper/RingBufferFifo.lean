import DmrWatchkeeper.Library.Stage
import DmrWatchkeeper.RingBufferCopies

/-! The ring buffer, used by one thread, is a bounded FIFO. The relation keeps
the indices as low bits of unbounded counts, so nothing changes when they wrap. -/
namespace DmrWatchkeeper.RingBufferFifo
open RingBuffer RingBufferCopies FreeRunning StreamWindow BoundedFifo

inductive Op where
  | write (data : ℕ → UInt8) (len : UInt64)
  | read (dest : ℕ → UInt8) (len : UInt64)
  | available
  | reset

inductive Outcome where
  | accepted (n : ℕ)
  | given (bytes : List UInt8)
  | size (n : ℕ)
  | done

/-- A call on the ring buffer. -/
def perform (r : RingBuffer) : Op → RingBuffer × Option Outcome
  | .write data len => ((r.write data len).1, some (.accepted (r.write data len).2.toNat))
  | .read dest len =>
    ((r.read dest len).1, some (.given (bytes (r.read dest len).2.1 (r.read dest len).2.2.toNat)))
  | .available => (r, some (.size r.available.toNat))
  | .reset => (r.reset, some .done)

/-- The same call on a FIFO of the given capacity. -/
def specify (capacity : ℕ) (f : Fifo UInt8) : Op → Fifo UInt8 × Option Outcome
  | .write data len =>
    ((f.write capacity (bytes data len.toNat)).1,
      some (.accepted (f.write capacity (bytes data len.toNat)).2))
  | .read _ len => ((f.read len.toNat).1, some (.given (f.read len.toNat).2))
  | .available => (f, some (.size f.queue.length))
  | .reset => ({}, some .done)

/-- The length that the caller passes. -/
def Op.len : Op → UInt64
  | .write _ len => len
  | .read _ len => len
  | .available => 0
  | .reset => 0

/-- The `memcpy` calls that a call makes. -/
def copies (r : RingBuffer) : Op → List Chunk
  | .write _ len =>
    if r.writeLen r.head r.tail len = 0 then [] else r.chunks r.head (r.writeLen r.head r.tail len)
  | .read _ len =>
    if readLen r.head r.tail len = 0 then [] else r.chunks r.tail (readLen r.head r.tail len)
  | .available => []
  | .reset => []

/-- The byte moves of the copies. -/
def copied (r : RingBuffer) (op : Op) : List (ℕ × ℕ) := (copies r op).flatMap Chunk.moves

/-- `write` leaves the array as its copies leave it. -/
theorem write_buf (r : RingBuffer) (data : ℕ → UInt8) (len : UInt64) :
    (r.write data len).1.buf = copyIn data r.buf (copied r (.write data len)) := by
  simp only [RingBuffer.write, copied, copies]
  split <;> rfl

/-- `read` leaves the caller's array as its copies leave it. -/
theorem read_dest (r : RingBuffer) (dest : ℕ → UInt8) (len : UInt64) :
    (r.read dest len).2.1 = copyOut r.buf dest (copied r (.read dest len)) := by
  simp only [RingBuffer.read, copied, copies]
  split <;> rfl

/-- Cells that `write` does not copy to keep their bytes. -/
theorem write_frame (r : RingBuffer) (data : ℕ → UInt8) (len : UInt64) {cell : ℕ}
    (outside : ∀ move ∈ copied r (.write data len), move.1 ≠ cell) :
    (r.write data len).1.buf cell = r.buf cell := by
  rw [write_buf]
  exact copyIn_frame outside

/-- Of the caller's bytes, `write` depends on those that it copies. -/
theorem write_congr (r : RingBuffer) {data data' : ℕ → UInt8} (len : UInt64)
    (same : ∀ move ∈ copied r (.write data len), data move.2 = data' move.2) :
    r.write data len = r.write data' len := by
  have copy : copyIn data r.buf _ = copyIn data' r.buf _ := copyIn_congr same
  simp only [RingBuffer.write, copied, copies] at copy ⊢
  split
  · rfl
  · rename_i some_
    rw [if_neg some_] at copy
    rw [moves, copy]

/-- Of the buffer's bytes, `read` depends on those that it copies. -/
theorem read_congr (r : RingBuffer) {buf : ℕ → UInt8} (dest : ℕ → UInt8) (len : UInt64)
    (same : ∀ move ∈ copied r (.read dest len), r.buf move.1 = buf move.1) :
    ({ r with buf }.read dest len).2 = (r.read dest len).2 := by
  have copy : copyOut r.buf dest _ = copyOut buf dest _ := copyOut_congr same
  simp only [RingBuffer.read, copied, copies] at copy ⊢
  split
  · rfl
  · rename_i some_
    rw [if_neg some_] at copy
    exact congrArg (fun dest => (dest, readLen r.head r.tail len)) copy.symm

/-- The buffer holds the queue behind `T` bytes read before. -/
structure Represents (k T : ℕ) (r : RingBuffer) (f : Fifo UInt8) : Prop where
  sized : Sized r k
  tail : Counts r.tail T
  head : Counts r.head (T + f.queue.length)
  bounded : f.queue.length ≤ 2 ^ k
  cells : Holds r.buf (2 ^ k) (streamFrom T f.queue 0) T (T + f.queue.length : ℕ)
  overruns : Counts r.overruns f.overruns

variable {k T : ℕ} {r : RingBuffer} {f : Fifo UInt8} {data dest : ℕ → UInt8} {len : UInt64}

theorem Represents.writeLen_eq (held : Represents k T r f) (len : UInt64) :
    (r.writeLen r.head r.tail len).toNat = min len.toNat (2 ^ k - f.queue.length) := by
  have bounded := held.bounded
  rw [writeLen_toNat _ held.sized held.head held.tail (by omega) (by omega), Nat.add_sub_cancel_left]

theorem Represents.near (held : Represents k T r f) : T + f.queue.length - T < 2 ^ 64 := by
  have bounded := held.bounded
  have wide := Nat.pow_lt_pow_right (show 1 < 2 by decide) held.sized.lt
  omega

theorem Represents.readLen_eq (held : Represents k T r f) (len : UInt64) :
    (readLen r.head r.tail len).toNat = min len.toNat f.queue.length := by
  rw [readLen_toNat _ held.head held.tail (by omega) held.near, Nat.add_sub_cancel_left]

theorem Represents.available_eq (held : Represents k T r f) :
    r.available.toNat = f.queue.length := by
  rw [available, held.head.sub held.tail (by omega) held.near, Nat.add_sub_cancel_left]

/-- A call makes no copy outside the buffer or beyond the caller's length. -/
theorem Represents.copies_in_bounds (held : Represents k T r f) {op : Op} {c : Chunk}
    (member : c ∈ copies r op) :
    c.ring.toNat + c.size.toNat ≤ 2 ^ k ∧ c.caller.toNat + c.size.toNat ≤ op.len.toNat := by
  have bounded := held.bounded
  cases op with
  | write data len =>
    have short := held.writeLen_eq len
    rw [copies] at member
    split at member
    · cases member
    · obtain ⟨inside, given⟩ := chunks_in_bounds held.sized held.head (by omega) member
      exact ⟨inside, by rw [Op.len]; omega⟩
  | read dest len =>
    have short := held.readLen_eq len
    rw [copies] at member
    split at member
    · cases member
    · obtain ⟨inside, given⟩ := chunks_in_bounds held.sized held.tail (by omega) member
      exact ⟨inside, by rw [Op.len]; omega⟩
  | available => cases member
  | reset => cases member

/-! ### Each call is a call of the FIFO -/

theorem Represents.write (held : Represents k T r f) (data : ℕ → UInt8) (len : UInt64) :
    Represents k T (r.write data len).1 (f.write (2 ^ k) (bytes data len.toNat)).1 ∧
      (r.write data len).2.toNat = (f.write (2 ^ k) (bytes data len.toNat)).2 := by
  have bounded := held.bounded
  have short := held.writeLen_eq len
  rw [write_eq, Fifo.write]
  simp only [length_bytes]
  rw [← short]
  generalize given : r.writeLen r.head r.tail len = n at short
  have taken : ((bytes data len.toNat).take n.toNat).length = n.toNat := by
    rw [List.length_take, length_bytes]
    omega
  refine ⟨⟨⟨held.sized.capacity, held.sized.mask⟩, held.tail, ?_, ?_, ?_, ?_⟩, rfl⟩
  · rw [List.length_append, taken, ← Nat.add_assoc]
    exact held.head.add n
  · rw [List.length_append, taken]
    omega
  · rw [List.length_append, taken, ← Nat.add_assoc, moves_eq held.sized held.head (by omega)]
    refine copyIn_holds _ (held.cells.congr fun i above below => ?_) (by omega) (by omega)
      fun j bound => ?_
    · exact (streamFrom_append above below).symm
    · have inside : f.queue.length + j <
          (f.queue ++ (bytes data len.toNat).take n.toNat).length := by
        rw [List.length_append, taken]
        omega
      rw [Nat.add_assoc, streamFrom_at inside, List.getElem_append_right (by omega)]
      simp only [Nat.add_sub_cancel_left, List.getElem_take, getElem_bytes]
  · simp only
    rw [countOverrun_eq held.sized held.head held.tail (by omega) (by omega), Nat.add_sub_cancel_left,
      ← short]
    split
    · exact held.overruns.succ
    · exact held.overruns

theorem Represents.read (held : Represents k T r f) (dest : ℕ → UInt8) (len : UInt64) :
    (∃ T', Represents k T' (r.read dest len).1 (f.read len.toNat).1) ∧
      bytes (r.read dest len).2.1 (r.read dest len).2.2.toNat = (f.read len.toNat).2 := by
  have bounded := held.bounded
  have short := held.readLen_eq len
  rw [read_eq, Fifo.read]
  generalize readLen r.head r.tail len = n at short
  have rest : f.queue.drop len.toNat = f.queue.drop n.toNat := by
    rw [short]
    rcases Nat.le_total len.toNat f.queue.length with few | many
    · rw [Nat.min_eq_left few]
    · rw [Nat.min_eq_right many, List.drop_eq_nil_of_le many, List.drop_length]
  have left : (f.queue.drop n.toNat).length = f.queue.length - n.toNat := List.length_drop
  have ends : T + n.toNat + (f.queue.length - n.toNat) = T + f.queue.length := by omega
  refine ⟨⟨T + n.toNat, ⟨held.sized.capacity, held.sized.mask⟩, held.tail.add n, ?_, ?_, ?_,
    held.overruns⟩, ?_⟩
  · rw [rest, left, ends]
    exact held.head
  · rw [rest, left]
    omega
  · rw [rest, left, ends]
    exact (held.cells.mono (by omega) le_rfl).congr fun i above _ => (streamFrom_drop above).symm
  · rw [moves_eq held.sized held.tail (by omega)]
    refine List.ext_getElem (by simp only [length_bytes, List.length_take]; omega)
      fun i bound inside => ?_
    simp only [length_bytes] at bound
    have known : i < f.queue.length := by omega
    simp only [getElem_bytes, List.getElem_take]
    rw [copyOut_apply n.toNat held.cells (by omega), if_pos bound, streamFrom_at known]

theorem Represents.reset (held : Represents k T r f) : Represents k 0 r.reset {} where
  sized := ⟨held.sized.capacity, held.sized.mask⟩
  tail := counts_zero
  head := counts_zero
  bounded := Nat.zero_le _
  cells := fun i above below => absurd below (by simp; omega)
  overruns := counts_zero

/-! ### Whole runs -/

/-- The relation that runs preserve. -/
def Refines (k : ℕ) (r : RingBuffer) (f : Fifo UInt8) : Prop := ∃ T, Represents k T r f

theorem Refines.perform (related : Refines k r f) (op : Op) :
    Refines k (perform r op).1 (specify (2 ^ k) f op).1 ∧
      (RingBufferFifo.perform r op).2 = (specify (2 ^ k) f op).2 := by
  obtain ⟨T, held⟩ := related
  cases op with
  | write data len =>
    obtain ⟨after, accepted⟩ := held.write data len
    exact ⟨⟨T, after⟩, by rw [RingBufferFifo.perform, specify, accepted]⟩
  | read dest len =>
    obtain ⟨after, given⟩ := held.read dest len
    exact ⟨after, by rw [RingBufferFifo.perform, specify, given]⟩
  | available =>
    exact ⟨⟨T, held⟩, by rw [RingBufferFifo.perform, specify, held.available_eq]⟩
  | reset => exact ⟨⟨0, held.reset⟩, rfl⟩

theorem create_represents {allocate : Allocator} {c : UInt64} (created : create allocate c = .ok r) :
    ∃ k, c.toNat = 2 ^ k ∧ Represents k 0 r {} := by
  obtain ⟨k, sized, power, rfl⟩ := create_sized created
  exact ⟨k, power, sized, counts_zero, counts_zero, Nat.zero_le _,
    fun i above below => absurd below (by simp; omega), counts_zero⟩

/-- The constructor accepts exactly the powers of two for which there is memory.
Whatever is called afterwards, every call returns what the FIFO returns, the
overruns are those of the FIFO, and no copy leaves the buffer or the caller's
array. -/
theorem ring_refines_fifo (allocate : Allocator) (c : UInt64) :
    ((∃ r, create allocate c = .ok r) ↔ allocate c = .ok () ∧ ∃ k, c.toNat = 2 ^ k) ∧
      ∀ r, create allocate c = .ok r → ∀ calls : List Op,
        Stage.outputs perform r calls = Stage.outputs (specify c.toNat) {} calls ∧
        (Stage.after perform r calls).available.toNat =
          (Stage.after (specify c.toNat) {} calls).queue.length ∧
        (Stage.after perform r calls).overruns =
          UInt64.ofNat (Stage.after (specify c.toNat) {} calls).overruns ∧
        ∀ call, ∀ copy ∈ copies (Stage.after perform r calls) call,
          copy.ring.toNat + copy.size.toNat ≤ c.toNat ∧
            copy.caller.toNat + copy.size.toNat ≤ call.len.toNat := by
  refine ⟨?_, fun r created calls => ?_⟩
  · constructor
    · rintro ⟨r, created⟩
      obtain ⟨memory, power, -⟩ := create_iff.mp created
      exact ⟨memory, power⟩
    · rintro ⟨memory, power⟩
      exact ⟨_, create_iff.mpr ⟨memory, power, rfl⟩⟩
  · obtain ⟨k, power, start⟩ := create_represents created
    rw [power]
    obtain ⟨⟨T, related⟩, same⟩ := Stage.run_simulates perform (R := Refines k)
      (fun r f call related => related.perform call) ⟨0, start⟩ calls
    exact ⟨same, related.available_eq, counts_iff.mp related.overruns,
      fun call copy member => related.copies_in_bounds member⟩

/-- A buffer of four bytes as the constructor makes it. -/
def emptyFour : RingBuffer := ⟨4, 3, fun _ => 0, 0, 0, 0⟩

theorem ring_refines_fifo_four :
    Stage.outputs perform emptyFour [.write (fun i => UInt8.ofNat i) 6, .read (fun _ => 0) 3] =
      Stage.outputs (specify 4) {} [.write (fun i => UInt8.ofNat i) 6, .read (fun _ => 0) 3] :=
  ((ring_refines_fifo .unlimited 4).2 emptyFour rfl _).1

end DmrWatchkeeper.RingBufferFifo
