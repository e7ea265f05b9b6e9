import DmrWatchkeeper.RingBufferCopies

/-! One producer and one consumer on the ring buffer, one memory access at a
time: load the own index, load the other party's index, copy byte by byte,
store the own index. A turn is given to either party in any order; a party
between calls begins the call that its turn names. -/
namespace DmrWatchkeeper.RingBufferThreads
open RingBuffer RingBufferCopies FreeRunning

/-- Where the producer is in `write`. -/
inductive Producer where
  | idle
  | loadedHead (data : ℕ → UInt8) (len head : UInt64)
  | copying (data : ℕ → UInt8) (head len : UInt64) (rest : List (ℕ × ℕ))

/-- Where the consumer is in `read`. -/
inductive Consumer where
  | idle
  | loadedTail (dest : ℕ → UInt8) (len tail : UInt64)
  | copying (dest : ℕ → UInt8) (tail len : UInt64) (rest : List (ℕ × ℕ))

/-- The producer's next step, and the accepted bytes when `write` returns. -/
def produce (r : RingBuffer) (data : ℕ → UInt8) (len : UInt64) :
    Producer → RingBuffer × Producer × Option (List UInt8)
  | .idle => (r, .loadedHead data len r.head, none)
  | .loadedHead data len head =>
    let n := r.writeLen head r.tail len
    let r' := { r with overruns := r.countOverrun head r.tail len }
    if n = 0 then (r', .idle, some []) else (r', .copying data head n (r.moves head n), none)
  | .copying data head n ((cell, i) :: rest) =>
    ({ r with buf := Function.update r.buf cell (data i) }, .copying data head n rest, none)
  | .copying data head n [] => ({ r with head := head + n }, .idle, some (bytes data n.toNat))

/-- The consumer's next step, and the caller's array with the number of bytes
given when `read` returns. -/
def consume (r : RingBuffer) (dest : ℕ → UInt8) (len : UInt64) :
    Consumer → RingBuffer × Consumer × Option ((ℕ → UInt8) × UInt64)
  | .idle => (r, .loadedTail dest len r.tail, none)
  | .loadedTail dest len tail =>
    let n := readLen r.head tail len
    if n = 0 then (r, .idle, some (dest, 0)) else (r, .copying dest tail n (r.moves tail n), none)
  | .copying dest tail n ((cell, i) :: rest) =>
    (r, .copying (Function.update dest i (r.buf cell)) tail n rest, none)
  | .copying dest tail n [] => ({ r with tail := tail + n }, .idle, some (dest, n))

/-- The ring, the two parties, and what the returned calls have accepted and
given so far. -/
structure State where
  ring : RingBuffer
  producer : Producer := .idle
  consumer : Consumer := .idle
  accepted : List UInt8 := []
  returned : List UInt8 := []

inductive Turn where
  | producer (data : ℕ → UInt8) (len : UInt64)
  | consumer (dest : ℕ → UInt8) (len : UInt64)

/-- The bytes that a returned `read` has given. -/
def givenBytes (result : Option ((ℕ → UInt8) × UInt64)) : List UInt8 :=
  (result.map fun given => bytes given.1 given.2.toNat).getD []

@[simp] theorem givenBytes_none : givenBytes none = [] := rfl

@[simp] theorem givenBytes_some (dest : ℕ → UInt8) (n : UInt64) :
    givenBytes (some (dest, n)) = bytes dest n.toNat := rfl

def step (s : State) : Turn → State
  | .producer data len =>
    let out := produce s.ring data len s.producer
    { s with ring := out.1, producer := out.2.1, accepted := s.accepted ++ out.2.2.getD [] }
  | .consumer dest len =>
    let out := consume s.ring dest len s.consumer
    { s with ring := out.1, consumer := out.2.1, returned := s.returned ++ givenBytes out.2.2 }

/-- The cells of the bytes that are published and not yet released. -/
def unreadCells (r : RingBuffer) : List ℕ :=
  (List.range (r.head - r.tail).toNat).map fun i => ((r.tail + UInt64.ofNat i) &&& r.mask).toNat

/-- The cell that the producer's next step writes. -/
def Producer.next : Producer → Option ℕ
  | .copying _ _ _ ((cell, _) :: _) => some cell
  | _ => none

/-- The cell that the consumer's next step reads. -/
def Consumer.next : Consumer → Option ℕ
  | .copying _ _ _ ((cell, _) :: _) => some cell
  | _ => none

/-- The cells of the copy that the consumer is in the middle of. -/
def Consumer.cells (r : RingBuffer) : Consumer → List ℕ
  | .copying _ tail len _ => (r.moves tail len).map Prod.fst
  | _ => []

/-- No cell is touched by both parties at once, the distance of the indices is
in range, the indices count the bytes accepted and given, and what is accepted
and not yet given lies in the unread cells. -/
structure Safe (s : State) : Prop where
  writes_free : ∀ cell, s.producer.next = some cell →
    cell ∉ unreadCells s.ring ∧ cell ∉ s.consumer.cells s.ring
  reads_published : ∀ cell, s.consumer.next = some cell → cell ∈ unreadCells s.ring
  bounded : s.ring.head - s.ring.tail ≤ s.ring.capacity
  head_counts : Counts s.ring.head s.accepted.length
  tail_counts : Counts s.ring.tail s.returned.length
  delivered : s.returned <+: s.accepted
  kept : s.returned ++ (unreadCells s.ring).map s.ring.buf = s.accepted

end DmrWatchkeeper.RingBufferThreads
