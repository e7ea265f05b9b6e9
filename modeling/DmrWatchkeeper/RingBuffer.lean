import Mathlib.Logic.Function.Basic
import Mathlib.Data.Nat.Notation

/-! The circular buffer of `ringbuffer.cpp`. `size_t` has 64 bits. The array
behind `buf_` and the caller's arrays are memories addressed from their first
byte; a `memcpy` is the list of byte moves that it makes. -/
namespace DmrWatchkeeper

structure RingBuffer where
  capacity : UInt64
  /-- `capacity - 1`. -/
  mask : UInt64
  buf : ℕ → UInt8
  /-- Next write position. -/
  head : UInt64
  /-- Next read position. -/
  tail : UInt64
  overruns : UInt64

namespace RingBuffer

def isPowerOfTwo (v : UInt64) : Bool := v != 0 && (v &&& (v - 1)) == 0

/-- What `std::make_unique<uint8_t[]>` does for a number of bytes: it gives an
array of zeros, or throws. -/
abbrev Allocator := UInt64 → Except String Unit

/-- There is memory for every size. -/
def Allocator.unlimited : Allocator := fun _ => .ok ()

/-- The constructor, which allocates before it tests the capacity. -/
def create (allocate : Allocator) (capacityBytes : UInt64) : Except String RingBuffer :=
  match allocate capacityBytes with
  | .error thrown => .error thrown
  | .ok () =>
    if !isPowerOfTwo capacityBytes then .error "RingBuffer: capacity must be a power of two"
    else .ok {
      capacity := capacityBytes
      mask := capacityBytes - 1
      buf := fun _ => 0
      head := 0
      tail := 0
      overruns := 0 }

/-- One `memcpy` of `size` bytes between offset `ring` of `buf_` and offset
`caller` of the caller's array. -/
structure Chunk where
  ring : UInt64
  caller : UInt64
  size : UInt64

/-- The copies that `write` and `read` make for `len` bytes from index `index`
on: up to the physical end of the buffer, and the rest from its start. -/
def chunks (r : RingBuffer) (index len : UInt64) : List Chunk :=
  let pos := index &&& r.mask
  let firstChunk := min len (r.capacity - pos)
  ⟨pos, 0, firstChunk⟩ :: if firstChunk < len then [⟨0, firstChunk, len - firstChunk⟩] else []

/-- The byte moves of a copy: the offset in `buf_` and the caller's offset. -/
def Chunk.moves (c : Chunk) : List (ℕ × ℕ) :=
  (List.range c.size.toNat).map fun i => (c.ring.toNat + i, c.caller.toNat + i)

def moves (r : RingBuffer) (index len : UInt64) : List (ℕ × ℕ) :=
  (r.chunks index len).flatMap Chunk.moves

/-- The length that `write` goes on with, from the two loaded indices. -/
def writeLen (r : RingBuffer) (head tail len : UInt64) : UInt64 :=
  let freeSpace := r.capacity - (head - tail)
  if len > freeSpace then freeSpace else len

/-- The length that `read` goes on with, from the two loaded indices. -/
def readLen (head tail len : UInt64) : UInt64 :=
  let avail := head - tail
  if len > avail then avail else len

/-- The overrun count after `write` has compared its length. -/
def countOverrun (r : RingBuffer) (head tail len : UInt64) : UInt64 :=
  if len > r.capacity - (head - tail) then r.overruns + 1 else r.overruns

/-- Copies the caller's bytes into `buf_`. -/
def copyIn (data : ℕ → UInt8) (buf : ℕ → UInt8) (moves : List (ℕ × ℕ)) : ℕ → UInt8 :=
  moves.foldl (fun buf move => Function.update buf move.1 (data move.2)) buf

/-- Copies bytes of `buf_` to the caller. -/
def copyOut (buf : ℕ → UInt8) (dest : ℕ → UInt8) (moves : List (ℕ × ℕ)) : ℕ → UInt8 :=
  moves.foldl (fun dest move => Function.update dest move.2 (buf move.1)) dest

/-- `write(data, len)`: the number of bytes accepted. -/
def write (r : RingBuffer) (data : ℕ → UInt8) (len : UInt64) : RingBuffer × UInt64 :=
  let overruns := r.countOverrun r.head r.tail len
  let len := r.writeLen r.head r.tail len
  if len = 0 then ({ r with overruns }, 0)
  else
    ({ r with
        overruns
        buf := copyIn data r.buf (r.moves r.head len)
        head := r.head + len }, len)

/-- `read(dest, len)`: the caller's array afterwards and the number of bytes
given. -/
def read (r : RingBuffer) (dest : ℕ → UInt8) (len : UInt64) : RingBuffer × (ℕ → UInt8) × UInt64 :=
  let len := readLen r.head r.tail len
  if len = 0 then (r, dest, 0)
  else ({ r with tail := r.tail + len }, copyOut r.buf dest (r.moves r.tail len), len)

def available (r : RingBuffer) : UInt64 := r.head - r.tail

def reset (r : RingBuffer) : RingBuffer := { r with head := 0, tail := 0, overruns := 0 }

end RingBuffer
end DmrWatchkeeper
