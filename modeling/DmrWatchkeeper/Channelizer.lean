import DmrWatchkeeper.Library.PairedStream
import DmrWatchkeeper.RingBufferThreads

/-! The capture callback and the channelizer thread of `main.cpp` on the two
ends of the ring. A delivery is a number of I/Q pairs, as the device sends
them; the thread polls `available`, reads a block and hands it to each chain.
What deliveries and reads have done so far is recorded beside the state. -/
namespace DmrWatchkeeper.Channelizer
open RingBufferCopies RingBufferThreads PairedStream

def blockPairs : ℕ := 2048

def blockBytes : UInt64 := 4096

/-- Where `channelizer_thread` is. -/
inductive Thread where
  /-- At the condition of the outer loop. -/
  | outer
  /-- In `available`, before the first load. -/
  | polling
  /-- In `available`, with the head loaded. -/
  | polled (head : UInt64)
  /-- At the test of the inner loop, with too few bytes reported. -/
  | inner
  /-- In `read`. -/
  | reading
  /-- In the loop over the chains. -/
  | handing (next : ℕ)
  | returned

structure State where
  threads : RingBufferThreads.State
  running : Bool := true
  thread : Thread := .outer
  block : ℕ → UInt8 := fun _ => 0
  /-- The blocks that each chain was given. -/
  chains : List (List (List UInt8))
  /-- The delivery that `on_samples` was last called with. -/
  current : (ℕ → UInt8 × UInt8) × ℕ := (fun _ => (0, 0), 0)
  /-- Completed deliveries, and what the ring kept of each. -/
  deliveries : List (List (UInt8 × UInt8)) := []
  kept : List (List (UInt8 × UInt8)) := []
  /-- The numbers of bytes that completed reads gave. -/
  reads : List UInt64 := []
  /-- The blocks that were read in full. -/
  blocks : List (List UInt8) := []

inductive Turn where
  /-- The reader thread, in or about to enter `on_samples` with this many pairs;
  their byte count is a `uint32_t`. -/
  | capture (pairs : ℕ → UInt8 × UInt8) (count : Fin (2 ^ 31))
  | channelizer
  /-- The signal handler. -/
  | signal

/-- A step of `on_samples`. -/
def captureStep (s : State) (pairs : ℕ → UInt8 × UInt8) (count : ℕ) : State :=
  let current := match s.threads.producer with
    | .idle => (pairs, count)
    | _ => s.current
  let data := components pairs
  let len := UInt64.ofNat (2 * count)
  let threads := RingBufferThreads.step s.threads (.producer data len)
  match (produce s.threads.ring data len s.threads.producer).2.2 with
  | none => { s with threads, current }
  | some accepted => { s with
      threads
      current
      deliveries := s.deliveries ++ [(List.range current.2).map current.1]
      kept := s.kept ++ [(List.range (accepted.length / 2)).map current.1] }

/-- A step of `channelizer_thread`. -/
def threadStep (s : State) : State :=
  match s.thread with
  | .outer => { s with thread := if s.running then .polling else .returned }
  | .polling => { s with thread := .polled s.threads.ring.head }
  | .polled head =>
    { s with thread := if head - s.threads.ring.tail < blockBytes then .inner else .reading }
  | .inner => { s with thread := if !s.running then .returned else .polling }
  | .reading =>
    let threads := RingBufferThreads.step s.threads (.consumer s.block blockBytes)
    match (consume s.threads.ring s.block blockBytes s.threads.consumer).2.2 with
    | none => { s with threads }
    | some (block, got) =>
      if got < blockBytes then { s with threads, block, reads := s.reads ++ [got], thread := .outer }
      else { s with
        threads
        block
        reads := s.reads ++ [got]
        blocks := s.blocks ++ [bytes block blockBytes.toNat]
        thread := .handing 0 }
  | .handing next =>
    if next < s.chains.length then
      { s with
        chains := s.chains.modify next (· ++ [bytes s.block (2 * blockPairs)])
        thread := .handing (next + 1) }
    else { s with thread := .outer }
  | .returned => s

def step (s : State) : Turn → State
  | .capture pairs count => captureStep s pairs count
  | .channelizer => threadStep s
  | .signal => { s with running := false }

end DmrWatchkeeper.Channelizer
