import DmrWatchkeeper.Channel
import DmrWatchkeeper.Channelizer
import DmrWatchkeeper.DemodChain

/-! The program of `main.cpp`: the capture callback, the channelizer thread with
a chain and a layer-2 callback for each channel, the status loop of `main`, and
the signal handler. A turn goes to any of them in any order. The number type of
the chains is `F`, that of the coordinates in the events is `D`. -/
namespace DmrWatchkeeper
namespace Monitor
open Channel SlotManager

structure ChannelDef (F : Type) where
  freqHz : F
  label : String

/-- `CHANNELS` -/
def channelTable {F : Type} [OfScientific F] : List (ChannelDef F) :=
  [⟨446006250.0, "446.006"⟩, ⟨446018750.0, "446.019"⟩, ⟨446031250.0, "446.031"⟩,
    ⟨446043750.0, "446.044"⟩, ⟨446056250.0, "446.056"⟩, ⟨446068750.0, "446.069"⟩,
    ⟨446081250.0, "446.081"⟩, ⟨446093750.0, "446.094"⟩, ⟨446106250.0, "446.106"⟩,
    ⟨446118750.0, "446.119"⟩, ⟨446131250.0, "446.131"⟩, ⟨446143750.0, "446.144"⟩,
    ⟨446156250.0, "446.156"⟩, ⟨446168750.0, "446.169"⟩, ⟨446181250.0, "446.181"⟩,
    ⟨446193750.0, "446.194"⟩]

/-- A line of the summary: the bursts since the last one, and both timeslots. -/
structure SummaryLine where
  label : String
  bursts : UInt64
  ts1 : SlotState
  ts2 : SlotState

/-- Where the thread of `main` is. -/
inductive Main where
  /-- At the condition of the status loop. -/
  | loop
  | sleeping
  /-- In the loop over the channels. -/
  | summary (next : ℕ)
  /-- About to print the line of the capture. -/
  | totals
  /-- In `chann_thread.join()`. -/
  | joining
  /-- At `cap.stop()`. -/
  | stopping

end Monitor

open Monitor Channel in
structure Monitor (F D : Type) where
  system : Channelizer.State
  chains : List (DemodChain F)
  /-- The lines given to `emit`. -/
  emitted : List (Event D) := []
  main : Main := .loop
  tick : ℤ := 0
  prevBursts : List UInt64
  /-- The printed lines of the channels, each with the index of its channel. -/
  lines : List (ℕ × SummaryLine) := []
  /-- The overrun counts that were printed. -/
  overruns : List UInt64 := []

namespace Monitor
open Channel SlotManager
open Channelizer (blockPairs)

variable {F D : Type} [OfScientific F] [Add F] [Sub F] [Mul F] [Div F] [Neg F] [IntCast F] [LT F] [LE F]
  [DecidableLT F] [DecidableLE F] [CastToInt F] [FloatLib F]
  [IntCast D] [Mul D] [Div D] [Neg D] [LT D] [DecidableLT D] [BEq D]

/-- The chains that `main` builds. -/
def newChains : Except String (List (DemodChain F)) :=
  channelTable.zipIdx.mapM fun c =>
    DemodChain.init { DemodChain.Config.ofChannel c.1.freqHz c.1.label with channelIdx := c.2 }

/-- The threads are started, and nothing is captured yet. -/
def start (ring : RingBuffer) (chains : List (DemodChain F)) : Monitor F D where
  system := { threads := { ring }, chains := List.replicate chains.length [] }
  chains
  prevBursts := List.replicate chains.length 0

/-- `chain->process(block.data(), BLOCK_PAIRS)`, with the lines that the layer-2
callback of the chain emits. -/
def demodulate (s : Monitor F D) (i : ℕ) : Monitor F D :=
  match s.chains[i]? with
  | none => s
  | some chain =>
    let r := chain.process s.system.block blockPairs
    { s with
      chains := s.chains.set i r.1
      emitted := s.emitted ++ r.2.filterMap (layer2 chain.cfg.label) }

/-- A step of the capture callback, of the channelizer thread or of the handler. -/
def systemStep (s : Monitor F D) (turn : Channelizer.Turn) : Monitor F D :=
  let t := match turn, s.system.thread with
    | .channelizer, .handing next => s.demodulate next
    | _, _ => s
  { t with system := Channelizer.step s.system turn }

/-- The part of a summary for a channel: a line where there are new bursts. -/
def summarise (s : Monitor F D) (i : ℕ) (chain : DemodChain F) : Monitor F D :=
  let b := chain.burstsDetected
  let d := b - s.prevBursts.getD i 0
  let s := { s with prevBursts := s.prevBursts.set i b }
  if d > 0 then
    let line : SummaryLine :=
      { label := chain.cfg.label, bursts := d, ts1 := chain.slotState 1, ts2 := chain.slotState 2 }
    { s with lines := s.lines ++ [(i, line)] }
  else s

/-- A step of `main`, behind the creation of the threads. -/
def mainStep (s : Monitor F D) : Monitor F D :=
  match s.main with
  | .loop => { s with main := if s.system.running then .sleeping else .joining }
  | .sleeping =>
    if s.tick + 1 < 10 then { s with tick := s.tick + 1, main := .loop }
    else { s with tick := 0, main := .summary 0 }
  | .summary next => match s.chains[next]? with
    | some chain => { s.summarise next chain with main := .summary (next + 1) }
    | none => { s with main := .totals }
  | .totals =>
    { s with overruns := s.overruns ++ [s.system.threads.ring.overruns], main := .loop }
  | .joining => match s.system.thread with
    | .returned => { s with main := .stopping }
    | _ => s
  | .stopping => s

inductive Turn where
  | system (turn : Channelizer.Turn)
  | main

def step (s : Monitor F D) : Turn → Monitor F D
  | .system turn => s.systemStep turn
  | .main => s.mainStep

/-- The turns of the capture callback, the channelizer thread and the handler. -/
def systemTurns (turns : List Turn) : List Channelizer.Turn :=
  turns.filterMap fun
    | .system turn => some turn
    | .main => none

end Monitor
end DmrWatchkeeper
