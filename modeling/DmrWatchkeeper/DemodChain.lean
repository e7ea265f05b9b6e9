import DmrWatchkeeper.FskDemodulation
import DmrWatchkeeper.SlotManager
import DmrWatchkeeper.TimingRecovery

/-! One channel of `demod_chain.cpp`, from bytes to slot events: the filter and
the discriminator fill buffers, the other stages call each other. However a
stream of I/Q pairs is cut into calls, the events and the state are the same. -/
namespace DmrWatchkeeper
namespace DemodChain
open SlotManager

structure Config (F : Type) where
  channelFreqHz : F
  centreFreqHz : F
  channelIdx : ℤ
  label : String
  filter : ChannelFilter.Config F
  timing : TimingRecovery.Config F
  slicer : FskSlicer.Config F

/-- The configuration of a channel, with the defaults of the source. -/
def Config.ofChannel {F : Type} [OfScientific F] (channelFreqHz : F) (label : String) : Config F where
  channelFreqHz
  centreFreqHz := 446099000.0
  channelIdx := 0
  label
  filter := .ofChannel channelFreqHz
  timing := .default
  slicer := .default

/-- The stages that are driven by callbacks, each with the ones behind it. -/
abbrev Wired (F : Type) := TimingRecovery F × FskSlicer F × BurstSync × SlotManager

end DemodChain

open DemodChain in
structure DemodChain (F : Type) where
  cfg : Config F
  filter : ChannelFilter F
  disc : FmDiscriminator F
  timing : TimingRecovery F
  slicer : FskSlicer F
  burstSync : BurstSync
  slotMgr : SlotManager
  iqBuf : List (Complex F) := []
  discBuf : List F := []

namespace DemodChain
open SlotManager

variable {F : Type} [OfScientific F] [Add F] [Sub F] [Mul F] [Div F] [Neg F] [IntCast F] [LT F] [LE F]
  [DecidableLT F] [DecidableLE F] [CastToInt F] [FloatLib F]

/-- The filter's configuration takes its frequencies from the chain's. -/
def Config.filterConfig (cfg : Config F) : ChannelFilter.Config F :=
  { cfg.filter with channelFreqHz := cfg.channelFreqHz, centreFreqHz := cfg.centreFreqHz }

/-- The members of a constructed chain, around its filter. -/
def construct (cfg : Config F) (filter : ChannelFilter F) : DemodChain F where
  cfg
  filter
  disc := .init
  timing := .init cfg.timing
  slicer := .init cfg.slicer
  burstSync := .init cfg.channelIdx
  slotMgr := { channelIdx := cfg.channelIdx }

/-- The constructor, for a callback that is present; a filter length that the
filter refuses is refused. -/
def init (cfg : Config F) : Except String (DemodChain F) :=
  (ChannelFilter.init cfg.filterConfig).map (construct cfg)

/-- Timing recovery, slicer, burst synchroniser and slot manager, wired by the
lambdas of the constructor. -/
def wiredStep : Wired F → F → Wired F × Option SlotEvent :=
  Stage.cascade TimingRecovery.processSample
    (Stage.cascade FskSlicer.decide (Stage.cascade BurstSync.pushDibit notify))

def wired (s : DemodChain F) : Wired F := (s.timing, s.slicer, s.burstSync, s.slotMgr)

/-- `process(raw_iq, num_pairs)`: the new state and the events given to the
layer-2 callback. -/
def process (s : DemodChain F) (rawIq : ℕ → UInt8) (numPairs : ℕ) : DemodChain F × List SlotEvent :=
  let s := { s with iqBuf := [], discBuf := [] }
  let filtered := s.filter.process rawIq numPairs s.iqBuf
  let s := { s with filter := filtered.1, iqBuf := filtered.2 }
  if s.iqBuf.isEmpty then (s, [])
  else
    let demodulated := s.disc.process s.iqBuf s.discBuf
    let s := { s with disc := demodulated.1, discBuf := demodulated.2 }
    let driven := Stage.after wiredStep s.wired s.discBuf
    ({ s with
        timing := driven.1
        slicer := driven.2.1
        burstSync := driven.2.2.1
        slotMgr := driven.2.2.2 }, Stage.outputs wiredStep s.wired s.discBuf)

/-- A sequence of calls of `process`. -/
def processAll (s : DemodChain F) (calls : List ((ℕ → UInt8) × ℕ)) : DemodChain F × List SlotEvent :=
  Stage.batched (fun s call => process s call.1 call.2) s calls

/-! ### Diagnostics -/

def symbolsRecovered (s : DemodChain F) : UInt64 := s.timing.symbolCount

def timingOmega (s : DemodChain F) : F := s.timing.omega

def slicerOuter (s : DemodChain F) : F := s.slicer.posPeak

def burstsDetected (s : DemodChain F) : UInt64 := s.burstSync.burstCount

def slotState (s : DemodChain F) (ts : ℤ) : SlotState := s.slotMgr.slotState ts

/-! ### The chain as one stage -/

/-- What a chain carries from one call to the next. -/
abbrev Carried (F : Type) := ChannelFilter F × FmDiscriminator F × Wired F

def carried (s : DemodChain F) : Carried F := (s.filter, s.disc, s.wired)

/-- The chain as a stage that is fed one I/Q pair at a time. -/
def pairStep : Carried F → UInt8 × UInt8 → Carried F × Option SlotEvent :=
  Stage.cascade ChannelFilter.processPair (Stage.cascade FmDiscriminator.processSample wiredStep)

/-- The I/Q pairs handed over by a sequence of calls. -/
def pairStream (calls : List ((ℕ → UInt8) × ℕ)) : List (UInt8 × UInt8) :=
  calls.flatMap fun call => ChannelFilter.pairsOf call.1 call.2

omit [Neg F] in
/-- A call is a run of the stage over its pairs. Without a filtered sample, the
stages that the early return skips would have had nothing to do. -/
theorem process_run (s : DemodChain F) (rawIq : ℕ → UInt8) (numPairs : ℕ) :
    (s.process rawIq numPairs).1.carried =
        Stage.after pairStep s.carried (ChannelFilter.pairsOf rawIq numPairs) ∧
      (s.process rawIq numPairs).2 =
        Stage.outputs pairStep s.carried (ChannelFilter.pairsOf rawIq numPairs) := by
  simp only [carried, pairStep, Stage.after_cascade, Stage.outputs_cascade, process,
    ChannelFilter.process_eq, FmDiscriminator.process_eq, List.nil_append, List.isEmpty_iff]
  by_cases empty : Stage.outputs ChannelFilter.processPair s.filter
      (ChannelFilter.pairsOf rawIq numPairs) = []
  · rw [if_pos empty, empty]
    exact ⟨rfl, rfl⟩
  · rw [if_neg empty]
    exact ⟨rfl, rfl⟩

omit [Neg F] in
/-- A sequence of calls is a run of the stage over all their pairs. -/
theorem processAll_run (s : DemodChain F) (calls : List ((ℕ → UInt8) × ℕ)) :
    (s.processAll calls).1.carried = Stage.after pairStep s.carried (pairStream calls) ∧
      (s.processAll calls).2 = Stage.outputs pairStep s.carried (pairStream calls) := by
  have runs := Stage.batched_run pairStep (fun (s : DemodChain F) (call : _ × ℕ) => process s call.1 call.2)
    carried (fun call => ChannelFilter.pairsOf call.1 call.2) (fun s call => process_run s call.1 call.2)
    s calls
  rw [processAll, pairStream]
  exact runs

omit [Neg F] in
/-- Block-boundary independence: two ways of cutting a stream of I/Q pairs into
calls give the same events and leave the same state, and so the same
diagnostics. -/
theorem process_cut_independent (s : DemodChain F) (calls calls' : List ((ℕ → UInt8) × ℕ))
    (same : pairStream calls = pairStream calls') :
    (s.processAll calls).2 = (s.processAll calls').2 ∧
      (s.processAll calls).1.carried = (s.processAll calls').1.carried ∧
      (s.processAll calls).1.symbolsRecovered = (s.processAll calls').1.symbolsRecovered ∧
      (s.processAll calls).1.burstsDetected = (s.processAll calls').1.burstsDetected ∧
      (∀ ts, (s.processAll calls).1.slotState ts = (s.processAll calls').1.slotState ts) ∧
      (s.processAll calls).1.timingOmega = (s.processAll calls').1.timingOmega ∧
      (s.processAll calls).1.slicerOuter = (s.processAll calls').1.slicerOuter := by
  obtain ⟨state, events⟩ := processAll_run s calls
  obtain ⟨state', events'⟩ := processAll_run s calls'
  rw [← same] at state' events'
  have carries := state.trans state'.symm
  have wires : (s.processAll calls).1.wired = (s.processAll calls').1.wired :=
    congrArg (fun c => c.2.2) carries
  refine ⟨events.trans events'.symm, carries, ?_, ?_, fun ts => ?_, ?_, ?_⟩
  · exact congrArg (fun w => w.1.symbolCount) wires
  · exact congrArg (fun w => w.2.2.1.burstCount) wires
  · exact congrArg (fun w => w.2.2.2.slotState ts) wires
  · exact congrArg (fun w => w.1.omega) wires
  · exact congrArg (fun w => w.2.1.posPeak) wires

/-! ### Single precision -/

instance : IntCast Float32 := ⟨Float32.ofInt⟩

instance : CastToInt Float32 := ⟨fun x => x.toInt32.toInt⟩

instance : FloatLib Float32 where
  pi := 3.14159265358979323846
  sin := Float32.sin
  cos := Float32.cos
  abs z := (z.real * z.real + z.imag * z.imag).sqrt
  mul z w := ⟨z.real * w.real - z.imag * w.imag, z.real * w.imag + z.imag * w.real⟩

/-- A new chain in the configuration of channel `446.106`. -/
def newChain : DemodChain Float32 :=
  let cfg : Config Float32 := .ofChannel 446106250.0 "446.106"
  construct cfg (.construct cfg.filterConfig)

/-- The pairs of three bursts' time in one call, or in two with an empty call
between them. -/
theorem process_cut_independent_three_bursts :
    (newChain.processAll [(fun i => i.toUInt8, 21000)]).2 =
        (newChain.processAll [(fun i => i.toUInt8, 1234), (fun _ => 0, 0), (fun i => (2 * 1234 + i).toUInt8, 19766)]).2 ∧
      (newChain.processAll [(fun i => i.toUInt8, 21000)]).1.carried =
        (newChain.processAll
          [(fun i => i.toUInt8, 1234), (fun _ => 0, 0), (fun i => (2 * 1234 + i).toUInt8, 19766)]).1.carried := by
  have same : pairStream [(fun i => i.toUInt8, 21000)] =
      pairStream [(fun i => i.toUInt8, 1234), (fun _ => 0, 0), (fun i => (2 * 1234 + i).toUInt8, 19766)] := by
    have none : ChannelFilter.pairsOf (fun _ => 0) 0 = [] := rfl
    simp only [pairStream, List.flatMap_cons, List.flatMap_nil, List.append_nil, none, List.nil_append]
    exact ChannelFilter.pairsOf_add (fun i => i.toUInt8) 1234 19766
  obtain ⟨events, carries, -⟩ := process_cut_independent newChain [(fun i => i.toUInt8, 21000)]
    [(fun i => i.toUInt8, 1234), (fun _ => 0, 0), (fun i => (2 * 1234 + i).toUInt8, 19766)] same
  exact ⟨events, carries⟩

end DemodChain
end DmrWatchkeeper
