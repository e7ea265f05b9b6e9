import DmrWatchkeeper.Library.Stage
import Mathlib.Data.Int.Cast.Defs

/-! The channel filter of `channel_filter.cpp`: a phasor that shifts the channel
to baseband, a windowed-sinc low-pass filter, and decimation. `F` is any number
type with the operations that the source uses on `float`. -/
namespace DmrWatchkeeper

/-- `std::complex<float>` -/
structure Complex (F : Type) where
  real : F
  imag : F

/-- What the source takes from the mathematics library. -/
class FloatLib (F : Type) where
  /-- `M_PI` -/
  pi : F
  sin : F → F
  cos : F → F
  /-- `std::abs(std::complex<float>)` -/
  abs : Complex F → F
  /-- `std::complex<float>::operator*=` -/
  mul : Complex F → Complex F → Complex F

namespace ChannelFilter

structure Config (F : Type) where
  channelFreqHz : F
  centreFreqHz : F
  inputRate : F
  cutoffHz : F
  /-- The length of the filter. -/
  numTaps : ℕ
  decimation : ℤ

/-- The configuration for a channel, with the defaults of the source. -/
def Config.ofChannel {F : Type} [OfScientific F] (channelFreqHz : F) : Config F where
  channelFreqHz
  centreFreqHz := 446099000.0
  inputRate := 250000.0
  cutoffHz := 5000.0
  numTaps := 129
  decimation := 10

end ChannelFilter

open ChannelFilter in
structure ChannelFilter (F : Type) where
  cfg : Config F
  taps : List F
  /-- The latest samples, newest first. -/
  delay : List (Complex F)
  osc : Complex F
  oscStep : Complex F
  decimCount : ℤ
  oscNormCounter : ℤ

namespace ChannelFilter
variable {F : Type} [OfScientific F] [Add F] [Sub F] [Mul F] [Div F] [Neg F] [IntCast F] [FloatLib F]

/-- `static_cast<float>(M_PI)` -/
def pi : F := FloatLib.pi

/-- Coefficient `i` before normalisation: ideal low-pass times Hamming window. -/
def windowedSinc (numTaps : ℕ) (fc : F) (i : ℕ) : F :=
  let half : ℤ := numTaps / 2
  let n : ℤ := i - half
  let h : F := if n = 0 then 2.0 * pi * fc
    else FloatLib.sin (2.0 * pi * fc * (n : F)) / (pi * (n : F))
  let w : F := 0.54 - 0.46 * FloatLib.cos (2.0 * pi * ((i : ℤ) : F) / (((numTaps : ℤ) - 1 : ℤ) : F))
  h * w

/-- `design_filter()`: the coefficients, for unity gain at zero frequency. -/
def designFilter (cfg : Config F) : List F :=
  let fc := cfg.cutoffHz / cfg.inputRate
  let taps := (List.range cfg.numTaps).map (windowedSinc cfg.numTaps fc)
  let sum := taps.foldl (· + ·) 0.0
  taps.map (· / sum)

/-- The members as the constructor leaves them. -/
def construct (cfg : Config F) : ChannelFilter F :=
  let offsetHz := cfg.channelFreqHz - cfg.centreFreqHz
  let phaseInc := -2.0 * pi * offsetHz / cfg.inputRate
  { cfg
    taps := designFilter cfg
    delay := List.replicate cfg.numTaps ⟨0.0, 0.0⟩
    osc := ⟨1.0, 0.0⟩
    oscStep := ⟨FloatLib.cos phaseInc, FloatLib.sin phaseInc⟩
    decimCount := 0
    oscNormCounter := 0 }

/-- The constructor. -/
def init (cfg : Config F) : Except String (ChannelFilter F) :=
  if cfg.numTaps % 2 = 0 then .error "ChannelFilter: num_taps must be odd" else .ok (construct cfg)

/-- A received byte as a number in the range ±1. -/
def ofByte (byte : UInt8) : F := (((byte.toNat : ℤ) : F) - 127.5) / 127.5

/-- The oscillator after a sample, renormalised on every 1024th. -/
def advanceOsc (s : ChannelFilter F) : ChannelFilter F :=
  let osc := FloatLib.mul s.osc s.oscStep
  if s.oscNormCounter + 1 ≥ 1024 then
    let magnitude := FloatLib.abs osc
    { s with oscNormCounter := 0, osc := ⟨osc.real / magnitude, osc.imag / magnitude⟩ }
  else { s with oscNormCounter := s.oscNormCounter + 1, osc }

/-- The FIR dot product: real taps, complex delay line. -/
def firOutput (s : ChannelFilter F) : Complex F :=
  (s.taps.zip s.delay).foldl (fun acc e => ⟨acc.real + e.1 * e.2.real, acc.imag + e.1 * e.2.imag⟩)
    ⟨0.0, 0.0⟩

/-- The loop body of `process`: one I/Q pair, and the sample put out if any. -/
def processPair (s : ChannelFilter F) (pair : UInt8 × UInt8) : ChannelFilter F × Option (Complex F) :=
  let sample := FloatLib.mul ⟨ofByte pair.1, ofByte pair.2⟩ s.osc
  let s := s.advanceOsc
  -- The shift right by one drops the oldest sample.
  let s := { s with delay := sample :: s.delay.dropLast }
  if s.decimCount + 1 ≥ s.cfg.decimation then
    let s := { s with decimCount := 0 }
    (s, some s.firOutput)
  else ({ s with decimCount := s.decimCount + 1 }, none)

/-- The I/Q pairs in the first `2 * numPairs` bytes of a buffer. -/
def pairsOf (rawIq : ℕ → UInt8) (numPairs : ℕ) : List (UInt8 × UInt8) :=
  (List.range numPairs).map fun k => (rawIq (2 * k), rawIq (2 * k + 1))

theorem pairsOf_add (rawIq : ℕ → UInt8) (m n : ℕ) :
    pairsOf rawIq (m + n) = pairsOf rawIq m ++ pairsOf (fun i => rawIq (2 * m + i)) n := by
  simp only [pairsOf, List.range_add, List.map_append, List.map_map]
  refine congrArg _ (List.map_congr_left fun k _ => ?_)
  simp only [Function.comp_apply, Nat.mul_add, Nat.add_assoc]

/-- `process(raw_iq, num_pairs, out)`: samples are appended to `out`. -/
def process (s : ChannelFilter F) (rawIq : ℕ → UInt8) (numPairs : ℕ) (out : List (Complex F)) :
    ChannelFilter F × List (Complex F) :=
  (List.range numPairs).foldl (fun acc k =>
    let r := processPair acc.1 (rawIq (2 * k), rawIq (2 * k + 1))
    (r.1, acc.2 ++ r.2.toList)) (s, out)

omit [Neg F] in
theorem process_eq (s : ChannelFilter F) (rawIq : ℕ → UInt8) (numPairs : ℕ)
    (out : List (Complex F)) : process s rawIq numPairs out =
      (Stage.after processPair s (pairsOf rawIq numPairs),
        out ++ Stage.outputs processPair s (pairsOf rawIq numPairs)) := by
  rw [← Stage.foldl_collect, pairsOf, List.foldl_map]
  rfl

end ChannelFilter
end DmrWatchkeeper
