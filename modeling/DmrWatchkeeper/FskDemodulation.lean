import DmrWatchkeeper.ChannelFilter

/-! From complex samples to frequency, and from symbols to dibits: the
discriminator of `fm_discriminator.cpp` and the slicer of `fsk_slicer.cpp`. -/
namespace DmrWatchkeeper

structure FmDiscriminator (F : Type) where
  prev : Complex F

namespace FmDiscriminator
variable {F : Type} [OfScientific F] [Sub F] [Mul F]

def init : FmDiscriminator F where
  prev := ⟨1.0, 0.0⟩

/-- The loop body of `process`: `Im(z[n] * conj(z[n-1]))`. -/
def processSample (s : FmDiscriminator F) (z : Complex F) : FmDiscriminator F × Option F :=
  let disc := z.imag * s.prev.real - z.real * s.prev.imag
  ({ s with prev := z }, some disc)

/-- `process(in, out)`: one value is appended to `out` for each sample. -/
def process (s : FmDiscriminator F) (samples : List (Complex F)) (out : List F) :
    FmDiscriminator F × List F :=
  samples.foldl (fun acc z =>
    let r := processSample acc.1 z
    (r.1, acc.2 ++ r.2.toList)) (s, out)

omit [OfScientific F] in
theorem process_eq (s : FmDiscriminator F) (samples : List (Complex F)) (out : List F) :
    process s samples out = (Stage.after processSample s samples,
      out ++ Stage.outputs processSample s samples) :=
  Stage.foldl_collect processSample s out samples

end FmDiscriminator

namespace FskSlicer

structure Config (F : Type) where
  /-- Smoothing of the peak tracking. -/
  emaAlpha : F
  /-- The first estimate of the outer level. -/
  initOuter : F
  /-- The fraction of the estimate from which a symbol counts as outer. -/
  outerThresh : F

def Config.default {F : Type} [OfScientific F] : Config F where
  emaAlpha := 0.01
  initOuter := 0.02
  outerThresh := 0.6

end FskSlicer

open FskSlicer in
structure FskSlicer (F : Type) where
  cfg : Config F
  posPeak : F
  negPeak : F

namespace FskSlicer
variable {F : Type} [OfScientific F] [Add F] [Sub F] [Mul F] [Neg F] [LT F] [LE F] [DecidableLT F]
  [DecidableLE F]

/-- The constructor, for a callback that is present. -/
def init (cfg : Config F) : FskSlicer F where
  cfg
  posPeak := cfg.initOuter
  negPeak := -cfg.initOuter

/-- The update of the outer level estimates. -/
def track (s : FskSlicer F) (v : F) : FskSlicer F :=
  let outerThreshPos := s.cfg.outerThresh * s.posPeak
  let outerThreshNeg := s.cfg.outerThresh * s.negPeak
  if outerThreshPos < v then
    { s with posPeak := s.posPeak + s.cfg.emaAlpha * (v - s.posPeak) }
  else if v < outerThreshNeg then
    { s with negPeak := s.negPeak + s.cfg.emaAlpha * (v - s.negPeak) }
  else s

/-- The decision between the four levels. -/
def slice (s : FskSlicer F) (v : F) : UInt8 :=
  let thrHigh := s.posPeak * 0.5
  let thrZero : F := 0.0
  let thrLow := s.negPeak * 0.5
  if thrHigh ≤ v then 1 else if thrZero ≤ v then 0 else if thrLow ≤ v then 2 else 3

/-- `decide(v)`: the new state and the dibit given to the callback. -/
def decide (s : FskSlicer F) (v : F) : FskSlicer F × Option UInt8 :=
  let s := s.track v
  (s, some (s.slice v))

end FskSlicer
end DmrWatchkeeper
