import DmrWatchkeeper.Library.Stage
import Mathlib.Data.Int.Cast.Defs
import Mathlib.Data.Vector.Basic

/-! The symbol timing loop of `timing_recovery.cpp`, over any number type `F`
with the operations that the source uses on `float`. -/
namespace DmrWatchkeeper

/-- `static_cast<int>`. -/
class CastToInt (F : Type) where
  toInt : F → ℤ

namespace TimingRecovery

structure Config (F : Type) where
  /-- Nominal samples per symbol. -/
  nominalSps : F
  /-- Proportional gain. -/
  K1 : F
  /-- Integral gain. -/
  K2 : F
  omegaMin : F
  omegaMax : F

def Config.default {F : Type} [OfScientific F] : Config F where
  nominalSps := 5.2083
  K1 := 0.02
  K2 := 0.002
  omegaMin := 4.5
  omegaMax := 6.0

def kHistLen : ℤ := 8

end TimingRecovery

open TimingRecovery in
structure TimingRecovery (F : Type) where
  cfg : Config F
  /-- Fractional timing phase. -/
  mu : F
  /-- Samples per symbol. -/
  omega : F
  /-- Loop filter integrator. -/
  vP : F
  prevSym : F
  hist : Vector F 8
  histIdx : ℤ
  symbolCount : UInt64

namespace TimingRecovery
variable {F : Type} [OfScientific F] [Add F] [Sub F] [Mul F] [IntCast F] [LT F] [LE F] [DecidableLT F]
  [DecidableLE F] [CastToInt F]

/-- The constructor, for a callback that is present. -/
def init (cfg : Config F) : TimingRecovery F where
  cfg
  mu := 0.0
  omega := cfg.nominalSps
  vP := 0.0
  prevSym := 0.0
  hist := Vector.replicate 8 0.0
  histIdx := 0
  symbolCount := 0

/-- The history entry `offset` samples before the latest one. -/
def idx (s : TimingRecovery F) (offset : ℤ) : F :=
  s.hist.getD ((s.histIdx - 1 - offset + kHistLen * 2).tmod kHistLen).toNat 0.0

def interpolate (s : TimingRecovery F) (frac : F) : F :=
  let n0 := CastToInt.toInt frac
  let f := frac - (n0 : F)
  let x0 := s.idx n0
  let x1 := s.idx (n0 + 1)
  x0 + f * (x1 - x0)

/-- `std::clamp` -/
def clamp (v lo hi : F) : F := if v < lo then lo else if hi < v then hi else v

/-- The push into the history, and the phase increment. -/
def push (s : TimingRecovery F) (x : F) : TimingRecovery F :=
  { s with
    hist := s.hist.setIfInBounds s.histIdx.toNat x
    histIdx := (s.histIdx + 1).tmod kHistLen
    mu := s.mu + 1.0 }

/-- The symbol strobe. -/
def strobe (s : TimingRecovery F) : TimingRecovery F × F :=
  let mu := s.mu - s.omega
  let currSym := s.interpolate mu
  let midFrac := mu + s.omega * 0.5
  let midSamp := s.interpolate midFrac
  let e := midSamp * (currSym - s.prevSym)
  let vP := s.vP + s.cfg.K2 * e
  let omega := s.omega + (s.cfg.K1 * e + vP)
  ({ s with
      mu
      vP
      omega := clamp omega s.cfg.omegaMin s.cfg.omegaMax
      symbolCount := s.symbolCount + 1
      prevSym := currSym }, currSym)

/-- The loop body of `process`: one sample, and the symbol given to the callback. -/
def processSample (s : TimingRecovery F) (x : F) : TimingRecovery F × Option F :=
  let s := s.push x
  if s.omega ≤ s.mu then (s.strobe.1, some s.strobe.2) else (s, none)

/-- `process(samples)`: the symbols emitted, in order. -/
def process (s : TimingRecovery F) (samples : List F) : TimingRecovery F × List F :=
  samples.foldl (fun acc x =>
    let out := processSample acc.1 x
    (out.1, acc.2 ++ out.2.toList)) (s, [])

/-- A sequence of calls of `process`. -/
def processAll (s : TimingRecovery F) (vectors : List (List F)) : TimingRecovery F × List F :=
  vectors.foldl (fun acc samples =>
    let out := process acc.1 samples
    (out.1, acc.2 ++ out.2)) (s, [])

theorem process_eq (s : TimingRecovery F) (samples : List F) : process s samples =
    (Stage.after processSample s samples, Stage.outputs processSample s samples) :=
  Stage.foldl_collect processSample s [] samples

/-- However the samples are cut into vectors, they are processed in one run. -/
theorem processAll_eq (s : TimingRecovery F) (vectors : List (List F)) : processAll s vectors =
    (Stage.after processSample s vectors.flatten, Stage.outputs processSample s vectors.flatten) := by
  obtain ⟨state, emits⟩ := Stage.batched_run processSample process id id
    (fun s samples => Prod.ext_iff.mp (process_eq s samples)) s vectors
  rw [List.flatMap_id] at state emits
  exact Prod.ext state emits

end TimingRecovery
end DmrWatchkeeper
