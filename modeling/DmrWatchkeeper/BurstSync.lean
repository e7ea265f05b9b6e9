import Mathlib.Data.List.Basic

/-! The burst synchroniser of `burst_sync.cpp`: a shift register compared with
the four sync words, a circular history from which the first half of a burst
is recovered, and a two-state collector for the second half. `uint64_t`
counters wrap; `int` members are integers, whose range is a matter for proof. -/
namespace DmrWatchkeeper
namespace BurstSync

inductive BurstType where
  | bsVoice
  | msVoice
  | bsData
  | msData
  | unknown
  deriving DecidableEq, Repr

structure Burst where
  type : BurstType := .unknown
  timeslot : Int := 1
  channel : Int := 0
  syncBits : UInt64 := 0
  /-- Entries 0 to 48 are the first half, 49 to 97 the second half. -/
  dibits : Vector UInt8 98 := Vector.replicate 98 0
  deriving DecidableEq

inductive State where
  | hunting
  | collecting
  deriving DecidableEq, Repr

def kMask48 : UInt64 := 0x0000FFFFFFFFFFFF
def kSyncBsVoice : UInt64 := 0x755FD7DF75F7
def kSyncMsVoice : UInt64 := 0xDFF57D755FF7
def kSyncBsData : UInt64 := 0xD5D7F77FD757
def kSyncMsData : UInt64 := 0x7F7D55F5DF5D
def kMaxErrors : Nat := 4
def kHistLen : Int := 128

/-- `__builtin_popcountll` -/
def popcount (w : UInt64) : Nat := (List.range 64).countP (w.toNat.testBit ·)

/-- Differing bits in the lower 48 bits. -/
def hamming48 (a b : UInt64) : Nat := popcount ((a ^^^ b) &&& kMask48)

def matchSync (word : UInt64) : BurstType :=
  let w := word &&& kMask48
  if hamming48 w kSyncBsVoice ≤ kMaxErrors then .bsVoice
  else if hamming48 w kSyncMsVoice ≤ kMaxErrors then .msVoice
  else if hamming48 w kSyncBsData ≤ kMaxErrors then .bsData
  else if hamming48 w kSyncMsData ≤ kMaxErrors then .msData
  else .unknown

end BurstSync

open BurstSync in
structure BurstSync where
  syncReg : UInt64 := 0
  hist : Vector UInt8 128 := Vector.replicate 128 0
  /-- Next write index. -/
  histHead : Int := 0
  state : State := .hunting
  /-- Second-half and guard dibits collected so far. -/
  collectIdx : Int := 0
  current : Burst := {}
  tsToggle : Int := 0
  burstCount : UInt64 := 0
  syncMatches : UInt64 := 0
  channelIdx : Int := 0

namespace BurstSync

/-- The constructor, for a callback that is present. -/
def init (channelIdx : Int) : BurstSync := { channelIdx }

/-- A history entry; the indices that occur are in range. -/
def histAt (s : BurstSync) (i : Int) : UInt8 := s.hist.getD i.toNat 0

/-- Copies the 49 entries that start 73 behind `hist_head_` to `out[0..48]`. -/
def extractFirstHalf (s : BurstSync) (out : Vector UInt8 98) : Vector UInt8 98 :=
  let start := (s.histHead - 73 + kHistLen * 2).tmod kHistLen
  Fin.foldl 49 (fun out i =>
    out.set (i.castLE (by decide : 49 ≤ 98)) (s.histAt ((start + i).tmod kHistLen))) out

/-- `(ts_toggle_++ & 1) ? 2 : 1`, for the value before the increment. Only the
parity counts, which a wrapping `int` would keep too. -/
def timeslotOf (toggle : Int) : Int := if toggle % 2 ≠ 0 then 2 else 1

/-- The part of `push_dibit` that runs in every state: the history buffer and
the shift register both take the new dibit. -/
def record (s : BurstSync) (d : UInt8) : BurstSync :=
  { s with
    hist := s.hist.setIfInBounds s.histHead.toNat d
    histHead := (s.histHead + 1).tmod kHistLen
    syncReg := ((s.syncReg <<< 2) ||| d.toUInt64) &&& kMask48 }

/-- The hunting branch, after the new dibit is recorded. -/
def hunt (s : BurstSync) : BurstSync :=
  let bt := matchSync s.syncReg
  if bt ≠ .unknown then
    { s with
      syncMatches := s.syncMatches + 1
      current := {
        type := bt
        channel := s.channelIdx
        syncBits := s.syncReg &&& kMask48
        timeslot := timeslotOf s.tsToggle
        dibits := s.extractFirstHalf (Vector.replicate 98 0) }
      tsToggle := s.tsToggle + 1
      collectIdx := 0
      state := .collecting }
  else s

/-- The collecting branch: 49 payload dibits are stored, 10 guard dibits are
only counted, and the burst is handed over on the last of them. -/
def collect (s : BurstSync) (d : UInt8) : BurstSync × Option Burst :=
  let current := if s.collectIdx < 49 then
      { s.current with dibits := s.current.dibits.setIfInBounds (49 + s.collectIdx).toNat d }
    else s.current
  let collectIdx := s.collectIdx + 1
  if collectIdx ≥ 59 then
    ({ s with current, collectIdx, burstCount := s.burstCount + 1, state := .hunting }, some current)
  else ({ s with current, collectIdx }, none)

/-- `push_dibit(dibit)`: the new state and the burst given to the callback. -/
def pushDibit (s : BurstSync) (dibit : UInt8) : BurstSync × Option Burst :=
  let d := dibit &&& 0x03
  match s.state with
  | .hunting => ((s.record d).hunt, none)
  | .collecting => (s.record d).collect d

/-- What one dibit can do: nothing is found; a sync word is found; a burst grows;
or a burst is complete. The dibit is recorded in every case. -/
theorem pushDibit_cases (s : BurstSync) (dibit : UInt8) :
    ((pushDibit s dibit).1.histHead = (s.record (dibit &&& 0x03)).histHead ∧
      (pushDibit s dibit).1.syncReg = (s.record (dibit &&& 0x03)).syncReg) ∧
    (s.state = .hunting ∧ matchSync (s.record (dibit &&& 0x03)).syncReg = .unknown ∧
        (pushDibit s dibit).2 = none ∧ (pushDibit s dibit).1.state = .hunting ∧
        (pushDibit s dibit).1.collectIdx = s.collectIdx ∧
        (pushDibit s dibit).1.tsToggle = s.tsToggle ∨
      s.state = .hunting ∧ matchSync (s.record (dibit &&& 0x03)).syncReg ≠ .unknown ∧
        (pushDibit s dibit).2 = none ∧ (pushDibit s dibit).1.state = .collecting ∧
        (pushDibit s dibit).1.collectIdx = 0 ∧
        (pushDibit s dibit).1.tsToggle = s.tsToggle + 1 ∨
      s.state = .collecting ∧ s.collectIdx + 1 < 59 ∧
        (pushDibit s dibit).2 = none ∧ (pushDibit s dibit).1.state = .collecting ∧
        (pushDibit s dibit).1.collectIdx = s.collectIdx + 1 ∧
        (pushDibit s dibit).1.tsToggle = s.tsToggle ∨
      s.state = .collecting ∧ 59 ≤ s.collectIdx + 1 ∧
        (pushDibit s dibit).1.state = .hunting ∧
        (pushDibit s dibit).1.collectIdx = s.collectIdx + 1 ∧
        (pushDibit s dibit).1.tsToggle = s.tsToggle) := by
  cases phase : s.state with
  | hunting =>
    have next : pushDibit s dibit = ((s.record (dibit &&& 0x03)).hunt, none) := by
      simp only [pushDibit, phase]
    by_cases silent : matchSync (s.record (dibit &&& 0x03)).syncReg = .unknown
    · have stays : (s.record (dibit &&& 0x03)).hunt = s.record (dibit &&& 0x03) := by
        simp [hunt, silent]
      rw [next, stays]
      exact ⟨⟨rfl, rfl⟩, .inl ⟨rfl, silent, rfl, phase, rfl, rfl⟩⟩
    · rw [next, hunt, if_pos silent]
      exact ⟨⟨rfl, rfl⟩, .inr (.inl ⟨rfl, silent, rfl, rfl, rfl, rfl⟩)⟩
  | collecting =>
    have next : pushDibit s dibit = (s.record (dibit &&& 0x03)).collect (dibit &&& 0x03) := by
      simp only [pushDibit, phase]
    have index : (s.record (dibit &&& 0x03)).collectIdx = s.collectIdx := rfl
    by_cases full : s.collectIdx + 1 ≥ 59
    · simp only [next, collect, index, if_pos full]
      exact ⟨⟨trivial, trivial⟩, .inr (.inr (.inr ⟨trivial, full, trivial, trivial, rfl⟩))⟩
    · simp only [next, collect, index, if_neg full]
      exact ⟨⟨trivial, trivial⟩, .inr (.inr (.inl ⟨trivial, by omega, trivial, phase, trivial, rfl⟩))⟩

end BurstSync
end DmrWatchkeeper
