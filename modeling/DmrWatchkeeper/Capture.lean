import Mathlib.Data.Int.Notation
import DmrWatchkeeper.Library.HandleDiscipline
import DmrWatchkeeper.Library.LabelledRun
import DmrWatchkeeper.RingBuffer

/-! The capture object of `capture.cpp`: the thread that owns it and calls
`start`, `stop` and the destructor, the reader thread that `start` launches, a
thread that reads the ring, and what `librtlsdr` does for them. One step is one
call of the library or one access to a shared member; a handle is the number of
the `rtlsdr_open` that returned it. -/
namespace DmrWatchkeeper.Capture
open HandleDiscipline

structure CaptureConfig where
  /-- Used where no serial is given. -/
  deviceIndex : UInt32 := 0
  serial : String := ""
  centreFreq : UInt32 := 446099000
  sampleRate : UInt32 := 250000
  gainDb : ℤ := 30
  autoGain : Bool := false
  ringCapacity : UInt64 := 4 * 1024 * 1024

/-- The library functions that take a handle. -/
inductive Fn where
  | setSampleRate (rate : UInt32)
  | setCenterFreq (freq : UInt32)
  /-- 0 is automatic, 1 is manual. -/
  | setTunerGainMode (mode : ℤ)
  | setTunerGain (gain : ℤ)
  | resetBuffer
  | readAsync (bufNum bufLen : UInt32)
  /-- The return of `rtlsdr_read_async`, which is a use of the handle too. -/
  | readReturned
  | cancelAsync
  deriving DecidableEq

abbrev Handle := ℕ

/-- The failures that `start` throws itself. -/
inductive Failure where
  | noSerial
  | openFailed (index : UInt32)
  | sampleRate
  | centreFreq
  deriving DecidableEq

def Failure.what (cfg : CaptureConfig) : Failure → String
  | .noSerial => "Capture: no RTL-SDR device with serial '" ++ cfg.serial ++ "' found. " ++
      "Check the dongle is connected and the serial was set with: " ++
      "rtl_eeprom -d 0 -s " ++ cfg.serial
  | .openFailed index => "Capture: failed to open RTL-SDR device index " ++ toString index
  | .sampleRate => "Capture: failed to set sample rate"
  | .centreFreq => "Capture: failed to set centre frequency"

/-- Where the owner is in `start`: about to make the named call. -/
inductive Starting where
  | lookup
  | opening (index : UInt32)
  | settingRate (dev : Handle)
  | settingFreq (dev : Handle)
  /-- In the branch that gives up. -/
  | closing (dev : Handle) (failure : Failure)
  | settingGainMode (dev : Handle)
  | settingGain (dev : Handle)
  | resetting (dev : Handle)
  /-- At `ring_.reset()`. -/
  | flushing
  /-- At `running_.store(true)`. -/
  | storing
  /-- At the creation of the thread. -/
  | launching
  deriving DecidableEq

/-- Where the owner is in `stop`. -/
inductive Stopping where
  /-- At `running_.store(false)`. -/
  | clearing
  | cancelling
  | joining
  | closing
  deriving DecidableEq

inductive Owner where
  | idle
  | starting (phase : Starting)
  /-- In `stop`, called by the destructor or not. -/
  | stopping (phase : Stopping) (destroying : Bool)
  | gone
  deriving DecidableEq

inductive Reader where
  /-- `thread_` is not joinable. -/
  | none
  /-- Launched, and about to call `rtlsdr_read_async`. -/
  | launched
  /-- In `rtlsdr_read_async`. -/
  | reading (dev : Handle)
  | finished
  deriving DecidableEq

structure State where
  ring : RingBuffer
  bytesCaptured : UInt64 := 0
  running : Bool := false
  /-- `dev_` -/
  dev : Option Handle := none
  owner : Owner := .idle
  reader : Reader := .none
  /-- A cancel has taken effect on the read in progress. -/
  cancelled : Bool := false
  /-- Handles obtained so far. -/
  obtained : Handle := 0
  log : List (Event Handle Fn) := []
  /-- What the last `start` threw. -/
  thrown : Option String := none

inductive Action where
  | callStart
  | callStop
  | destroy
  /-- The owner's next step; `result` is what the library call returns. -/
  | owner (result : ℤ)
  /-- The creation of the thread, which the system may refuse. -/
  | launch (created : Bool)
  | enterRead
  /-- `rtlsdr_read_async` hands over a buffer. -/
  | onSamples (buf : ℕ → UInt8) (len : UInt32)
  /-- `rtlsdr_read_async` returns, on its own or after a cancel. -/
  | readReturns (own : Bool)
  /-- Another thread reads the ring. -/
  | consume (dest : ℕ → UInt8) (len : UInt64)

def State.use (s : State) (dev : Handle) (f : Fn) : State :=
  { s with log := s.log ++ [.used dev f] }

def State.close (s : State) (dev : Handle) : State := { s with log := s.log ++ [.closed dev] }

/-- A step of `start`, up to the creation of the thread. -/
def startStep (cfg : CaptureConfig) (s : State) (result : ℤ) : Starting → Option State
  | .lookup =>
    if result < 0 then some { s with owner := .idle, thrown := some (Failure.noSerial.what cfg) }
    else some { s with owner := .starting (.opening (UInt32.ofNat result.toNat)) }
  | .opening index =>
    if result < 0 then some { s with owner := .idle, thrown := some ((Failure.openFailed index).what cfg) }
    else some { s with
      owner := .starting (.settingRate s.obtained)
      dev := some s.obtained
      obtained := s.obtained + 1
      log := s.log ++ [.opened s.obtained] }
  | .settingRate dev =>
    let s := s.use dev (.setSampleRate cfg.sampleRate)
    if result < 0 then some { s with owner := .starting (.closing dev .sampleRate) }
    else some { s with owner := .starting (.settingFreq dev) }
  | .settingFreq dev =>
    let s := s.use dev (.setCenterFreq cfg.centreFreq)
    if result < 0 then some { s with owner := .starting (.closing dev .centreFreq) }
    else some { s with owner := .starting (.settingGainMode dev) }
  | .closing dev failure => some { s.close dev with owner := .idle, thrown := some (failure.what cfg) }
  | .settingGainMode dev =>
    if cfg.autoGain then
      some { s.use dev (.setTunerGainMode 0) with owner := .starting (.resetting dev) }
    else some { s.use dev (.setTunerGainMode 1) with owner := .starting (.settingGain dev) }
  | .settingGain dev =>
    some { s.use dev (.setTunerGain (cfg.gainDb * 10)) with owner := .starting (.resetting dev) }
  | .resetting dev => some { s.use dev .resetBuffer with owner := .starting .flushing }
  | .flushing => some { s with ring := s.ring.reset, owner := .starting .storing }
  | .storing => some { s with running := true, owner := .starting .launching }
  | .launching => none

/-- The cancel takes effect only on a read in progress on the device. -/
def State.cancel (s : State) (dev : Handle) : State :=
  { s.use dev .cancelAsync with cancelled := s.cancelled || s.reader = .reading dev }

/-- A step of `stop`; the join waits for the thread to finish. -/
def stopStep (s : State) (destroying : Bool) : Stopping → Option State
  | .clearing => some { s with running := false, owner := .stopping .cancelling destroying }
  | .cancelling => match s.dev with
    | some dev => some { s.cancel dev with owner := .stopping .joining destroying }
    | none => some { s with owner := .stopping .joining destroying }
  | .joining => match s.reader with
    | .none => some { s with owner := .stopping .closing destroying }
    | .finished => some { s with reader := .none, owner := .stopping .closing destroying }
    | _ => none
  | .closing =>
    let done := if destroying then Owner.gone else .idle
    match s.dev with
    | some dev => some { s.close dev with dev := none, owner := done }
    | none => some { s with owner := done }

/-- A step of the system; none where the action is not possible. -/
def step (cfg : CaptureConfig) (s : State) : Action → Option State
  | .callStart =>
    if s.owner ≠ .idle then none
    else if s.running then some s
    else if cfg.serial ≠ "" then some { s with owner := .starting .lookup, thrown := none }
    else some { s with owner := .starting (.opening cfg.deviceIndex), thrown := none }
  | .callStop =>
    if s.owner ≠ .idle then none
    else if !s.running then some s
    else some { s with owner := .stopping .clearing false }
  | .destroy =>
    if s.owner ≠ .idle then none
    else if s.running then some { s with owner := .stopping .clearing true }
    else some { s with owner := .gone }
  | .owner result => match s.owner with
    | .starting phase => startStep cfg s result phase
    | .stopping phase destroying => stopStep s destroying phase
    | _ => none
  | .launch created =>
    if s.owner ≠ .starting .launching then none
    else if created then some { s with owner := .idle, reader := .launched }
    else some { s with owner := .idle }
  | .enterRead =>
    if s.reader ≠ .launched then none
    else match s.dev with
      | some dev => some { s.use dev (.readAsync 15 16384) with
          reader := .reading dev
          cancelled := false }
      | none => some { s with reader := .finished }
  | .onSamples buf len => match s.reader with
    | .reading _ => some { s with
        ring := (s.ring.write buf len.toUInt64).1
        bytesCaptured := s.bytesCaptured + len.toUInt64 }
    | _ => none
  | .readReturns own => match s.reader with
    | .reading dev =>
      if own || s.cancelled then some { s.use dev .readReturned with reader := .finished } else none
    | _ => none
  | .consume dest len =>
    if s.owner = .gone then none else some { s with ring := (s.ring.read dest len).1 }

/-- The constructor. -/
def create (allocate : RingBuffer.Allocator) (cfg : CaptureConfig) : Except String State :=
  (RingBuffer.create allocate cfg.ringCapacity).map fun ring => { ring }

/-- The runs of a new capture object. -/
def run (allocate : RingBuffer.Allocator) (cfg : CaptureConfig) (actions : List Action) : Option State :=
  (create allocate cfg).toOption.bind fun s => LabelledRun.run (step cfg) s actions

/-! ### What a step can do -/

variable {cfg : CaptureConfig} {s t : State} {a : Action} {actions : List Action}

theorem callStart_spec (taken : step cfg s .callStart = some t) : s.owner = .idle ∧
    (s.running = true ∧ t = s ∨ s.running = false ∧ ∃ phase, t = { s with
      owner := .starting phase, thrown := none } ∧ (phase = .lookup ∨ ∃ index, phase = .opening index)) := by
  by_cases place : s.owner = .idle
  · refine ⟨place, ?_⟩
    simp only [step, place, ne_eq, not_true, ↓reduceIte] at taken
    split at taken
    · cases taken
      exact .inl ⟨by assumption, rfl⟩
    · rename_i off
      have off : s.running = false := by simpa using off
      split at taken <;> cases taken
      · exact .inr ⟨off, .lookup, rfl, .inl rfl⟩
      · exact .inr ⟨off, .opening cfg.deviceIndex, rfl, .inr ⟨_, rfl⟩⟩
  · simp [step, place] at taken

theorem callStop_spec (taken : step cfg s .callStop = some t) : s.owner = .idle ∧
    (s.running = false ∧ t = s ∨
      s.running = true ∧ t = { s with owner := .stopping .clearing false }) := by
  by_cases place : s.owner = .idle
  · refine ⟨place, ?_⟩
    cases on : s.running <;> simp_all [step]
  · simp [step, place] at taken

theorem destroy_spec (taken : step cfg s .destroy = some t) : s.owner = .idle ∧
    (s.running = true ∧ t = { s with owner := .stopping .clearing true } ∨
      s.running = false ∧ t = { s with owner := .gone }) := by
  by_cases place : s.owner = .idle
  · refine ⟨place, ?_⟩
    cases on : s.running <;> simp_all [step]
  · simp [step, place] at taken

theorem owner_spec {result : ℤ} (taken : step cfg s (.owner result) = some t) :
    (∃ phase, s.owner = .starting phase ∧ startStep cfg s result phase = some t) ∨
    ∃ phase destroying, s.owner = .stopping phase destroying ∧
      stopStep s destroying phase = some t := by
  cases place : s.owner with
  | starting phase => exact .inl ⟨phase, rfl, by simpa only [step, place] using taken⟩
  | stopping phase destroying =>
    exact .inr ⟨phase, destroying, rfl, by simpa only [step, place] using taken⟩
  | idle | gone => simp [step, place] at taken

theorem launch_spec {created : Bool} (taken : step cfg s (.launch created) = some t) :
    s.owner = .starting .launching ∧
      t = { s with owner := .idle, reader := if created then .launched else s.reader } := by
  by_cases place : s.owner = .starting .launching
  · cases created <;> simp_all [step]
  · simp [step, place] at taken

theorem enterRead_spec (taken : step cfg s .enterRead = some t) : s.reader = .launched ∧
    ((∃ dev, s.dev = some dev ∧ t = { s.use dev (.readAsync 15 16384) with
        reader := .reading dev, cancelled := false }) ∨
      s.dev = none ∧ t = { s with reader := .finished }) := by
  by_cases launched : s.reader = .launched
  · refine ⟨launched, ?_⟩
    cases present : s.dev <;> simp_all [step]
  · simp [step, launched] at taken

theorem onSamples_spec {buf : ℕ → UInt8} {len : UInt32}
    (taken : step cfg s (.onSamples buf len) = some t) : (∃ dev, s.reader = .reading dev) ∧
      t = { s with
        ring := (s.ring.write buf len.toUInt64).1
        bytesCaptured := s.bytesCaptured + len.toUInt64 } := by
  cases active : s.reader with
  | reading dev => simp_all [step]
  | none | launched | finished => simp [step, active] at taken

theorem readReturns_spec {own : Bool} (taken : step cfg s (.readReturns own) = some t) :
    ∃ dev, s.reader = .reading dev ∧ (own = true ∨ s.cancelled = true) ∧
      t = { s.use dev .readReturned with reader := .finished } := by
  cases active : s.reader with
  | reading dev => simp_all [step]
  | none | launched | finished => simp [step, active] at taken

theorem consume_spec {dest : ℕ → UInt8} {len : UInt64}
    (taken : step cfg s (.consume dest len) = some t) : s.owner ≠ .gone ∧
      t = { s with ring := (s.ring.read dest len).1 } := by
  by_cases gone : s.owner = .gone <;> simp_all [step]

theorem run_eq {allocate : RingBuffer.Allocator} : run allocate cfg actions = some t ↔
    ∃ s, create allocate cfg = .ok s ∧ LabelledRun.run (step cfg) s actions = some t := by
  unfold run
  cases create allocate cfg <;> simp [Except.toOption]

theorem create_spec {allocate : RingBuffer.Allocator} (created : create allocate cfg = .ok s) : ∃ ring, s = { ring } := by
  unfold create at created
  cases made : RingBuffer.create allocate cfg.ringCapacity with
  | error message =>
    rw [made] at created
    cases created
  | ok ring =>
    rw [made] at created
    cases created
    exact ⟨ring, rfl⟩

end DmrWatchkeeper.Capture
