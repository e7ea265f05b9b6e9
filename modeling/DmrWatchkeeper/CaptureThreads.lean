import DmrWatchkeeper.CaptureHandles

/-! The owner and the reader thread. The owner cancels once, and a cancel does
nothing to a read that has not begun; the flag is stored before the thread
exists and is not cleared when the thread ends. -/
namespace DmrWatchkeeper.Capture
open LabelledRun (Throughout EveryStep)

/-- Past its only cancel, the owner waits for a thread that nothing will wake. -/
def Stuck (s : State) : Prop :=
  (∃ destroying, s.owner = .stopping .joining destroying) ∧
    (s.reader = .launched ∨ ∃ dev, s.reader = .reading dev ∧ s.cancelled = false)

/-- The cancel does not come before the read. -/
def CancelsInTime (s : State) : Action → Prop
  | .owner _ => ∀ destroying, s.owner = .stopping .cancelling destroying → s.reader ≠ .launched
  | _ => True

/-- What `running` promises. -/
def Truthful (s : State) : Prop :=
  s.running = true → s.reader = .launched ∨ ∃ dev, s.reader = .reading dev

def StoresNoFlag (s : State) : Action → Prop
  | .owner _ => s.owner ≠ .starting .storing
  | _ => True

/-- The thread is there when the flag says so, and does not end before it is cleared. -/
def FollowsFlag (s : State) : Action → Prop
  | .launch created => created = true
  | .readReturns _ => s.running = false
  | _ => True

variable {cfg : CaptureConfig} {s t new : State} {a : Action} {actions : List Action}

/-- A step of `start` does not concern the thread. -/
theorem startStep_spec {phase : Starting} {result : ℤ}
    (taken : startStep cfg s result phase = some t) :
    t.reader = s.reader ∧
    (t.owner = .idle ∨ ∃ next, t.owner = .starting next) ∧
    (phase = .storing → t.running = true ∧ t.owner = .starting .launching) ∧
    (phase ≠ .storing → t.running = s.running ∧ t.owner ≠ .starting .launching) := by
  cases phase with
  | lookup | opening | settingRate | settingFreq | settingGainMode =>
    simp only [startStep] at taken
    split at taken <;> cases taken <;> simp [State.use]
  | closing | settingGain | resetting | flushing | storing =>
    cases taken
    simp [State.use, State.close]
  | launching => cases taken

/-- The calls that an idle owner makes leave the thread alone. -/
theorem call_spec (call : a = .callStart ∨ a = .callStop ∨ a = .destroy)
    (taken : step cfg s a = some t) :
    t.running = s.running ∧ t.reader = s.reader ∧ s.owner = .idle ∧
    (∀ destroying, t.owner ≠ .stopping .joining destroying) ∧ t.owner ≠ .starting .launching := by
  rcases call with rfl | rfl | rfl
  · obtain ⟨place, ⟨-, rfl⟩ | ⟨-, phase, rfl, first⟩⟩ := callStart_spec taken
    · simp [place]
    · rcases first with rfl | ⟨index, rfl⟩ <;> simp [place]
  · obtain ⟨place, ⟨-, rfl⟩ | ⟨-, rfl⟩⟩ := callStop_spec taken <;> simp [place]
  · obtain ⟨place, ⟨-, rfl⟩ | ⟨-, rfl⟩⟩ := destroy_spec taken <;> simp [place]

theorem not_stuck_of_owner (elsewhere : ∀ destroying, t.owner ≠ .stopping .joining destroying) :
    ¬ Stuck t := by
  rintro ⟨⟨destroying, place⟩, -⟩
  exact elsewhere destroying place

/-- The owner comes to the join only from the cancel, which wakes a read in progress. -/
theorem stopStep_stuck_iff {phase : Stopping} {destroying : Bool} (sound : Sound s)
    (place : s.owner = .stopping phase destroying) (taken : stopStep s destroying phase = some t) :
    ¬ Stuck t ↔ (phase = .cancelling → s.reader ≠ .launched) := by
  cases phase with
  | clearing =>
    cases taken
    exact iff_of_true (not_stuck_of_owner (by simp)) (by simp)
  | cancelling =>
    obtain ⟨dev, present, held⟩ := sound.held_eq (by rw [place]; rfl)
    simp only [stopStep, present] at taken
    cases taken
    constructor
    · intro free _ launched
      exact free ⟨⟨destroying, rfl⟩, .inl launched⟩
    · rintro in_time ⟨-, launched | ⟨open_, active, pending⟩⟩
      · exact in_time rfl launched
      · have active : s.reader = .reading open_ := active
        cases present.symm.trans (sound.reading open_ active)
        simp [State.cancel, active] at pending
  | joining =>
    simp only [stopStep] at taken
    split at taken
    · cases taken
      exact iff_of_true (not_stuck_of_owner (by simp)) (by simp)
    · cases taken
      exact iff_of_true (not_stuck_of_owner (by simp)) (by simp)
    · cases taken
  | closing =>
    simp only [stopStep] at taken
    split at taken <;> cases taken <;>
      exact iff_of_true (not_stuck_of_owner (by cases destroying <;> simp)) (by simp)

/-- Nothing but a cancel that finds the thread launched makes the owner stuck. -/
theorem stuck_iff (sound : Sound s) (free : ¬ Stuck s) (taken : step cfg s a = some t) :
    ¬ Stuck t ↔ CancelsInTime s a := by
  cases a with
  | callStart | callStop | destroy =>
    have spec := call_spec (by simp) taken
    exact iff_of_true (not_stuck_of_owner spec.2.2.2.1) trivial
  | owner result =>
    rcases owner_spec taken with ⟨phase, place, taken⟩ | ⟨phase, destroying, place, taken⟩
    · have spec := startStep_spec taken
      refine iff_of_true (not_stuck_of_owner ?_) (by simp [CancelsInTime, place])
      rcases spec.2.1 with idle | ⟨next, starting⟩ <;> simp [*]
    · rw [stopStep_stuck_iff sound place taken]
      simp [CancelsInTime, place]
  | launch created =>
    obtain ⟨-, rfl⟩ := launch_spec taken
    exact iff_of_true (not_stuck_of_owner (by simp)) trivial
  | enterRead =>
    obtain ⟨launched, -, dev, -, -, rfl⟩ := sound.enters taken
    refine iff_of_true ?_ trivial
    -- the join was waiting for the launched thread before
    exact fun stuck => free ⟨stuck.1, .inl launched⟩
  | onSamples buf len =>
    obtain ⟨-, rfl⟩ := onSamples_spec taken
    exact iff_of_true free trivial
  | readReturns own =>
    obtain ⟨dev, -, -, rfl⟩ := readReturns_spec taken
    exact iff_of_true (by simp [Stuck]) trivial
  | consume dest len =>
    obtain ⟨-, rfl⟩ := consume_spec taken
    exact iff_of_true free trivial

theorem truthful_of_off (off : s.running = false) : Truthful s := by
  intro on
  rw [off] at on
  cases on

/-- Before its thread exists, a start that succeeds has promised it. -/
theorem storing_not_truthful (sound : Sound s) {result : ℤ} (place : s.owner = .starting .storing)
    (taken : step cfg s (.owner result) = some t) : ¬ Truthful t := by
  have away := (sound.starting place).1
  simp only [step, place, startStep] at taken
  cases taken
  simp [Truthful, away]

/-- Once `stop` has begun to act, the flag is cleared. -/
theorem stopStep_off {phase : Stopping} {destroying : Bool} (sound : Sound s)
    (place : s.owner = .stopping phase destroying) (taken : stopStep s destroying phase = some t) :
    t.running = false := by
  have off : phase ≠ .clearing → s.running = false := by
    intro later
    apply sound.flag
    rw [place]
    cases phase with
    | clearing => contradiction
    | _ => rfl
  cases phase with
  | clearing =>
    cases taken
    rfl
  | cancelling | joining | closing =>
    simp only [stopStep] at taken
    split at taken <;> cases taken <;> exact off (by simp)

/-- Only the owner writes the flag. -/
theorem step_running (other : ∀ result, a ≠ .owner result) (taken : step cfg s a = some t) :
    t.running = s.running := by
  cases a with
  | callStart | callStop | destroy => exact (call_spec (by simp) taken).1
  | owner result => exact absurd rfl (other result)
  | launch created =>
    obtain ⟨-, rfl⟩ := launch_spec taken
    rfl
  | enterRead => obtain ⟨-, ⟨dev, -, rfl⟩ | ⟨-, rfl⟩⟩ := enterRead_spec taken <;> rfl
  | onSamples buf len =>
    obtain ⟨-, rfl⟩ := onSamples_spec taken
    rfl
  | readReturns own =>
    obtain ⟨dev, -, -, rfl⟩ := readReturns_spec taken
    rfl
  | consume dest len =>
    obtain ⟨-, rfl⟩ := consume_spec taken
    rfl

/-- A step that does not store the flag leaves it cleared. -/
theorem flag_stays (sound : Sound s) (off : s.running = false) (clear : StoresNoFlag s a)
    (taken : step cfg s a = some t) : t.running = false := by
  cases a with
  | owner result =>
    rcases owner_spec taken with ⟨phase, place, taken⟩ | ⟨phase, destroying, place, taken⟩
    · have elsewhere : phase ≠ .storing := by
        rintro rfl
        exact clear place
      rw [((startStep_spec taken).2.2.2 elsewhere).1, off]
    · exact stopStep_off sound place taken
  | _ => rw [step_running (by simp) taken, off]

/-- Apart from the creation of its thread, a capture object tells the truth
exactly as long as the thread is created and does not end under a stored flag. -/
theorem truthful_iff (sound : Sound s) (here : s.owner = .starting .launching ∨ Truthful s)
    (taken : step cfg s a = some t) :
    t.owner = .starting .launching ∨ Truthful t ↔ FollowsFlag s a := by
  cases a with
  | callStart | callStop | destroy =>
    obtain ⟨same_flag, same_reader, place, -⟩ := call_spec (by simp) taken
    refine iff_of_true (.inr ?_) trivial
    rw [Truthful, same_flag, same_reader]
    exact here.resolve_left (by simp [place])
  | owner result =>
    refine iff_of_true ?_ trivial
    rcases owner_spec taken with ⟨phase, place, taken⟩ | ⟨phase, destroying, place, taken⟩
    · have spec := startStep_spec taken
      by_cases storing : phase = .storing
      · exact .inl (spec.2.2.1 storing).2
      · have off := (sound.starting place).2 (by rintro rfl; cases taken)
        exact .inr (truthful_of_off ((spec.2.2.2 storing).1.trans off))
    · exact .inr (truthful_of_off (stopStep_off sound place taken))
  | launch created =>
    obtain ⟨place, rfl⟩ := launch_spec taken
    have on : s.running = true := sound.flag true (by rw [place]; rfl)
    have away := (sound.starting place).1
    cases created <;> simp [Truthful, FollowsFlag, on, away]
  | enterRead =>
    obtain ⟨-, -, dev, -, -, rfl⟩ := sound.enters taken
    exact iff_of_true (.inr fun _ => .inr ⟨dev, rfl⟩) trivial
  | onSamples buf len =>
    obtain ⟨-, rfl⟩ := onSamples_spec taken
    exact iff_of_true here trivial
  | readReturns own =>
    obtain ⟨dev, active, -, rfl⟩ := readReturns_spec taken
    have threaded := (sound.active (by rw [active]; simp)).1
    have elsewhere : s.owner ≠ .starting .launching := by
      intro launching
      rw [launching] at threaded
      cases threaded
    simp [Truthful, FollowsFlag, elsewhere]
  | consume dest len =>
    obtain ⟨-, rfl⟩ := consume_spec taken
    exact iff_of_true here trivial

/-- Once stuck, only the device can end the read. -/
theorem stuck_stays (sound : Sound s) (stuck : Stuck s) (waits : a ≠ .readReturns true)
    (taken : step cfg s a = some t) : Stuck t := by
  obtain ⟨⟨destroying, place⟩, waiting⟩ := stuck
  cases a with
  | callStart | callStop | destroy =>
    have idle := (call_spec (by simp) taken).2.2.1
    rw [place] at idle
    cases idle
  | owner result =>
    rcases waiting with launched | ⟨dev, active, -⟩
    · simp [step, place, stopStep, launched] at taken
    · simp [step, place, stopStep, active] at taken
  | launch created =>
    have launching := (launch_spec taken).1
    rw [place] at launching
    cases launching
  | enterRead =>
    obtain ⟨-, -, dev, -, -, rfl⟩ := sound.enters taken
    exact ⟨⟨destroying, place⟩, .inr ⟨dev, rfl, rfl⟩⟩
  | onSamples buf len =>
    obtain ⟨-, rfl⟩ := onSamples_spec taken
    exact ⟨⟨destroying, place⟩, waiting⟩
  | readReturns own =>
    obtain ⟨dev, active, woken, rfl⟩ := readReturns_spec taken
    rcases waiting with launched | ⟨dev', -, pending⟩
    · rw [launched] at active
      cases active
    · cases own <;> simp_all
  | consume dest len =>
    obtain ⟨-, rfl⟩ := consume_spec taken
    exact ⟨⟨destroying, place⟩, waiting⟩

theorem stuck_forever (sound : Sound s) (stuck : Stuck s)
    (waits : ∀ a ∈ actions, a ≠ .readReturns true)
    (ran : LabelledRun.run (step cfg) s actions = some t) : Stuck t := by
  induction actions generalizing s with
  | nil =>
    cases ran
    exact stuck
  | cons a actions ih =>
    obtain ⟨next, taken, rest⟩ := LabelledRun.run_cons.mp ran
    obtain ⟨first, later⟩ := List.forall_mem_cons.mp waits
    exact ih (step_sound sound taken) (stuck_stays sound stuck first taken) later rest

/-- `stop` cannot get stuck in exactly the runs in which no cancel finds the
thread launched and not yet reading. -/
theorem never_stuck_iff {allocate : RingBuffer.Allocator} (created : create allocate cfg = .ok new)
    (ran : LabelledRun.run (step cfg) new actions = some s) :
    Throughout (step cfg) (fun t => ¬ Stuck t) new actions ↔
      EveryStep (step cfg) CancelsInTime new actions := by
  have free : ¬ Stuck new := by
    obtain ⟨ring, rfl⟩ := create_spec created
    exact not_stuck_of_owner (by simp)
  exact LabelledRun.throughout_iff_everyStep (create_sound created) free
    (fun _ _ _ => step_sound) (fun _ _ _ => stuck_iff) ran

/-- A start that succeeds, and a `stop` before the thread has come to read. -/
def stoppedEarly : List Action :=
  [.callStart, .owner 0, .owner 0, .owner 0, .owner 0, .owner 0, .owner 0, .owner 0, .owner 0,
    .launch true, .callStop, .owner 0, .owner 0]

theorem never_stuck_iff_stopped_early : ∃ new, create .unlimited {} = .ok new ∧
    ¬ EveryStep (step {}) CancelsInTime new stoppedEarly := by
  have lost : ∃ s, run .unlimited {} stoppedEarly = some s ∧ Stuck s := ⟨_, rfl, ⟨false, rfl⟩, .inl rfl⟩
  obtain ⟨s, ran, stuck⟩ := lost
  obtain ⟨new, created, ran⟩ := run_eq.mp ran
  refine ⟨new, created, fun every => ?_⟩
  have free := (never_stuck_iff created ran).mpr every
  exact free stoppedEarly [] s rfl ran stuck

/-- The cancel is lost, and the owner waits for as long as the device delivers. -/
theorem cancel_lost : ∃ new s, create .unlimited {} = .ok new ∧
    LabelledRun.run (step {}) new stoppedEarly = some s ∧ Stuck s ∧
    ∀ more t, (∀ a ∈ more, a ≠ .readReturns true) →
      LabelledRun.run (step {}) s more = some t → Stuck t := by
  have lost : ∃ s, run .unlimited {} stoppedEarly = some s ∧ Stuck s := ⟨_, rfl, ⟨false, rfl⟩, .inl rfl⟩
  obtain ⟨s, ran, stuck⟩ := lost
  have sound := run_sound ran
  obtain ⟨new, created, ran⟩ := run_eq.mp ran
  exact ⟨new, s, created, ran, stuck, fun more t waits ran => stuck_forever sound stuck waits ran⟩

/-- `running` tells the truth in exactly the runs in which no start comes so far
as to store the flag; and apart from the creation of the thread, in exactly the
runs in which it is created and does not end before the flag is cleared. -/
theorem running_truthful_iff {allocate : RingBuffer.Allocator} (created : create allocate cfg = .ok new)
    (ran : LabelledRun.run (step cfg) new actions = some s) :
    (Throughout (step cfg) Truthful new actions ↔ EveryStep (step cfg) StoresNoFlag new actions) ∧
    (Throughout (step cfg) (fun t => t.owner = .starting .launching ∨ Truthful t) new actions ↔
      EveryStep (step cfg) FollowsFlag new actions) := by
  have sound := create_sound created
  have off : new.running = false := by
    obtain ⟨ring, rfl⟩ := create_spec created
    rfl
  refine ⟨⟨fun truthful => ?_, fun clear => ?_⟩, ?_⟩
  · refine truthful.everyStep sound (fun _ _ _ => step_sound) ?_ ran
    intro t a u sound _ taken now
    cases a with
    | owner result =>
      intro place
      exact storing_not_truthful sound place taken now
    | _ => trivial
  · have cleared := clear.throughout (P := fun t => t.running = false) sound off
      (fun _ _ _ => step_sound)
      (fun _ _ _ sound off meets => flag_stays sound off meets) ran
    exact cleared.imp fun _ => truthful_of_off
  · exact LabelledRun.throughout_iff_everyStep sound (.inr (truthful_of_off off))
      (fun _ _ _ => step_sound) (fun _ _ _ => truthful_iff) ran

/-- A start that succeeds, and a device that fails. -/
def deviceFails : List Action :=
  [.callStart, .owner 0, .owner 0, .owner 0, .owner 0, .owner 0, .owner 0, .owner 0, .owner 0,
    .launch true, .enterRead, .readReturns true]

theorem running_truthful_iff_device_fails : ∃ new, create .unlimited {} = .ok new ∧
    ¬ EveryStep (step {}) StoresNoFlag new deviceFails := by
  have ended : ∃ s, run .unlimited {} deviceFails = some s ∧ s.running = true ∧ s.reader = .finished :=
    ⟨_, rfl, rfl, rfl⟩
  obtain ⟨s, ran, on, finished⟩ := ended
  obtain ⟨new, created, ran⟩ := run_eq.mp ran
  refine ⟨new, created, fun clear => ?_⟩
  have truthful := (running_truthful_iff created ran).1.mpr clear
  rcases truthful deviceFails [] s rfl ran on with launched | ⟨dev, active⟩ <;> simp_all

/-- The thread has ended, and `running` is true. -/
theorem running_after_end : ∃ s, run .unlimited {} deviceFails = some s ∧
    s.running = true ∧ s.owner = .idle ∧ s.reader = .finished ∧ ¬ Truthful s := by
  refine ⟨_, rfl, rfl, rfl, rfl, fun truthful => ?_⟩
  rcases truthful rfl with launched | ⟨dev, active⟩
  · cases launched
  · cases active

end DmrWatchkeeper.Capture
