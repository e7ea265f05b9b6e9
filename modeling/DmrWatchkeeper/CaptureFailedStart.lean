import DmrWatchkeeper.CaptureHandles

/-! What a `start` that throws leaves behind. Nothing but the samples that
others take changes before a device is open; afterwards `dev_` keeps the device
that the failing branch has closed. -/
namespace DmrWatchkeeper.Capture
open HandleDiscipline

/-- What can happen during a call of `start` that makes no thread: its own
steps, and reads of the ring. -/
def DuringStart : Action → Prop
  | .owner _ => True
  | .consume _ _ => True
  | _ => False

/-- What the library returned, in order. -/
def results (during : List Action) : List ℤ :=
  during.filterMap fun a => match a with
    | .owner result => some result
    | _ => none

/-- The ring after the reads of other threads. -/
def readBy (ring : RingBuffer) (during : List Action) : RingBuffer :=
  during.foldl (fun ring a => match a with
    | .consume dest len => (ring.read dest len).1
    | _ => ring) ring

/-- The lookup of the serial fails, or the open. -/
def NoDevice : Starting → List ℤ → Prop
  | .lookup, lookup :: rest => lookup < 0 ∨ ∃ opened more, rest = opened :: more ∧ opened < 0
  | .opening _, opened :: _ => opened < 0
  | _, _ => False

/-- The first step of a start of the configuration. -/
def firstPhase (cfg : CaptureConfig) : Starting :=
  if cfg.serial ≠ "" then .lookup else .opening cfg.deviceIndex

/-- The object is as before the call, apart from what was read from the ring,
and refers to no closed device. -/
structure Restored (s t : State) (during : List Action) : Prop where
  dev : t.dev = s.dev
  valid : ∀ dev, t.dev = some dev → .closed dev ∉ t.log
  stopped : t.running = false
  threadless : t.reader = .none
  ring : t.ring = readBy s.ring during
  captured : t.bytesCaptured = s.bytesCaptured

variable {cfg : CaptureConfig} {s t u : State} {a : Action} {actions during : List Action}
  {dev : Handle}

/-! ### Every device that `dev_` names was opened -/

def Named (s : State) : Prop := ∀ dev, s.dev = some dev → .opened dev ∈ s.log

theorem Named.extend (named : Named s) (same : t.dev = s.dev) (grows : s.log ⊆ t.log) : Named t :=
  fun dev present => grows (named dev (same ▸ present))

theorem startStep_named {phase : Starting} {result : ℤ} (named : Named s)
    (taken : startStep cfg s result phase = some t) : Named t := by
  cases phase with
  | opening index =>
    simp only [startStep] at taken
    split at taken <;> cases taken
    · exact named.extend rfl (List.Subset.refl _)
    · intro dev present
      cases present
      exact List.mem_append_right _ (List.mem_singleton_self _)
  | lookup | settingRate | settingFreq | settingGainMode =>
    simp only [startStep] at taken
    split at taken <;> cases taken <;> exact named.extend rfl (by simp [State.use])
  | closing | settingGain | resetting | flushing | storing =>
    cases taken
    exact named.extend rfl (by simp [State.use, State.close])
  | launching => cases taken

theorem stopStep_named {phase : Stopping} {destroying : Bool} (named : Named s)
    (taken : stopStep s destroying phase = some t) : Named t := by
  cases phase with
  | clearing =>
    cases taken
    exact named.extend rfl (List.Subset.refl _)
  | cancelling =>
    simp only [stopStep] at taken
    split at taken <;> cases taken <;> exact named.extend rfl (by simp [State.cancel, State.use])
  | joining =>
    simp only [stopStep] at taken
    split at taken <;> cases taken <;> exact named.extend rfl (List.Subset.refl _)
  | closing =>
    simp only [stopStep] at taken
    split at taken <;> cases taken
    · intro dev present
      cases present
    · exact named.extend rfl (List.Subset.refl _)

theorem step_named (named : Named s) (taken : step cfg s a = some t) : Named t := by
  cases a with
  | callStart =>
    obtain ⟨-, ⟨-, rfl⟩ | ⟨-, phase, rfl, -⟩⟩ := callStart_spec taken <;> exact named
  | callStop =>
    obtain ⟨-, ⟨-, rfl⟩ | ⟨-, rfl⟩⟩ := callStop_spec taken <;> exact named
  | destroy =>
    obtain ⟨-, ⟨-, rfl⟩ | ⟨-, rfl⟩⟩ := destroy_spec taken <;> exact named
  | owner result =>
    rcases owner_spec taken with ⟨phase, -, taken⟩ | ⟨phase, destroying, -, taken⟩
    · exact startStep_named named taken
    · exact stopStep_named named taken
  | launch created =>
    obtain ⟨-, rfl⟩ := launch_spec taken
    exact named
  | enterRead =>
    obtain ⟨-, ⟨dev, -, rfl⟩ | ⟨-, rfl⟩⟩ := enterRead_spec taken
    · exact named.extend rfl (by simp [State.use])
    · exact named
  | onSamples buf len =>
    obtain ⟨-, rfl⟩ := onSamples_spec taken
    exact named
  | readReturns own =>
    obtain ⟨dev, -, -, rfl⟩ := readReturns_spec taken
    exact named.extend rfl (by simp [State.use])
  | consume dest len =>
    obtain ⟨-, rfl⟩ := consume_spec taken
    exact named

/-- Where the object is stopped, the device that `dev_` names is closed. -/
theorem closed_of_stopped {allocate : RingBuffer.Allocator} (ran : run allocate cfg actions = some s) (idle : s.owner = .idle)
    (stopped : s.running = false) (present : s.dev = some dev) : .closed dev ∈ s.log := by
  have sound := run_sound ran
  obtain ⟨new, created, ran⟩ := run_eq.mp ran
  have named : Named s := by
    refine LabelledRun.run_invariant ?_ (fun _ _ _ => step_named) ran
    obtain ⟨ring, rfl⟩ := create_spec created
    intro dev present
    cases present
  have free : s.held = none := by simp [State.held, idle, stopped]
  by_contra left
  have held := sound.follows.openIn_iff.mp ⟨named dev present, left⟩
  rw [free] at held
  cases held

/-! ### After the open -/

/-- The call of `start` has opened the device, or has thrown and closed it. -/
def HasOpened (dev : Handle) (s : State) : Prop :=
  s.dev = some dev ∧ (s.owner = .idle ∧ .closed dev ∈ s.log ∨
    ∃ phase, s.owner = .starting phase ∧ (s.owner.device = some dev ∨
      phase = .flushing ∨ phase = .storing ∨ phase = .launching))

theorem startStep_has_opened {phase : Starting} {result : ℤ} (opened : HasOpened dev s)
    (place : s.owner = .starting phase) (taken : startStep cfg s result phase = some t) :
    HasOpened dev t := by
  obtain ⟨present, ⟨idle, -⟩ | ⟨phase', place', holds⟩⟩ := opened
  · rw [place] at idle
    cases idle
  cases place.symm.trans place'
  rw [place] at holds
  cases phase with
  | lookup | opening => simp at holds
  | settingRate | settingFreq | settingGainMode =>
    simp only [startStep] at taken
    split at taken <;> cases taken <;> exact ⟨present, .inr ⟨_, rfl, .inl (by simpa using holds)⟩⟩
  | closing opened failure =>
    cases taken
    have same : opened = dev := by simpa using holds
    exact ⟨present, .inl ⟨rfl, by simp [State.close, same]⟩⟩
  | settingGain =>
    cases taken
    exact ⟨present, .inr ⟨_, rfl, .inl (by simpa using holds)⟩⟩
  | resetting | flushing | storing =>
    cases taken
    exact ⟨present, .inr ⟨_, rfl, .inr (by simp)⟩⟩
  | launching => cases taken

theorem HasOpened.run (opened : HasOpened dev s) (inside : ∀ a ∈ during, DuringStart a)
    (ran : LabelledRun.run (step cfg) s during = some t) : HasOpened dev t := by
  induction during generalizing s with
  | nil =>
    cases ran
    exact opened
  | cons a during ih =>
    obtain ⟨next, taken, rest⟩ := LabelledRun.run_cons.mp ran
    obtain ⟨first, later⟩ := List.forall_mem_cons.mp inside
    refine ih ?_ later rest
    cases a with
    | owner result =>
      rcases owner_spec taken with ⟨phase, place, taken⟩ | ⟨phase, destroying, place, -⟩
      · exact startStep_has_opened opened place taken
      · obtain ⟨-, ⟨idle, -⟩ | ⟨phase', starting, -⟩⟩ := opened <;> simp_all
    | consume dest len =>
      obtain ⟨-, rfl⟩ := consume_spec taken
      exact opened
    | _ => cases first

/-! ### Before the open -/

/-- After the call, only reads of the ring are left. -/
theorem idle_run (idle : s.owner = .idle) (inside : ∀ a ∈ during, DuringStart a)
    (ran : LabelledRun.run (step cfg) s during = some t) :
    t = { s with ring := readBy s.ring during } := by
  induction during generalizing s with
  | nil =>
    cases ran
    rfl
  | cons a during ih =>
    obtain ⟨next, taken, rest⟩ := LabelledRun.run_cons.mp ran
    obtain ⟨first, later⟩ := List.forall_mem_cons.mp inside
    cases a with
    | owner result => simp [step, idle] at taken
    | consume dest len =>
      obtain ⟨-, rfl⟩ := consume_spec taken
      refine ih ?_ later rest
      exact idle
    | _ => cases first

theorem noDevice_lookup {result : ℤ} (found : ¬result < 0) (index : UInt32) (rest : List ℤ) :
    NoDevice .lookup (result :: rest) ↔ NoDevice (.opening index) rest := by
  cases rest <;> simp [NoDevice, found]

/-- A call that has not opened a device yet throws without one, having changed
nothing, or throws having opened and closed one. -/
theorem throws_run {phase : Starting} {ring : RingBuffer} {thrown : Option String}
    (early : phase = .lookup ∨ ∃ index, phase = .opening index)
    (inside : ∀ a ∈ during, DuringStart a)
    (ran : LabelledRun.run (step cfg) { s with ring, owner := .starting phase, thrown } during = some t)
    (threw : t.owner = .idle) :
    (NoDevice phase (results during) ∧
      t = { s with ring := readBy ring during, owner := .idle, thrown := t.thrown }) ∨
    ¬NoDevice phase (results during) ∧ ∃ dev, t.dev = some dev ∧ .closed dev ∈ t.log := by
  induction during generalizing phase ring thrown with
  | nil =>
    cases ran
    cases threw
  | cons a during ih =>
    obtain ⟨next, taken, rest⟩ := LabelledRun.run_cons.mp ran
    obtain ⟨first, later⟩ := List.forall_mem_cons.mp inside
    cases a with
    | owner result =>
      have split : results (.owner result :: during) = result :: results during := rfl
      have same : readBy ring (.owner result :: during) = readBy ring during := rfl
      rw [split, same]
      rcases early with rfl | ⟨index, rfl⟩
      · simp only [step, startStep] at taken
        split at taken
        · cases taken
          obtain rfl := idle_run rfl later rest
          exact .inl ⟨.inl ‹_›, rfl⟩
        · cases taken
          rw [noDevice_lookup ‹_› (UInt32.ofNat result.toNat)]
          exact ih (.inr ⟨_, rfl⟩) later rest
      · simp only [step, startStep] at taken
        split at taken
        · cases taken
          obtain rfl := idle_run rfl later rest
          exact .inl ⟨‹_›, rfl⟩
        · rename_i opens
          cases taken
          have final : HasOpened s.obtained t := by
            refine HasOpened.run ?_ later rest
            exact ⟨rfl, .inr ⟨_, rfl, .inl rfl⟩⟩
          obtain ⟨present, ⟨-, closed⟩ | ⟨phase, starting, -⟩⟩ := final
          · exact .inr ⟨opens, _, present, closed⟩
          · rw [threw] at starting
            cases starting
    | consume dest len =>
      obtain ⟨-, rfl⟩ := consume_spec taken
      exact ih early later rest
    | _ => cases first

/-! ### Whole calls -/

theorem start_begins (idle : s.owner = .idle) (stopped : s.running = false)
    (taken : step cfg s .callStart = some t) :
    t = { s with owner := .starting (firstPhase cfg), thrown := none } := by
  by_cases serial : cfg.serial = "" <;> simp_all [step, firstPhase]

theorem firstPhase_early (cfg : CaptureConfig) :
    firstPhase cfg = .lookup ∨ ∃ index, firstPhase cfg = .opening index := by
  unfold firstPhase
  split
  · exact .inl rfl
  · exact .inr ⟨_, rfl⟩

/-- From a stopped object after any run, a `start` that throws restores the
object exactly where `dev_` was null and the call got no device: the branches
that close the device again do not clear `dev_`, as `stop` does. -/
theorem failed_start_restores_iff {allocate : RingBuffer.Allocator} (ran : run allocate cfg actions = some s)
    (idle : s.owner = .idle)
    (stopped : s.running = false) (inside : ∀ a ∈ during, DuringStart a)
    (starts : LabelledRun.run (step cfg) s (.callStart :: during) = some t)
    (threw : t.owner = .idle) :
    Restored s t during ↔ s.dev = none ∧ NoDevice (firstPhase cfg) (results during) := by
  have sound := run_sound ran
  have away := sound.away (by rw [idle]; exact stopped)
  obtain ⟨next, taken, rest⟩ := LabelledRun.run_cons.mp starts
  obtain rfl := start_begins idle stopped taken
  rcases throws_run (firstPhase_early cfg) inside rest threw with ⟨none_, same⟩ | ⟨some_, dev, present, closed⟩
  · constructor
    · intro restored
      refine ⟨?_, none_⟩
      by_contra named
      obtain ⟨dev, present⟩ := Option.ne_none_iff_exists'.mp named
      have closed := closed_of_stopped ran idle stopped present
      refine restored.valid dev (restored.dev.trans present) ?_
      rw [same]
      exact closed
    · rintro ⟨absent, -⟩
      rw [same]
      exact
        { dev := rfl
          valid := fun dev present => absurd (absent.symm.trans present) (by simp)
          stopped := stopped
          threadless := away
          ring := rfl
          captured := rfl }
  · refine iff_of_false (fun restored => restored.valid dev present closed) ?_
    rintro ⟨-, none_⟩
    exact some_ none_

/-- The open succeeds and the sample rate is refused. -/
def rateRefused : List Action := [.owner 0, .owner (-1), .owner 0]

theorem failed_start_restores_iff_open_refused : ∃ s t, run .unlimited {} [] = some s ∧
    LabelledRun.run (step {}) s [.callStart, .owner (-1)] = some t ∧
    Restored s t [.owner (-1)] := by
  have refused : ∃ s t, run .unlimited {} [] = some s ∧ s.owner = .idle ∧ s.running = false ∧ s.dev = none ∧
      LabelledRun.run (step {}) s [.callStart, .owner (-1)] = some t ∧ t.owner = .idle :=
    ⟨_, _, rfl, rfl, rfl, rfl, rfl, rfl⟩
  obtain ⟨s, t, ran, idle, stopped, absent, starts, threw⟩ := refused
  refine ⟨s, t, ran, starts, ?_⟩
  exact (failed_start_restores_iff ran idle stopped (by simp [DuringStart]) starts threw).mpr
    ⟨absent, by simp [firstPhase, NoDevice, results]⟩

/-- A new object then keeps the closed device. -/
theorem refused_rate_not_restored : ∃ s t, run .unlimited {} [] = some s ∧ s.owner = .idle ∧
    s.running = false ∧ LabelledRun.run (step {}) s (.callStart :: rateRefused) = some t ∧
    t.owner = .idle ∧ t.thrown = some "Capture: failed to set sample rate" ∧
    s.dev = none ∧ t.dev = some 0 ∧ .closed 0 ∈ t.log ∧ ¬Restored s t rateRefused := by
  refine ⟨_, _, rfl, rfl, rfl, rfl, rfl, rfl, rfl, rfl, by decide, fun restored => ?_⟩
  exact restored.valid 0 rfl (by decide)

end DmrWatchkeeper.Capture
