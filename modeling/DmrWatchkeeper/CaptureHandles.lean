import DmrWatchkeeper.Capture

/-! What holds of a capture object at every point of every run: which handle is
open, what the flag says, and where the reader can be. From it follows that
each handle that `rtlsdr_open` returned is used and closed as it should be. -/
namespace DmrWatchkeeper.Capture
open HandleDiscipline

/-- The device that `start` has in its local variable. -/
@[simp] def Owner.device : Owner → Option Handle
  | .starting (.settingRate dev) => some dev
  | .starting (.settingFreq dev) => some dev
  | .starting (.closing dev _) => some dev
  | .starting (.settingGainMode dev) => some dev
  | .starting (.settingGain dev) => some dev
  | .starting (.resetting dev) => some dev
  | _ => none

/-- The flag, where the place of the owner tells it. -/
@[simp] def Owner.flag : Owner → Option Bool
  | .idle => none
  | .starting .launching => some true
  | .starting _ => some false
  | .stopping .clearing _ => some true
  | .stopping _ _ => some false
  | .gone => some false

/-- Whether a device is open where the owner is. -/
@[simp] def Owner.holds (running : Bool) : Owner → Bool
  | .idle => running
  | .starting .lookup => false
  | .starting (.opening _) => false
  | .starting _ => true
  | .stopping _ _ => true
  | .gone => false

/-- Whether the thread can exist where the owner is. -/
@[simp] def Owner.threaded (running : Bool) : Owner → Bool
  | .idle => running
  | .stopping .closing _ => false
  | .stopping _ _ => true
  | _ => false

/-- The handle that is open. -/
def State.held (s : State) : Option Handle := if s.owner.holds s.running then s.dev else none

/-- The invariant of every run. -/
structure Sound (s : State) : Prop where
  follows : Follows s.log s.held
  below : ∀ h, .opened h ∈ s.log → h < s.obtained
  device : ∀ dev, s.owner.device = some dev → s.dev = some dev
  kept : s.owner.holds s.running = true → s.dev ≠ none
  flag : ∀ flag, s.owner.flag = some flag → s.running = flag
  away : s.owner.threaded s.running = false → s.reader = .none
  reading : ∀ dev, s.reader = .reading dev → s.dev = some dev

variable {cfg : CaptureConfig} {s t : State} {a : Action} {actions : List Action} {dev h : Handle}

@[simp] theorem State.use_owner (f : Fn) : (s.use dev f).owner = s.owner := rfl
@[simp] theorem State.use_running (f : Fn) : (s.use dev f).running = s.running := rfl
@[simp] theorem State.use_dev (f : Fn) : (s.use dev f).dev = s.dev := rfl
@[simp] theorem State.cancel_owner : (s.cancel dev).owner = s.owner := rfl
@[simp] theorem State.cancel_running : (s.cancel dev).running = s.running := rfl

theorem Sound.held_eq (sound : Sound s) (holds : s.owner.holds s.running = true) :
    ∃ dev, s.dev = some dev ∧ s.held = some dev := by
  obtain ⟨dev, present⟩ := Option.ne_none_iff_exists'.mp (sound.kept holds)
  exact ⟨dev, present, by rw [State.held, if_pos holds, present]⟩

/-- Where there is a thread, the device is open. -/
theorem Sound.active (sound : Sound s) (active : s.reader ≠ .none) :
    s.owner.threaded s.running = true ∧ ∃ dev, s.dev = some dev ∧ s.held = some dev := by
  have threaded : s.owner.threaded s.running = true := by
    by_contra none_
    exact active (sound.away (by simpa using none_))
  refine ⟨threaded, sound.held_eq ?_⟩
  cases place : s.owner with
  | idle => simpa [place] using threaded
  | starting phase => simp [place] at threaded
  | stopping phase destroying => rfl
  | gone => simp [place] at threaded

/-- The thread comes to read while the device is open. -/
theorem Sound.enters (sound : Sound s) (taken : step cfg s .enterRead = some t) :
    s.reader = .launched ∧ s.owner.threaded s.running = true ∧
    ∃ dev, s.dev = some dev ∧ s.held = some dev ∧ t = { s.use dev (.readAsync 15 16384) with
      reader := .reading dev, cancelled := false } := by
  obtain ⟨launched, entered⟩ := enterRead_spec taken
  obtain ⟨threaded, dev, present, held⟩ := sound.active (by rw [launched]; simp)
  refine ⟨launched, threaded, dev, present, held, ?_⟩
  rcases entered with ⟨dev', same, rfl⟩ | ⟨absent, -⟩
  · cases present.symm.trans same
    rfl
  · rw [absent] at present
    cases present

/-- The owner goes on, the device stays as it is. -/
theorem Sound.move (sound : Sound s) (running : Bool) (owner : Owner) (thrown : Option String)
    (holds : owner.holds running = s.owner.holds s.running)
    (device : owner.device = none ∨ owner.device = s.owner.device)
    (flag : owner.flag = none ∨ owner.flag = some running)
    (away : owner.threaded running = false → s.reader = .none) :
    Sound { s with running, owner, thrown } where
  follows := by
    have same : State.held { s with running, owner, thrown } = s.held := by
      simp only [State.held, holds]
    rw [same]
    exact sound.follows
  below := sound.below
  device := by
    intro dev local_
    rcases device with gone | same
    · rw [gone] at local_
      cases local_
    · exact sound.device dev (same ▸ local_)
  kept := fun held => sound.kept (holds ▸ held)
  flag := by
    intro known told
    rcases flag with free | fixed
    · rw [free] at told
      cases told
    · exact Option.some.inj (fixed.symm.trans told)
  away := away
  reading := sound.reading

/-- A call on the open handle. -/
theorem Sound.use (sound : Sound s) (held : s.held = some dev) (f : Fn) : Sound (s.use dev f) where
  follows := by
    have same : (s.use dev f).held = some dev := held
    rw [same]
    exact .used (held ▸ sound.follows) f
  below := by
    intro h member
    exact sound.below h (by simpa [State.use] using member)
  device := sound.device
  kept := sound.kept
  flag := sound.flag
  away := sound.away
  reading := sound.reading

/-- The reader goes on. -/
theorem Sound.read (sound : Sound s) (reader : Reader) (cancelled : Bool)
    (place : s.owner.threaded s.running = true ∨ reader = .none)
    (reading : ∀ dev, reader = .reading dev → s.dev = some dev) :
    Sound { s with reader, cancelled } where
  follows := sound.follows
  below := sound.below
  device := sound.device
  kept := sound.kept
  flag := sound.flag
  away := by
    intro gone
    rcases place with threaded | none_
    · exact absurd gone (by simp only [threaded]; decide)
    · exact none_
  reading := reading

/-- The samples go on. -/
theorem Sound.sample (sound : Sound s) (ring : RingBuffer) (bytesCaptured : UInt64) :
    Sound { s with ring, bytesCaptured } where
  follows := sound.follows
  below := sound.below
  device := sound.device
  kept := sound.kept
  flag := sound.flag
  away := sound.away
  reading := sound.reading

/-- The owner closes the open handle and forgets it. -/
theorem Sound.close (sound : Sound s) (held : s.held = some dev) (kept : Option Handle)
    (owner : Owner) (thrown : Option String) (stopped : s.running = false)
    (finished : owner = .idle ∨ owner = .gone) (away : s.reader = .none) :
    Sound { s.close dev with dev := kept, owner, thrown } where
  follows := by
    have none_held : State.held { s.close dev with dev := kept, owner, thrown } = none := by
      rcases finished with rfl | rfl <;> simp [State.held, State.close, stopped]
    rw [none_held]
    exact .closed (held ▸ sound.follows)
  below := by
    intro h member
    exact sound.below h (by simpa [State.close] using member)
  device := by rcases finished with rfl | rfl <;> simp
  kept := by rcases finished with rfl | rfl <;> simp [State.close, stopped]
  flag := by rcases finished with rfl | rfl <;> simp [State.close, stopped]
  away := fun _ => away
  reading := by simp [State.close, away]

/-- A device is opened. -/
theorem Sound.open (sound : Sound s) (free : s.held = none) (stopped : s.running = false)
    (away : s.reader = .none) :
    Sound { s with
      owner := .starting (.settingRate s.obtained)
      dev := some s.obtained
      obtained := s.obtained + 1
      log := s.log ++ [.opened s.obtained] } where
  follows := by
    have fresh : .opened s.obtained ∉ s.log := fun member =>
      Nat.lt_irrefl _ (sound.below _ member)
    exact .opened (free ▸ sound.follows) fresh
  below := by
    intro h member
    rcases List.mem_append.mp member with earlier | last
    · exact Nat.lt_succ_of_lt (sound.below h earlier)
    · cases List.mem_singleton.mp last
      exact Nat.lt_succ_self _
  device := by simp
  kept := by simp
  flag := by simp [stopped]
  away := fun _ => away
  reading := by simp [away]

theorem create_sound {allocate : RingBuffer.Allocator} (created : create allocate cfg = .ok s) : Sound s := by
  obtain ⟨ring, rfl⟩ := create_spec created
  exact ⟨.start, by simp, by simp, by simp, by simp, by simp, by simp⟩

/-- What the owner finds inside `start`. -/
theorem Sound.starting {phase : Starting} (sound : Sound s) (place : s.owner = .starting phase) :
    s.reader = .none ∧ (phase ≠ .launching → s.running = false) := by
  constructor
  · exact sound.away (by rw [place]; rfl)
  · intro before
    apply sound.flag
    rw [place]
    cases phase with
    | launching => contradiction
    | _ => rfl

/-- A call of `start` on its device, on the way to the ring. -/
theorem Sound.configure (sound : Sound s) {phase next : Starting}
    (place : s.owner = .starting phase) (device : (Owner.starting phase).device = some dev) (f : Fn)
    (goes : (Owner.starting next).device = some dev ∨ next = .flushing) :
    Sound { s.use dev f with owner := .starting next } := by
  obtain ⟨away, stopped⟩ := sound.starting place
  have off : s.running = false := by
    apply stopped
    rintro rfl
    cases device
  have holds : s.owner.holds s.running = true := by
    rw [place]
    cases phase <;> simp_all
  have held : s.held = some dev := by
    rw [State.held, if_pos holds]
    exact sound.device dev (place ▸ device)
  have used := sound.use held f
  apply used.move
  · rw [State.use_owner, State.use_running, holds]
    cases next <;> simp_all
  · rw [State.use_owner, place, device]
    rcases goes with same | rfl
    · exact .inr same
    · exact .inl rfl
  · rw [State.use_running, off]
    cases next <;> simp_all
  · exact fun _ => away

theorem startStep_sound {phase : Starting} {result : ℤ} (sound : Sound s)
    (place : s.owner = .starting phase) (taken : startStep cfg s result phase = some t) :
    Sound t := by
  obtain ⟨away, stopped⟩ := sound.starting place
  cases phase with
  | lookup =>
    have off : s.running = false := stopped (by simp)
    simp only [startStep] at taken
    split at taken <;> cases taken
    · exact sound.move _ _ _ (by simp [place, off]) (by simp) (by simp) (fun _ => away)
    · exact sound.move _ _ _ (by simp [place]) (by simp) (by simp [off]) (fun _ => away)
  | opening index =>
    have off : s.running = false := stopped (by simp)
    simp only [startStep] at taken
    split at taken <;> cases taken
    · exact sound.move _ _ _ (by simp [place, off]) (by simp) (by simp) (fun _ => away)
    · exact sound.open (by simp [State.held, place]) off away
  | settingRate dev =>
    simp only [startStep] at taken
    split at taken <;> cases taken
    · exact sound.configure place rfl _ (.inl rfl)
    · exact sound.configure place rfl _ (.inl rfl)
  | settingFreq dev =>
    simp only [startStep] at taken
    split at taken <;> cases taken
    · exact sound.configure place rfl _ (.inl rfl)
    · exact sound.configure place rfl _ (.inl rfl)
  | closing dev failure =>
    cases taken
    have held : s.held = some dev := by
      rw [State.held, place]
      exact sound.device dev (by rw [place]; rfl)
    exact sound.close held s.dev _ _ (stopped (by simp)) (.inl rfl) away
  | settingGainMode dev =>
    simp only [startStep] at taken
    split at taken <;> cases taken
    · exact sound.configure place rfl _ (.inl rfl)
    · exact sound.configure place rfl _ (.inl rfl)
  | settingGain dev =>
    cases taken
    exact sound.configure place rfl _ (.inl rfl)
  | resetting dev =>
    cases taken
    exact sound.configure place rfl _ (.inr rfl)
  | flushing =>
    cases taken
    have flushed := sound.sample s.ring.reset s.bytesCaptured
    exact flushed.move _ _ _ (by simp [place]) (by simp) (by simp [stopped]) (fun _ => away)
  | storing =>
    cases taken
    exact sound.move _ _ _ (by simp [place]) (by simp) (by simp) (fun _ => away)
  | launching => cases taken

theorem stopStep_sound {phase : Stopping} {destroying : Bool} (sound : Sound s)
    (place : s.owner = .stopping phase destroying) (taken : stopStep s destroying phase = some t) :
    Sound t := by
  cases phase with
  | clearing =>
    cases taken
    exact sound.move _ _ _ (by simp [place]) (by simp) (by simp) (by simp)
  | cancelling =>
    have off : s.running = false := sound.flag false (by rw [place]; rfl)
    obtain ⟨dev, present, held⟩ := sound.held_eq (by rw [place]; rfl)
    simp only [stopStep, present] at taken
    cases taken
    have used := sound.use held .cancelAsync
    have cancelled : Sound (s.cancel dev) :=
      used.read s.reader _ (.inl (by rw [State.use_owner, place]; rfl)) used.reading
    exact cancelled.move _ _ _ (by simp [place]) (by simp) (by simp [off]) (by simp)
  | joining =>
    have off : s.running = false := sound.flag false (by rw [place]; rfl)
    have joined := sound.read .none s.cancelled (.inr rfl) (by simp)
    cases at_ : s.reader with
    | none | finished =>
      simp only [stopStep, at_] at taken
      cases taken
      exact joined.move _ _ _ (by simp [place]) (by simp) (by simp [off]) (fun _ => rfl)
    | launched | reading => simp [stopStep, at_] at taken
  | closing =>
    have off : s.running = false := sound.flag false (by rw [place]; rfl)
    have away := sound.away (by rw [place]; rfl)
    obtain ⟨dev, present, held⟩ := sound.held_eq (by rw [place]; rfl)
    simp only [stopStep, present] at taken
    cases taken
    exact sound.close held none _ _ off (by cases destroying <;> simp) away

theorem step_sound (sound : Sound s) (taken : step cfg s a = some t) : Sound t := by
  cases a with
  | callStart =>
    obtain ⟨place, ⟨-, rfl⟩ | ⟨off, phase, rfl, first⟩⟩ := callStart_spec taken
    · exact sound
    · have away := sound.away (by rw [place]; exact off)
      rcases first with rfl | ⟨index, rfl⟩ <;>
        exact sound.move _ _ _ (by simp [place, off]) (by simp) (by simp [off]) (fun _ => away)
  | callStop =>
    obtain ⟨place, ⟨-, rfl⟩ | ⟨on, rfl⟩⟩ := callStop_spec taken
    · exact sound
    · exact sound.move _ _ _ (by simp [place, on]) (by simp) (by simp [on]) (by simp)
  | destroy =>
    obtain ⟨place, ⟨on, rfl⟩ | ⟨off, rfl⟩⟩ := destroy_spec taken
    · exact sound.move _ _ _ (by simp [place, on]) (by simp) (by simp [on]) (by simp)
    · have away := sound.away (by rw [place]; exact off)
      exact sound.move _ _ _ (by simp [place, off]) (by simp) (by simp [off]) (fun _ => away)
  | owner result =>
    rcases owner_spec taken with ⟨phase, place, taken⟩ | ⟨phase, destroying, place, taken⟩
    · exact startStep_sound sound place taken
    · exact stopStep_sound sound place taken
  | launch created =>
    obtain ⟨place, rfl⟩ := launch_spec taken
    have on : s.running = true := sound.flag true (by rw [place]; rfl)
    have away := (sound.starting place).1
    have moved := sound.move s.running .idle s.thrown (by simp [place, on]) (by simp) (by simp)
      (fun _ => away)
    refine moved.read _ s.cancelled (.inl on) ?_
    cases created <;> simp [away]
  | enterRead =>
    obtain ⟨-, threaded, dev, present, held, rfl⟩ := sound.enters taken
    exact (sound.use held _).read _ _ (.inl threaded) (by simp [present])
  | onSamples buf len =>
    obtain ⟨-, rfl⟩ := onSamples_spec taken
    exact sound.sample _ _
  | readReturns own =>
    obtain ⟨dev, active, -, rfl⟩ := readReturns_spec taken
    obtain ⟨threaded, dev', present, held⟩ := sound.active (by rw [active]; simp)
    cases present.symm.trans (sound.reading dev active)
    exact (sound.use held _).read _ s.cancelled (.inl threaded) (by simp)
  | consume dest len =>
    obtain ⟨-, rfl⟩ := consume_spec taken
    exact sound.sample _ s.bytesCaptured

theorem run_sound {allocate : RingBuffer.Allocator} (ran : run allocate cfg actions = some s) : Sound s := by
  obtain ⟨new, created, ran⟩ := run_eq.mp ran
  exact LabelledRun.run_invariant (create_sound created) (fun _ _ _ => step_sound) ran

/-- In every run each handle is closed at most once and not touched afterwards,
never are two handles open, and when the object is gone each handle that was
obtained has been closed once. -/
theorem handle_discipline {allocate : RingBuffer.Allocator} (ran : run allocate cfg actions = some s) :
    (∀ h, s.log.count (.closed h) ≤ 1) ∧
    (∀ before h after, s.log = before ++ .closed h :: after → ∀ e ∈ after, e.handle ≠ h) ∧
    (∀ before after h h', s.log = before ++ after → OpenIn before h → OpenIn before h' → h = h') ∧
    (s.owner = .gone → s.reader = .none ∧
      ∀ h, .opened h ∈ s.log → s.log.count (.closed h) = 1) := by
  have sound := run_sound ran
  have follows := sound.follows
  refine ⟨follows.closed_at_most_once, ?_, ?_, ?_⟩
  · intro before h after split e member
    rw [split] at follows
    exact follows.silent_after_close member
  · intro before after h h' split left right
    rw [split] at follows
    exact follows.one_open left right
  · intro gone
    have nothing : s.held = none := by
      rw [State.held, gone]
      rfl
    rw [nothing] at follows
    exact ⟨sound.away (by rw [gone]; rfl), fun h obtained => follows.closed_once obtained⟩

/-- A start that the device rejects, another one, and the destructor. -/
def retried : List Action :=
  [.callStart, .owner 0, .owner 0, .owner (-1), .owner 0,
    .callStart, .owner 0, .owner 0, .owner 0, .owner 0, .owner 0, .owner 0, .owner 0, .owner 0,
    .launch true, .enterRead, .destroy, .owner 0, .owner 0, .readReturns false, .owner 0, .owner 0]

theorem handle_discipline_retried : ∃ s, run .unlimited {} retried = some s ∧ s.obtained = 2 ∧
    ∀ h, .opened h ∈ s.log → s.log.count (.closed h) = 1 := by
  have ran : ∃ s, run .unlimited {} retried = some s ∧ s.obtained = 2 ∧ s.owner = .gone := ⟨_, rfl, rfl, rfl⟩
  obtain ⟨s, ran, twice, gone⟩ := ran
  exact ⟨s, ran, twice, ((handle_discipline ran).2.2.2 gone).2⟩

end DmrWatchkeeper.Capture
