import DmrWatchkeeper.Library.Loop
import DmrWatchkeeper.Library.Stage
import DmrWatchkeeper.SlotManager
import Mathlib.Data.List.Induction

/-! The slot manager over whole runs. The state of a timeslot has a closed form
in the types of the bursts on that timeslot alone; nothing that happens on the
other timeslot changes it. -/
namespace DmrWatchkeeper.SlotManagerRuns
open BurstSync SlotManager

def isVoice (type : BurstType) : Bool := type = .bsVoice ∨ type = .msVoice

def isData (type : BurstType) : Bool := type = .bsData ∨ type = .msData

/-- A burst as the synchroniser hands it over. -/
structure Framed (b : Burst) : Prop where
  slot : b.timeslot = 1 ∨ b.timeslot = 2
  kind : b.type ≠ .unknown

instance : DecidablePred Framed := fun b =>
  decidable_of_iff ((b.timeslot = 1 ∨ b.timeslot = 2) ∧ b.type ≠ .unknown)
    ⟨fun h => ⟨h.1, h.2⟩, fun h => ⟨h.slot, h.kind⟩⟩

/-- The types of the bursts on one timeslot, in order. -/
def typesOn (ts : ℤ) (bursts : List Burst) : List BurstType :=
  (bursts.filter (·.timeslot = ts)).map Burst.type

/-- The number of data bursts since the last voice burst. -/
def dataSinceVoice (types : List BurstType) : ℕ := (types.reverse.takeWhile isData).length

/-- The state due after bursts of these types. -/
def dueState (types : List BurstType) : SlotState :=
  if types.getLast?.any isVoice then .voice
  else if types = [] ∨ (types.any isVoice ∧ dataSinceVoice types = 1) then .idle
  else .data

/-- The types that are voice or data, in order. -/
def knownTypes (bursts : List Burst) : List BurstType := (bursts.map Burst.type).filter (· ≠ .unknown)

variable {types : List BurstType} {type : BurstType} {bursts : List Burst} {burst : Burst}

theorem isData_iff (known : type ≠ .unknown) : isData type = true ↔ isVoice type = false := by
  cases type <;> simp_all [isData, isVoice]

theorem ne_unknown_of_mem_knownTypes (member : type ∈ knownTypes bursts) : type ≠ .unknown := by
  simpa using (List.mem_filter.mp member).2

/-! ### The closed form, one burst at a time -/

theorem dueState_eq_voice : dueState types = .voice ↔ types.getLast?.any isVoice = true := by
  unfold dueState
  split
  · simp_all
  · split <;> simp_all

theorem dueState_voice (voice : isVoice type = true) : dueState (types ++ [type]) = .voice := by
  rw [dueState_eq_voice, List.getLast?_concat]
  exact voice

/-- The last burst was voice if there was one and no data burst came since. -/
theorem last_voice_iff (known : ∀ t ∈ types, t ≠ .unknown) :
    types.getLast?.any isVoice = true ↔ types.any isVoice = true ∧ dataSinceVoice types = 0 := by
  rcases List.eq_nil_or_concat' types with rfl | ⟨earlier, last, rfl⟩
  · simp
  · have kind := isData_iff (known last (by simp))
    rw [List.getLast?_concat, dataSinceVoice, List.reverse_concat, List.takeWhile_cons]
    by_cases voice : isVoice last = true
    · have data : isData last = false := by rw [Bool.eq_false_iff, ne_eq, kind, voice]; decide
      simp [voice, data]
    · have data := kind.mpr (Bool.eq_false_iff.mpr voice)
      simp [voice, data]

/-- A data burst ends a voice state; otherwise it makes a data state. -/
theorem dueState_data (known : ∀ t ∈ types, t ≠ .unknown) (data : isData type = true) :
    dueState (types ++ [type]) = if dueState types = .voice then .idle else .data := by
  have voice : isVoice type = false := by
    cases type <;> simp_all [isData, isVoice]
  have since : dataSinceVoice (types ++ [type]) = dataSinceVoice types + 1 := by
    simp [dataSinceVoice, data]
  simp only [dueState_eq_voice, last_voice_iff known]
  simp [dueState, voice, since]

theorem advanceState_due (known : ∀ t ∈ types, t ≠ .unknown) (kind : type ≠ .unknown) (n : UInt64) :
    advanceState { state := dueState types, count := n } type =
      { state := dueState (types ++ [type]), count := n } := by
  by_cases voice : isVoice type = true
  · rw [dueState_voice voice]
    cases dueState types <;> cases type <;> simp_all [advanceState, isVoice]
  · have data := (isData_iff kind).mpr (Bool.eq_false_iff.mpr voice)
    rw [dueState_data known data]
    cases dueState types <;> cases type <;> simp_all [advanceState, isVoice]

/-! ### Runs -/

/-- A burst of unknown type is counted, and changes nothing else. -/
theorem advanceState_unknown (state : SlotState) (n : UInt64) :
    advanceState { state, count := n } .unknown = { state, count := n } := by
  cases state <;> rfl

/-- What the bursts of one timeslot make of its context. -/
theorem slot_closed_form (bursts : List Burst) :
    bursts.foldl (fun ctx b => advanceState { ctx with count := ctx.count + 1 } b.type) {} =
      { state := dueState (knownTypes bursts), count := UInt64.ofNat bursts.length } := by
  induction bursts using List.reverseRecOn with
  | nil => rfl
  | append_singleton bursts burst ih =>
    have grown : UInt64.ofNat (bursts ++ [burst]).length = UInt64.ofNat bursts.length + 1 := by
      simp
    rw [List.foldl_append, ih, grown, List.foldl_cons, List.foldl_nil]
    by_cases unknown : burst.type = .unknown
    · have same : knownTypes (bursts ++ [burst]) = knownTypes bursts := by
        simp [knownTypes, unknown]
      rw [same, unknown]
      exact advanceState_unknown _ _
    · have more : knownTypes (bursts ++ [burst]) = knownTypes bursts ++ [burst.type] := by
        simp [knownTypes, unknown]
      rw [more]
      exact advanceState_due (fun _ => ne_unknown_of_mem_knownTypes) unknown _

variable (channelIdx : ℤ)

theorem after_slots (m : SlotManager) (bursts : List Burst) (k : Fin 2) :
    (Stage.after notify m bursts).slots[k] = (bursts.filter (slotIndex ·.timeslot = k)).foldl
      (fun ctx b => advanceState { ctx with count := ctx.count + 1 } b.type) m.slots[k] := by
  rw [← Loop.foldl_routed]
  congr 1
  induction bursts generalizing m with
  | nil => rfl
  | cons burst bursts ih => rw [Stage.after_cons, ih, List.foldl_cons, notify, onBurst]

/-- The bursts that the slot manager takes for those of a timeslot. -/
def burstsOn (ts : ℤ) (bursts : List Burst) : List Burst :=
  bursts.filter (slotIndex ·.timeslot = slotIndex ts)

/-- A timeslot after a run, in terms of its own bursts. -/
theorem slot_after (bursts : List Burst) (ts : ℤ) :
    getElem (Stage.after notify { channelIdx } bursts).slots (slotIndex ts) (slotIndex_lt ts) =
      { state := dueState (knownTypes (burstsOn ts bursts))
        count := UInt64.ofNat (burstsOn ts bursts).length } := by
  have fresh : ({ channelIdx } : SlotManager).slots[slotIndex ts] = {} := Vector.getElem_replicate _
  rw [after_slots, fresh]
  exact slot_closed_form _

theorem knownTypes_burstsOn (framed : ∀ b ∈ bursts, Framed b) {ts : ℤ} (valid : ts = 1 ∨ ts = 2) :
    knownTypes (burstsOn ts bursts) = typesOn ts bursts ∧
      (burstsOn ts bursts).length = (typesOn ts bursts).length := by
  have own : burstsOn ts bursts = bursts.filter (·.timeslot = ts) := by
    refine List.filter_congr fun b member => ?_
    have slots := (framed b member).slot
    rcases slots with one | two <;> rcases valid with rfl | rfl <;> simp [slotIndex, *]
  have known : knownTypes (burstsOn ts bursts) = typesOn ts bursts := by
    rw [own, knownTypes, typesOn, List.filter_eq_self]
    intro type member
    obtain ⟨b, listed, rfl⟩ := List.mem_map.mp member
    simpa using (framed b (List.mem_filter.mp listed).1).kind
  exact ⟨known, by rw [own, typesOn, List.length_map]⟩

/-- The same where the bursts come from the synchroniser. -/
theorem slot_after_framed (framed : ∀ b ∈ bursts, Framed b) {ts : ℤ} (valid : ts = 1 ∨ ts = 2) :
    getElem (Stage.after notify { channelIdx } bursts).slots (slotIndex ts) (slotIndex_lt ts) =
      { state := dueState (typesOn ts bursts), count := UInt64.ofNat (typesOn ts bursts).length } := by
  obtain ⟨known, counted⟩ := knownTypes_burstsOn framed valid
  rw [slot_after, known, counted]

/-- The event due for the burst at position `k` of a run. -/
def dueEvent (bursts : List Burst) (k : ℕ) (burst : Burst) : SlotEvent :=
  let types := typesOn burst.timeslot (bursts.take (k + 1))
  { burst, state := dueState types, burstCount := UInt64.ofNat types.length }

theorem onBurst_due {earlier : List Burst} (framed : ∀ b ∈ earlier ++ [burst], Framed b) :
    ((Stage.after notify { channelIdx } earlier).onBurst burst).2 =
      dueEvent (earlier ++ [burst]) earlier.length burst := by
  have valid := (framed burst (by simp)).slot
  have kind := (framed burst (by simp)).kind
  have before : ∀ b ∈ earlier, Framed b := fun b member => framed b (List.mem_append_left _ member)
  have slot := slot_after_framed channelIdx before valid
  have known : ∀ t ∈ typesOn burst.timeslot earlier, t ≠ .unknown := by
    intro t member
    obtain ⟨b, own, rfl⟩ := List.mem_map.mp member
    exact (before b (List.mem_filter.mp own).1).kind
  have grown : typesOn burst.timeslot (earlier ++ [burst]) =
      typesOn burst.timeslot earlier ++ [burst.type] := by
    simp [typesOn]
  have whole : (earlier ++ [burst]).take (earlier.length + 1) = earlier ++ [burst] :=
    List.take_of_length_le (by simp)
  simp only [onBurst, slot, advanceState_due known kind, dueEvent, whole, grown]
  simp

/-- One event for each burst, on its call. -/
theorem emitted_due (framed : ∀ b ∈ bursts, Framed b) :
    Stage.emitted notify 0 { channelIdx } bursts =
      bursts.mapIdx fun k burst => (k + 1, dueEvent bursts k burst) := by
  induction bursts using List.reverseRecOn with
  | nil => rfl
  | append_singleton earlier burst ih =>
    have before := ih fun b member => framed b (by simp [member])
    have same : earlier.mapIdx (fun k b => (k + 1, dueEvent (earlier ++ [burst]) k b)) =
        earlier.mapIdx fun k b => (k + 1, dueEvent earlier k b) := by
      refine List.ext_getElem (by simp) fun k bound _ => ?_
      rw [List.length_mapIdx] at bound
      simp only [List.getElem_mapIdx, dueEvent, List.take_append_of_le_length (show k + 1 ≤ _ from bound)]
    rw [Stage.emitted_append, before, List.mapIdx_concat, same, Stage.emitted_cons, notify,
      onBurst_due channelIdx framed]
    simp

/-- The slot manager over any run of voice and data bursts on timeslots 1 and 2:
one event for each call, in order, with the burst unchanged and the number of
calls on its timeslot; and the closed form of both timeslots after the run. -/
theorem slot_manager_runs (channelIdx : ℤ) (bursts : List Burst) (framed : ∀ b ∈ bursts, Framed b) :
    (Stage.emitted notify 0 { channelIdx } bursts).length = bursts.length ∧
      (∀ k (bound : k < bursts.length), ∃ event,
        (Stage.emitted notify 0 { channelIdx } bursts)[k]? = some (k + 1, event) ∧
        event.burst = bursts[k] ∧
        event.burstCount = UInt64.ofNat
          ((bursts.take (k + 1)).countP (·.timeslot = bursts[k].timeslot)) ∧
        event.state = dueState (typesOn bursts[k].timeslot (bursts.take (k + 1)))) ∧
      ∀ ts, ts = 1 ∨ ts = 2 →
        (Stage.after notify { channelIdx } bursts).slotState ts = dueState (typesOn ts bursts) ∧
        (Stage.after notify { channelIdx } bursts).slotBursts ts =
          UInt64.ofNat (bursts.countP (·.timeslot = ts)) := by
  have counted : ∀ ts (run : List Burst), (typesOn ts run).length = run.countP (·.timeslot = ts) :=
    fun ts run => by rw [typesOn, List.length_map, List.countP_eq_length_filter]
  rw [emitted_due channelIdx framed]
  refine ⟨List.length_mapIdx, fun k bound => ?_, fun ts valid => ?_⟩
  · refine ⟨dueEvent bursts k bursts[k], by simp [bound], rfl, ?_, rfl⟩
    rw [dueEvent, counted]
  · have slot := slot_after_framed channelIdx framed valid
    rw [slotState, slotBursts, slot, counted]
    exact ⟨rfl, rfl⟩

/-- Two data bursts after a voice burst on timeslot 1, with a voice burst on
timeslot 2 among them. -/
theorem slot_manager_runs_two_data :
    (Stage.after notify { channelIdx := 3 } [{ type := .bsVoice }, { type := .bsVoice, timeslot := 2 },
      { type := .bsData }, { type := .msData }]).slotState 1 = .data :=
  ((slot_manager_runs 3 [{ type := .bsVoice }, { type := .bsVoice, timeslot := 2 },
    { type := .bsData }, { type := .msData }] (by decide)).2.2 1 (.inl rfl)).1.trans (by decide)

/-! ### Missed bursts -/

/-- At least the last four calls carried the other timeslot. -/
def Missed (ts : ℤ) (bursts : List Burst) : Prop :=
  ∃ earlier missed, bursts = earlier ++ missed ∧ kMissTimeout ≤ missed.length ∧
    ∀ b ∈ missed, slotIndex b.timeslot ≠ slotIndex ts

/-- A voice burst and one data burst end the sequence. -/
def EndsInTerminator (types : List BurstType) : Prop :=
  ∃ earlier voice data, types = earlier ++ [voice] ++ [data] ∧ isVoice voice = true ∧ isData data = true

theorem dueState_eq_idle (known : ∀ t ∈ types, t ≠ .unknown) :
    dueState types = .idle ↔ types = [] ∨ EndsInTerminator types := by
  rcases List.eq_nil_or_concat' types with rfl | ⟨earlier, last, rfl⟩
  · simp [dueState]
  have before : ∀ t ∈ earlier, t ≠ .unknown := fun t member => known t (List.mem_append_left _ member)
  have kind := isData_iff (known last (by simp))
  by_cases voice : isVoice last = true
  · rw [dueState_voice voice]
    constructor
    · intro impossible
      cases impossible
    · rintro (none | ⟨_, v, d, same, -, data⟩)
      · simp at none
      · obtain ⟨-, lasts⟩ := List.append_inj' same rfl
        simp_all
  · have data := kind.mpr (Bool.eq_false_iff.mpr voice)
    have ended : dueState (earlier ++ [last]) = .idle ↔ dueState earlier = .voice := by
      rw [dueState_data before data]
      split <;> simp_all
    rw [ended, dueState_eq_voice]
    constructor
    · intro spoke
      rcases List.eq_nil_or_concat' earlier with rfl | ⟨front, v, rfl⟩
      · simp at spoke
      · rw [List.getLast?_concat] at spoke
        exact .inr ⟨front, v, last, rfl, spoke, data⟩
    · rintro (none | ⟨front, v, d, same, spoke, -⟩)
      · simp at none
      · obtain ⟨rfl, -⟩ := List.append_inj' same rfl
        rw [List.getLast?_concat]
        exact spoke

/-- The timeout edge holds of a run exactly when every timeslot that has missed
four bursts was idle before it missed them. -/
theorem timeout_iff (channelIdx : ℤ) (bursts : List Burst) :
    (∀ ts, ts = 1 ∨ ts = 2 → Missed ts bursts →
      (Stage.after notify { channelIdx } bursts).slotState ts = .idle) ↔
      ∀ ts, ts = 1 ∨ ts = 2 → Missed ts bursts →
        knownTypes (burstsOn ts bursts) = [] ∨
          EndsInTerminator (knownTypes (burstsOn ts bursts)) := by
  refine forall₃_congr fun ts _ _ => ?_
  rw [slotState, slot_after channelIdx bursts ts]
  exact dueState_eq_idle fun _ => ne_unknown_of_mem_knownTypes

/-- A call whose terminator is lost, and four bursts of another. -/
def lostCall : List Burst :=
  { type := .bsVoice } :: List.replicate 4 { type := .bsVoice, timeslot := 2 }

/-- It stays, however long its timeslot is silent. -/
theorem lost_call_stays :
    (∀ b ∈ lostCall, Framed b) ∧ Missed 1 lostCall ∧
      (Stage.after notify { channelIdx := 0 } lostCall).slotState 1 = .voice :=
  ⟨by decide, ⟨[{ type := .bsVoice }], _, rfl, by decide, by decide⟩, by decide⟩

end DmrWatchkeeper.SlotManagerRuns
