import DmrWatchkeeper.Bptc19696
import DmrWatchkeeper.Library.Stage
import DmrWatchkeeper.LcParser
import DmrWatchkeeper.SlotManager

/-! One channel from dibits to events: the wiring of `demod_chain.cpp` behind
the slicer, and the layer-2 callback of `main.cpp`. An event holds the fields
that the callback formats; the time of day is left out. -/
namespace DmrWatchkeeper.Channel
open BurstSync SlotManager LcParser

inductive Event (F : Type) where
  | voice (ch : String) (slot : ℤ) (src dst : UInt32) (group : Bool)
  | gps (ch : String) (slot : ℤ) (lat lon : F)
  deriving DecidableEq

section Layer2
variable {F : Type} [IntCast F] [Mul F] [Div F] [Neg F] [LT F] [DecidableLT F] [BEq F]

/-- The body of the layer-2 callback, for the burst of its event. -/
def burstEvent (chLabel : String) (burst : Burst) : Option (Event F) :=
  let decoded := Bptc19696.decode burst.dibits
  if !decoded.2 then none
  else if burst.type = .bsVoice ∨ burst.type = .msVoice then
    let lc := parseVoiceLc decoded.1
    if !lc.valid then none
    else some (.voice chLabel burst.timeslot lc.srcId lc.dstId lc.group)
  else if burst.type = .bsData ∨ burst.type = .msData then
    let gps : GpsResult F := parseGps decoded.1
    if gps.valid then some (.gps chLabel burst.timeslot gps.lat gps.lon) else none
  else none

theorem burstEvent_voice (chLabel : String) {burst : Burst} {bits : Vector Bool 96} {lc : LcResult}
    (decoded : Bptc19696.decode burst.dibits = (bits, true))
    (voice : burst.type = .bsVoice ∨ burst.type = .msVoice) (parsed : parseVoiceLc bits = lc)
    (valid : lc.valid = true) :
    (burstEvent chLabel burst : Option (Event F)) =
      some (.voice chLabel burst.timeslot lc.srcId lc.dstId lc.group) := by
  simp only [burstEvent, decoded, parsed, valid, Bool.not_true, Bool.false_eq_true, ↓reduceIte, voice]

/-- The callback made by `make_layer2_cb(ch_label)`: the event that it emits. -/
def layer2 (chLabel : String) (ev : SlotEvent) : Option (Event F) := burstEvent chLabel ev.burst

/-- The slot manager with the layer-2 callback attached. -/
def slotStage (chLabel : String) (m : SlotManager) (burst : Burst) : SlotManager × Option (Event F) :=
  ((m.onBurst burst).1, layer2 chLabel (m.onBurst burst).2)

/-- One dibit through synchroniser, slot manager and layer-2 callback. -/
def step (chLabel : String) :
    BurstSync × SlotManager → UInt8 → (BurstSync × SlotManager) × Option (Event F) :=
  Stage.cascade pushDibit (slotStage chLabel)

theorem slotStage_event (chLabel : String) (m : SlotManager) (burst : Burst) :
    (slotStage chLabel m burst : _ × Option (Event F)).2 = burstEvent chLabel burst := by
  rw [slotStage, layer2, onBurst_burst]

/-- The slot manager passes every burst on, whatever its state. -/
theorem slotStage_outputs (chLabel : String) (m : SlotManager) (bursts : List Burst) :
    (Stage.outputs (slotStage chLabel) m bursts : List (Event F)) =
      bursts.filterMap (burstEvent chLabel) := by
  induction bursts generalizing m with
  | nil => rfl
  | cons burst bursts ih =>
    rw [Stage.outputs_cons, ih, slotStage_event, List.filterMap_cons]
    cases (burstEvent chLabel burst : Option (Event F)) <;> rfl

end Layer2

/-- A channel as `DemodChain` constructs it. -/
def init (channelIdx : ℤ) : BurstSync × SlotManager := (BurstSync.init channelIdx, { channelIdx })

end DmrWatchkeeper.Channel
