import DmrWatchkeeper.BurstSync

/-! The per-timeslot state machine of `slot_manager.cpp`. -/
namespace DmrWatchkeeper
namespace SlotManager
open BurstSync

inductive SlotState where
  | idle
  | voice
  | data
  deriving DecidableEq, Repr

structure SlotEvent where
  burst : Burst
  /-- The state after the burst. -/
  state : SlotState
  /-- Bursts seen so far on this timeslot. -/
  burstCount : UInt64
  deriving DecidableEq

structure SlotCtx where
  state : SlotState := .idle
  count : UInt64 := 0
  missCount : Int := 0
  deriving DecidableEq

/-- Bursts before the idle timeout. -/
def kMissTimeout : Nat := 4

end SlotManager

open SlotManager in
structure SlotManager where
  /-- Index 0 is timeslot 1, index 1 is timeslot 2. -/
  slots : Vector SlotCtx 2 := Vector.replicate 2 {}
  channelIdx : Int := 0

namespace SlotManager
open BurstSync

def slotIndex (ts : Int) : Fin 2 := if ts = 2 then 1 else 0

theorem slotIndex_lt (ts : Int) : (slotIndex ts).val < 2 := (slotIndex ts).isLt

def slotState (m : SlotManager) (ts : Int) : SlotState := m.slots[slotIndex ts].state

def slotBursts (m : SlotManager) (ts : Int) : UInt64 := m.slots[slotIndex ts].count

def advanceState (ctx : SlotCtx) (type : BurstType) : SlotCtx :=
  let ctx := { ctx with missCount := 0 }
  match ctx.state with
  | .idle =>
    if type = .bsVoice ∨ type = .msVoice then { ctx with state := .voice }
    else if type = .bsData ∨ type = .msData then { ctx with state := .data }
    else ctx
  | .voice => if type = .bsData ∨ type = .msData then { ctx with state := .idle } else ctx
  | .data => if type = .bsVoice ∨ type = .msVoice then { ctx with state := .voice } else ctx

/-- `on_burst(burst)`: the new state and the event given to the callback. -/
def onBurst (m : SlotManager) (burst : Burst) : SlotManager × SlotEvent :=
  let idx := slotIndex burst.timeslot
  let ctx := m.slots[idx]
  let ctx := advanceState { ctx with count := ctx.count + 1 } burst.type
  ({ m with slots := m.slots.set idx ctx },
    { burst, state := ctx.state, burstCount := ctx.count })

/-- The slot manager as a stage: it calls back for every burst. -/
def notify (m : SlotManager) (burst : Burst) : SlotManager × Option SlotEvent :=
  ((m.onBurst burst).1, some (m.onBurst burst).2)

@[simp] theorem onBurst_burst (m : SlotManager) (burst : Burst) : (m.onBurst burst).2.burst = burst :=
  rfl

end SlotManager
end DmrWatchkeeper
