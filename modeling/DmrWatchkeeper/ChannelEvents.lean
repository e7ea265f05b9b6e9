import DmrWatchkeeper.BptcCorrection
import DmrWatchkeeper.BurstSyncFraming
import DmrWatchkeeper.Channel
import Mathlib.Algebra.Order.Ring.Unbundled.Rat

/-! From dibits to voice events: a train of voice bursts, met in any reachable
state of a channel, produces one event for each burst, with the identities
that were sent. -/
namespace DmrWatchkeeper.ChannelEvents
open BurstSync BurstSyncFraming BurstSyncTracking Channel LcParser BptcTransmit

/-- A voice burst on the air. Its payload is an encoded Full LC with at most
two flipped bits; the opcode is that of a voice call, and at least one of the
two identities is not zero. -/
structure VoiceBurst extends TrainBurst where
  message : Vector Bool 96
  padding : Bool
  errors : Finset (Fin 196)
  few : errors.card ≤ 2
  payload : firstHalf ++ secondHalf = receivedDibits message padding errors
  voice : pattern.2 = .bsVoice ∨ pattern.2 = .msVoice
  opcode : payloadField message 2 6 = 0 ∨ payloadField message 2 6 = 3
  named : ¬ (payloadField message 48 24 = 0 ∧ payloadField message 24 24 = 0)

variable {F : Type}

/-- The event due for a voice burst. -/
def VoiceBurst.event (b : VoiceBurst) (ch : String) (slot : ℤ) : Event F :=
  .voice ch slot (UInt32.ofNat (payloadField b.message 48 24))
    (UInt32.ofNat (payloadField b.message 24 24)) (payloadField b.message 2 6 == 0)

/-- The dibits of a train of voice bursts. -/
def voiceDibits (train : List VoiceBurst) : List UInt8 :=
  trainDibits (train.map VoiceBurst.toTrainBurst)

/-- The events due for a train, timeslots alternating from `slot` on. -/
def voiceEvents (ch : String) (slot : ℤ) (train : List VoiceBurst) : List (Event F) :=
  train.zipIdx.map fun e => e.1.event ch (if e.2 % 2 = 0 then slot else 3 - slot)

/-- A callback that reports every framed burst reports a train in order. -/
theorem voiceEvents_of_calls {report : Burst → Option (Event F)} {ch : String} {channel : ℤ}
    (reported : ∀ (b : VoiceBurst) slot, report (b.framed channel slot) = some (b.event ch slot))
    (slot : ℤ) (train : List VoiceBurst) :
    ((trainCalls channel slot (train.map VoiceBurst.toTrainBurst)).map Prod.snd).filterMap report =
      voiceEvents ch slot train := by
  have framed : (trainCalls channel slot (train.map VoiceBurst.toTrainBurst)).map Prod.snd =
      train.zipIdx.map fun e => e.1.framed channel (if e.2 % 2 = 0 then slot else 3 - slot) := by
    simp only [trainCalls, List.map_map, List.zipIdx_map, Function.comp_def, Prod.map_fst,
      Prod.map_snd, id_eq]
  rw [framed, List.filterMap_map, voiceEvents]
  simp only [Function.comp_def, reported, List.filterMap_eq_map']

variable [IntCast F] [Mul F] [Div F] [Neg F] [LT F] [DecidableLT F] [BEq F]

/-- A framed voice burst is decoded, parsed and reported. -/
theorem VoiceBurst.reported (b : VoiceBurst) (ch : String) (channel slot : ℤ) :
    (burstEvent ch (b.framed channel slot) : Option (Event F)) = some (b.event ch slot) := by
  have decoded : Bptc19696.decode (b.framed channel slot).dibits = (b.message, true) := by
    rw [show (b.framed channel slot).dibits = _ from b.payload]
    exact BptcCorrection.decode_of_two b.message b.padding b.few
  have voice : (b.framed channel slot).type = .bsVoice ∨ (b.framed channel slot).type = .msVoice :=
    b.voice
  exact burstEvent_voice ch decoded voice (parseVoiceLc_accepts b.message b.opcode b.named) rfl

/-- After any earlier dibits, a train of voice bursts yields at most one event
for a burst in progress and then exactly one voice event for each burst of the
train, in order, with the source, destination and call kind that were sent. -/
theorem voice_train_reported (ch : String) (channel : ℤ) (before : List UInt8)
    (train : List VoiceBurst)
    (quiet : QuietBetween (dibitAt (before ++ voiceDibits train)) before.length
      (train.map VoiceBurst.toTrainBurst)) :
    ∃ (earlier : List (Event F)) (slot : ℤ), earlier.length ≤ 1 ∧
      ((Stage.after (step (F := F) ch) (Channel.init channel) before).1.state = .hunting →
        earlier = []) ∧
      (slot = 1 ∨ slot = 2) ∧
      Stage.outputs (step ch) (Stage.after (step (F := F) ch) (Channel.init channel) before)
        (voiceDibits train) = earlier ++ voiceEvents ch slot train := by
  have tracked := tracked_after channel before (voiceDibits train)
  obtain ⟨earlier, slot, single, -, idle, valid, calls⟩ := tracked.run_train (dibitAt_lt _)
    (train.map VoiceBurst.toTrainBurst) (train_follows before _) quiet
  refine ⟨(earlier.map Prod.snd).filterMap (burstEvent ch), slot, ?_, ?_, valid, ?_⟩
  · exact (List.length_filterMap_le _ _).trans (by rwa [List.length_map])
  · intro hunting
    rw [step, Channel.init, Stage.after_cascade] at hunting
    rw [idle hunting]
    rfl
  · rw [step, Channel.init, Stage.after_cascade, Stage.outputs_cascade, slotStage_outputs, Stage.outputs,
      voiceDibits, calls, List.map_append, List.filterMap_append,
      voiceEvents_of_calls fun b slot => b.reported ch channel slot]

/-- Radio 1 calls talkgroup 2; two sync bits and two payload bits are flipped. -/
def groupCall : VoiceBurst where
  firstHalf := ⟨#[0, 0, 0, 0, 0, 0, 0, 2, 1, 0, 2, 2, 0, 0, 0, 0, 0, 0, 0, 0, 0, 0, 0, 0, 0, 0, 1, 1,
    2, 1, 0, 0, 0, 0, 0, 0, 0, 0, 0, 0, 0, 0, 0, 0, 0, 0, 0, 0, 0], rfl⟩
  sync := ⟨#[3, 1, 3, 3, 3, 3, 1, 1, 1, 3, 3, 1, 1, 3, 1, 1, 1, 1, 1, 1, 3, 3, 1, 3], rfl⟩
  secondHalf := ⟨#[0, 0, 0, 0, 0, 0, 0, 0, 0, 0, 0, 0, 0, 0, 0, 0, 0, 0, 0, 0, 0, 0, 0, 0, 2, 0, 0, 2,
    0, 1, 0, 2, 0, 1, 0, 0, 2, 3, 0, 2, 0, 0, 1, 0, 0, 0, 0, 0, 0], rfl⟩
  guard := Vector.replicate 10 1
  pattern := (kSyncMsVoice, .msVoice)
  listed := by decide
  near := by decide +kernel
  reduced := by decide +kernel
  message := ⟨(List.replicate 46 false ++ true :: List.replicate 24 false ++
    true :: List.replicate 24 false).toArray, rfl⟩
  padding := true
  errors := {20, 150}
  few := by decide
  payload := by
    refine Vector.ext fun k bound => ?_
    rw [receivedDibits_apply]
    revert k
    decide +kernel
  voice := .inr rfl
  opcode := by decide +kernel
  named := by decide +kernel

theorem voice_train_reported_group_call :
    ∃ (earlier : List (Event ℚ)) (slot : ℤ), earlier.length ≤ 1 ∧
      ((Stage.after (step (F := ℚ) "446.006") (Channel.init 0) [1, 2]).1.state = .hunting →
        earlier = []) ∧
      (slot = 1 ∨ slot = 2) ∧
      Stage.outputs (step "446.006") (Stage.after (step (F := ℚ) "446.006") (Channel.init 0) [1, 2])
        (voiceDibits [groupCall]) = earlier ++ voiceEvents "446.006" slot [groupCall] :=
  voice_train_reported "446.006" 0 [1, 2] [groupCall] (by decide +kernel)

end DmrWatchkeeper.ChannelEvents
