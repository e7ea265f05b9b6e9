import DmrWatchkeeper.BptcCorrection
import DmrWatchkeeper.BurstSyncFraming
import DmrWatchkeeper.Channel
import DmrWatchkeeper.DemodChain
import DmrWatchkeeper.FskSlicerNoise
import DmrWatchkeeper.LcParserGps
import DmrWatchkeeper.LcParserVoice

/-! From noisy symbols to events. A train may mix voice and data bursts and
messages that are to be dropped; behind the timing recovery, what is reported of
it depends on the messages alone, not on noise, bit errors or earlier symbols. -/
namespace DmrWatchkeeper.ChannelMessages
open BurstSync BurstSyncFraming BurstSyncTracking SyncWords StreamWindow
open Channel SlotManager LcParser LcParserVoice LcParserGps BptcTransmit FskSlicer FskSlicerNoise

/-- A burst on the air with any message, at most two of its bits flipped. -/
structure SentBurst extends TrainBurst where
  message : Vector Bool 96
  padding : Bool
  errors : Finset (Fin 196)
  few : errors.card ≤ 2
  payload : firstHalf ++ secondHalf = receivedDibits message padding errors

variable {K : Type} [Field K] [LinearOrder K]

instance (bits : Vector Bool 96) : Decidable (Listed bits) := inferInstanceAs (Decidable (_ ∨ _))

instance (bits : Vector Bool 96) : Decidable (Acceptable bits) :=
  inferInstanceAs (Decidable ((_ ∨ _) ∧ _ ∧ _ ∧ ¬_))

/-- The event due for a burst, from its sync word and the fields of its message. -/
def SentBurst.event (b : SentBurst) (ch : String) (slot : ℤ) : Option (Event K) :=
  if b.pattern.2 = .bsVoice ∨ b.pattern.2 = .msVoice then
    if Listed b.message ∧ ¬(dstField b.message = 0 ∧ srcField b.message = 0) then
      some (.voice ch slot (UInt32.ofNat (srcField b.message)) (UInt32.ofNat (dstField b.message))
        (payloadField b.message 2 6 == 0))
    else none
  else if Acceptable b.message then
    some (.gps ch slot (degrees (signedField b.message 8) 90) (degrees (signedField b.message 32) 180))
  else none

/-- The dibits of a train. -/
def airDibits (train : List SentBurst) : List UInt8 := trainDibits (train.map SentBurst.toTrainBurst)

/-- The events due for a train, timeslots alternating from `slot` on. -/
def trainEvents (ch : String) (slot : ℤ) (train : List SentBurst) : List (Event K) :=
  train.zipIdx.filterMap fun e => e.1.event ch (if e.2 % 2 = 0 then slot else 3 - slot)

/-- The stages behind the timing recovery, wired as in `wiredStep`. -/
def slicedStep : FskSlicer K × BurstSync × SlotManager → K → (FskSlicer K × BurstSync × SlotManager) × Option SlotEvent :=
  Stage.cascade FskSlicer.decide (Stage.cascade pushDibit notify)

/-- These stages as a new chain has them. -/
def slicedInit (channel : ℤ) : FskSlicer K × BurstSync × SlotManager :=
  (FskSlicer.init .default, BurstSync.init channel, { channelIdx := channel })

variable [IsStrictOrderedRing K]

/-! ### One burst -/

theorem SentBurst.decoded (b : SentBurst) (channel slot : ℤ) :
    Bptc19696.decode (b.framed channel slot).dibits = (b.message, true) := by
  rw [show (b.framed channel slot).dibits = _ from b.payload]
  exact BptcCorrection.decode_of_two b.message b.padding b.few

theorem data_of_not_voice {type : BurstType} {word : UInt64} (listed : (word, type) ∈ syncTable)
    (other : ¬(type = .bsVoice ∨ type = .msVoice)) : type = .bsData ∨ type = .msData := by
  simp only [syncTable, List.mem_cons, Prod.mk.injEq, List.not_mem_nil, or_false] at listed
  tauto

/-- The callback reports a framed burst as its message is due. -/
theorem SentBurst.reported (b : SentBurst) (ch : String) (channel slot : ℤ) :
    (burstEvent ch (b.framed channel slot) : Option (Event K)) = b.event ch slot := by
  have decoded := b.decoded channel slot
  have type : (b.framed channel slot).type = b.pattern.2 := rfl
  have place : (b.framed channel slot).timeslot = slot := rfl
  simp only [burstEvent, decoded, type, place, SentBurst.event, Bool.not_true, Bool.false_eq_true, if_false]
  by_cases voice : b.pattern.2 = .bsVoice ∨ b.pattern.2 = .msVoice
  · rw [if_pos voice, if_pos voice]
    by_cases accepted : Listed b.message ∧ ¬(dstField b.message = 0 ∧ srcField b.message = 0)
    · have parsed := parseVoiceLc_accepts b.message accepted.1 fun none_ => accepted.2 none_.symm
      rw [if_pos accepted, parsed]
      rfl
    · have refused : (parseVoiceLc b.message).valid = false :=
        Bool.not_eq_true _ ▸ parseVoiceLc_valid_iff.not.mpr accepted
      rw [if_neg accepted, refused]
      rfl
  · rw [if_neg voice, if_neg voice, if_pos (data_of_not_voice b.listed voice)]
    by_cases accepted : Acceptable b.message
    · obtain ⟨lat, lon, -⟩ := parseGps_position (K := K) accepted.1
      rw [if_pos accepted, if_pos ((parseGps_valid_iff (K := K) b.message).mpr accepted), lat, lon]
    · rw [if_neg accepted, if_neg ((parseGps_valid_iff (K := K) b.message).not.mpr accepted)]

/-! ### Trains -/

omit [IsStrictOrderedRing K] in
/-- The slot manager passes every burst on to the callback. -/
theorem notify_reported (ch : String) (m : SlotManager) (bursts : List Burst) :
    (Stage.outputs notify m bursts).filterMap (layer2 ch : SlotEvent → Option (Event K)) =
      bursts.filterMap (burstEvent ch) := by
  induction bursts generalizing m with
  | nil => rfl
  | cons burst bursts ih =>
    have handed : (notify m burst).2 = some (m.onBurst burst).2 := rfl
    rw [Stage.outputs_cons, handed, Option.toList_some, List.filterMap_append, ih,
      ← List.singleton_append (l := bursts), List.filterMap_append]
    rfl

theorem trainCalls_reported (ch : String) (channel slot : ℤ) (train : List SentBurst) :
    ((trainCalls channel slot (train.map SentBurst.toTrainBurst)).map Prod.snd).filterMap (burstEvent ch) =
      (trainEvents ch slot train : List (Event K)) := by
  have framed : (trainCalls channel slot (train.map SentBurst.toTrainBurst)).map Prod.snd =
      train.zipIdx.map fun e => e.1.framed channel (if e.2 % 2 = 0 then slot else 3 - slot) := by
    simp only [trainCalls, List.map_map, List.zipIdx_map, Function.comp_def, Prod.map_fst,
      Prod.map_snd, id_eq]
  rw [framed, List.filterMap_map, trainEvents]
  simp only [Function.comp_def, SentBurst.reported]

/-- What ends far enough behind the start of a stream is the same wherever the
stream starts. -/
theorem syncWord_shift (junk xs : List UInt8) {p : ℤ} (inside : 24 ≤ p) :
    syncWord (dibitAt (junk ++ xs)) (junk.length + p) = syncWord (dibitAt xs) p := by
  have dibits : ∀ k ∈ List.range 24, dibitAt (junk ++ xs) (junk.length + p - (24 : ℕ) + 1 + k) =
      dibitAt xs (p - (24 : ℕ) + 1 + k) := by
    intro k _
    obtain ⟨i, place⟩ : ∃ i : ℕ, p - (24 : ℕ) + k = i := ⟨(p - (24 : ℕ) + k).toNat, by omega⟩
    have late : (junk.length + p - (24 : ℕ) + 1 + k - 1).toNat = junk.length + i := by omega
    have early : (p - (24 : ℕ) + 1 + k - 1).toNat = i := by omega
    rw [dibitAt, dibitAt, if_pos (by omega), if_pos (by omega), late, early, List.getD_eq_getElem?_getD,
      List.getElem?_append_right (Nat.le_add_right ..), Nat.add_sub_cancel_left, List.getD_eq_getElem?_getD]
  rw [syncWord, syncWord, window, window, List.map_congr_left dibits]

theorem quiet_shift {calm xs : List UInt8} {train : List TrainBurst} (lead : 23 ≤ calm.length)
    (quiet : QuietBetween (dibitAt (calm ++ xs)) calm.length train) (junk : List UInt8) :
    QuietBetween (dibitAt (junk ++ calm ++ xs)) (junk ++ calm).length train := by
  intro i bound j first last
  have place : ((junk ++ calm).length : ℤ) + 132 * i + j = junk.length + (calm.length + 132 * i + j) := by
    rw [List.length_append]
    push_cast
    ring
  rw [place, List.append_assoc, syncWord_shift junk (calm ++ xs) (by omega)]
  exact quiet i bound j first last

/-- A train behind any other dibits, of which the last 23 are known. -/
theorem train_reported (ch : String) (channel : ℤ) (junk calm : List UInt8) (train : List SentBurst)
    (lead : 23 ≤ calm.length)
    (quiet : QuietBetween (dibitAt (calm ++ airDibits train)) calm.length (train.map SentBurst.toTrainBurst))
    (m : SlotManager) : ∃ (stray : List (Event K)) (slot : ℤ), stray.length ≤ 1 ∧ (slot = 1 ∨ slot = 2) ∧
      (Stage.outputs notify m (Stage.outputs pushDibit
        (Stage.after pushDibit (BurstSync.init channel) (junk ++ calm)) (airDibits train))).filterMap (layer2 ch) =
        stray ++ trainEvents ch slot train := by
  have tracked := tracked_after channel (junk ++ calm) (airDibits train)
  obtain ⟨earlier, slot, single, -, -, valid, calls⟩ := tracked.run_train (dibitAt_lt _)
    (train.map SentBurst.toTrainBurst) (train_follows (junk ++ calm) _) (quiet_shift lead quiet junk)
  refine ⟨(earlier.map Prod.snd).filterMap (burstEvent ch), slot, ?_, valid, ?_⟩
  · exact (List.length_filterMap_le _ _).trans (by rwa [List.length_map])
  · rw [notify_reported, Stage.outputs, airDibits, calls, List.map_append, List.filterMap_append,
      trainCalls_reported]

/-! ### Symbols -/

/-- Behind a training run, noisy symbols of any calm dibits and of a train are
reported as the messages of the train are due, in order, after at most one event
from before. -/
theorem symbols_reported (ch : String) (channel : ℤ) {A noise : K} (quiet : 0 ≤ noise ∧ 9 * noise < A)
    {earlier : List K} (reach : InReach A noise (Stage.after slicedStep (slicedInit channel) earlier).1)
    {n : ℕ} {before : List UInt8} {values : List K} (training : Training A noise n before values)
    {calm : List UInt8} (lead : 23 ≤ calm.length) {calmValues : List K}
    (carried : List.Forall₂ (Carries A noise) calm calmValues) (train : List SentBurst)
    (between : QuietBetween (dibitAt (calm ++ airDibits train)) calm.length (train.map SentBurst.toTrainBurst))
    {trainValues : List K} (sent : List.Forall₂ (Carries A noise) (airDibits train) trainValues) :
    ∃ (stray : List (Event K)) (slot : ℤ), stray.length ≤ 1 ∧ (slot = 1 ∨ slot = 2) ∧
      (Stage.outputs slicedStep (Stage.after slicedStep (slicedInit channel) (earlier ++ values ++ calmValues))
        trainValues).filterMap (layer2 ch) = stray ++ trainEvents ch slot train := by
  rw [slicedStep, slicedInit, Stage.after_cascade] at reach
  have ordered : FskSlicerLevels.Ordered Config.default (Stage.after FskSlicer.decide (FskSlicer.init .default) earlier) :=
    FskSlicerLevels.run_ordered FskSlicerLevels.default_valid earlier
  obtain ⟨e, positive, close, tuned⟩ := training.tuned quiet ordered reach
  rw [← Stage.after_append] at tuned
  have calmed := tuned.outputs quiet carried ⟨positive, positive⟩ ⟨close, close⟩
  have settled := tuned.run quiet carried ⟨positive, positive⟩
  rw [← Stage.after_append] at settled
  have wide (k : ℕ) : 0 ≤ (0.99 : K) ^ k * e := mul_nonneg (by positivity) positive
  have shrunk (k : ℕ) : (0.99 : K) ^ k * e < A / 3 - 3 * noise :=
    (mul_le_of_le_one_left positive (pow_le_one₀ (by norm_num) (by norm_num))).trans_lt close
  have right := settled.outputs quiet sent ⟨wide _, wide _⟩ ⟨shrunk _, shrunk _⟩
  rw [slicedStep, slicedInit, Stage.after_cascade, Stage.outputs_cascade, right, Stage.after_cascade,
    Stage.outputs_cascade, Stage.outputs_append, calmed]
  exact train_reported ch channel _ calm train lead between _

/-- A position one step north of the equator, with two payload bits flipped. -/
def positionReport : SentBurst where
  firstHalf := (Vector.replicate 49 0).set 3 2
  sync := ⟨#[3, 1, 1, 1, 3, 1, 1, 3, 3, 3, 1, 3, 1, 3, 3, 3, 3, 1, 1, 3, 1, 1, 1, 3], rfl⟩
  secondHalf := ⟨#[0, 0, 0, 0, 3, 0, 0, 0, 1, 0, 0, 0, 0, 0, 0, 0, 0, 0, 0, 0, 0, 0, 0, 1, 2, 0, 1, 0,
    2, 0, 3, 0, 0, 0, 1, 0, 1, 2, 0, 0, 0, 2, 1, 0, 0, 0, 0, 0, 0], rfl⟩
  guard := Vector.replicate 10 0
  pattern := (kSyncBsData, .bsData)
  listed := by decide
  near := by decide +kernel
  reduced := by decide +kernel
  message := northward
  padding := true
  errors := {6, 151}
  few := by decide
  payload := by
    refine Vector.ext fun k bound => ?_
    rw [receivedDibits_apply]
    revert k
    decide +kernel

/-- Behind the training run of a new chain and 23 inner symbols. -/
theorem symbols_reported_position : ∃ (stray : List (Event ℚ)) (slot : ℤ), stray.length ≤ 1 ∧
    (slot = 1 ∨ slot = 2) ∧
    (Stage.outputs slicedStep (Stage.after slicedStep (slicedInit (K := ℚ) 0) ([] ++
      outerPairs.map (nominal 0.03) ++ (List.replicate 23 0).map (nominal 0.03)))
        ((airDibits [positionReport]).map (nominal 0.03))).filterMap (layer2 "446.006") = stray ++
          trainEvents "446.006" slot [positionReport] := by
  have training : Training (0.03 : ℚ) 0.001 43 outerPairs (outerPairs.map (nominal 0.03)) :=
    ⟨carries_nominal (by norm_num) outerPairs_small, by decide, by decide, by norm_num⟩
  refine symbols_reported "446.006" 0 (by norm_num) ?_ training (by decide)
    (carries_nominal (by norm_num) fun d member => List.eq_of_mem_replicate member ▸ by decide)
    [positionReport] (by decide +kernel) (carries_nominal (by norm_num) ?_)
  · constructor <;> norm_num [slicedInit, FskSlicer.init, FskSlicer.Config.default]
  · intro d member
    exact positionReport.reduced d (by simpa [airDibits, trainDibits, TrainBurst.dibits] using member)

end DmrWatchkeeper.ChannelMessages
