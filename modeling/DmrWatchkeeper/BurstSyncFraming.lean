import DmrWatchkeeper.BurstSyncTracking
import DmrWatchkeeper.SyncWords
import Mathlib.Data.Int.Range

/-! Trains of back-to-back bursts. Whatever the synchroniser was doing before
the train, it is hunting again before the first sync word of the train ends,
and from then on it hands over exactly the bursts of the train. -/
namespace DmrWatchkeeper.BurstSyncFraming
open BurstSync BurstSyncTracking SyncWords StreamWindow

/-- A burst on the air: two payload halves around a sync word with at most
four flipped bits, and guard dibits behind. -/
structure TrainBurst where
  firstHalf : Vector UInt8 49
  sync : Vector UInt8 24
  secondHalf : Vector UInt8 49
  guard : Vector UInt8 10
  /-- The intended sync word and the type that it announces. -/
  pattern : UInt64 × BurstType
  listed : pattern ∈ syncTable
  near : Near (packWord sync.toList) pattern.1
  reduced : ∀ d ∈ firstHalf.toList ++ sync.toList ++ secondHalf.toList ++ guard.toList, d.toNat < 4

/-- The 132 dibits of a burst in the order sent. -/
def TrainBurst.dibits (b : TrainBurst) : List UInt8 :=
  b.firstHalf.toList ++ b.sync.toList ++ b.secondHalf.toList ++ b.guard.toList

/-- What the callback is to receive for a burst of a train. -/
def TrainBurst.framed (b : TrainBurst) (channel slot : ℤ) : Burst where
  type := b.pattern.2
  timeslot := slot
  channel := channel
  syncBits := packWord b.sync.toList
  dibits := b.firstHalf ++ b.secondHalf

/-- The dibits of a whole train. -/
def trainDibits (train : List TrainBurst) : List UInt8 := train.flatMap TrainBurst.dibits

/-- No sync word seems to end at dibits 1 to 72 of a burst of the train, which
begins behind position `n`. -/
def QuietBetween (x : ℤ → UInt8) (n : ℤ) (train : List TrainBurst) : Prop :=
  ∀ i < train.length, ∀ j, 1 ≤ j → j ≤ 72 → ¬ NearSync (syncWord x (n + 132 * i + j))

instance (x : ℤ → UInt8) (n : ℤ) (train : List TrainBurst) : Decidable (QuietBetween x n train) :=
  inferInstanceAs (Decidable (∀ i < train.length, ∀ j : ℤ, 1 ≤ j → j ≤ 72 →
    ¬ NearSync (syncWord x (n + 132 * i + j))))

/-- The callbacks for a train, timeslots alternating from `slot` on: the `i`-th
burst is handed over on its last guard dibit. -/
def trainCalls (channel slot : ℤ) (train : List TrainBurst) : List (ℕ × Burst) :=
  train.zipIdx.map fun e =>
    (132 * (e.2 + 1), e.1.framed channel (if e.2 % 2 = 0 then slot else 3 - slot))

/-- Every reachable state is hunting or collecting, in step with the stream. -/
def Tracked (x : ℤ → UInt8) (channel n : ℤ) (s : BurstSync) : Prop :=
  (∃ m, Hunting x channel n m s) ∨
    ∃ (p : ℤ) (c m : ℕ), p + c = n ∧ Collecting x channel p c m s

variable {x : ℤ → UInt8} {channel n : ℤ} {m : ℕ} {s : BurstSync} {d : UInt8} {rest : List UInt8}

@[simp] theorem TrainBurst.length_dibits (b : TrainBurst) : b.dibits.length = 132 := by
  simp [dibits]

theorem and_three_of_lt (small : d.toNat < 4) : d &&& 0x03 = d := by
  apply UInt8.toNat_inj.mp
  rw [UInt8.toNat_and, show (0x03 : UInt8).toNat = 2 ^ 2 - 1 from rfl,
    Nat.and_two_pow_sub_one_eq_mod, Nat.mod_eq_of_lt small]

/-- Masking leaves the dibits of a burst unchanged. -/
theorem TrainBurst.masked (b : TrainBurst) : b.dibits.map (· &&& 0x03) = b.dibits := by
  have same : ∀ d ∈ b.dibits, d &&& 0x03 = d := fun d member => and_three_of_lt (b.reduced d member)
  exact (List.map_congr_left same).trans (List.map_id _)

theorem timeslotOf_valid (toggle : ℤ) : timeslotOf toggle = 1 ∨ timeslotOf toggle = 2 := by
  rw [timeslotOf]
  split
  · exact .inr rfl
  · exact .inl rfl

theorem timeslotOf_add (toggle : ℤ) (i : ℕ) :
    timeslotOf (toggle + i) = if i % 2 = 0 then timeslotOf toggle else 3 - timeslotOf toggle := by
  simp only [timeslotOf]
  split <;> split <;> split <;> omega

theorem QuietBetween.head {b : TrainBurst} {train : List TrainBurst}
    (quiet : QuietBetween x n (b :: train)) :
    ∀ j : ℤ, 1 ≤ j → j ≤ 72 → ¬ NearSync (syncWord x (n + j)) :=
  fun j above below => by simpa using quiet 0 (by simp) j above below

theorem QuietBetween.tail {b : TrainBurst} {train : List TrainBurst}
    (quiet : QuietBetween x n (b :: train)) : QuietBetween x (n + 132) train := by
  intro i bound j above below
  have later := quiet (i + 1) (by simpa using bound) j above below
  rwa [show n + 132 * ((i + 1 : ℕ) : ℤ) + j = n + 132 + 132 * i + j by push_cast; ring] at later

theorem trainDibits_masked (train : List TrainBurst) :
    (trainDibits train).map (· &&& 0x03) = trainDibits train := by
  rw [trainDibits, List.map_flatMap]
  exact List.flatMap_congr fun b _ => b.masked

theorem TrainBurst.syncWord_eq (b : TrainBurst) (there : Follows x n b.dibits) :
    syncWord x (n + 73) = packWord b.sync.toList := by
  rw [dibits, List.append_assoc, List.append_assoc, follows_append, follows_append] at there
  have read := window_of_follows there.2.1
  rw [Vector.length_toList, Vector.length_toList, add_assoc] at read
  exact congrArg packWord read

/-- The stream around the sync word of a train burst holds its payload. -/
theorem TrainBurst.payload_eq (b : TrainBurst) (there : Follows x n b.dibits) (i : Fin 98) :
    (if i < 49 then x (n + 73 - 72 + (i : ℕ)) else x (n + 73 + 1 + ((i : ℕ) - 49))) =
      (b.firstHalf ++ b.secondHalf)[i] := by
  rw [dibits, List.append_assoc, List.append_assoc, follows_append, follows_append, follows_append,
    Vector.length_toList, Vector.length_toList] at there
  obtain ⟨first, _, second, _⟩ := there
  rw [Fin.getElem_fin, Vector.getElem_append]
  by_cases early : i < 49
  · have entry := first i (by simpa [Fin.lt_def] using early)
    rw [Vector.getElem_toList] at entry
    rw [if_pos early, dif_pos (by simpa [Fin.lt_def] using early), ← entry]
    congr 1
    ring
  · have late : 49 ≤ (i : ℕ) := by simpa [Fin.lt_def] using early
    have entry := second (i - 49) (by simp; omega)
    rw [Vector.getElem_toList] at entry
    rw [if_neg early, dif_neg (by omega), ← entry]
    congr 1
    push_cast
    omega

theorem TrainBurst.burstAt_eq (b : TrainBurst) (there : Follows x n b.dibits) :
    burstAt x (n + 73) channel m = b.framed channel (timeslotOf m) := by
  have payload : (Vector.ofFn fun i : Fin 98 => if i < 49 then x (n + 73 - 72 + (i : ℕ))
      else x (n + 73 + 1 + ((i : ℕ) - 49))) = b.firstHalf ++ b.secondHalf := by
    refine Vector.ext fun i bound => ?_
    rw [Vector.getElem_ofFn]
    exact b.payload_eq there ⟨i, bound⟩
  rw [burstAt, b.syncWord_eq there, matchSync_of_near b.listed b.near, payload]
  rfl

section Runs
variable (small : ∀ i, (x i).toNat < 4)
include small

theorem Tracked.step {b : UInt8} (held : Tracked x channel n s) (next : x (n + 1) = b &&& 0x03) :
    Tracked x channel (n + 1) (pushDibit s b).1 := by
  rcases held with ⟨m, hunting⟩ | ⟨p, c, m, rfl, collecting⟩
  · by_cases silent : matchSync (syncWord x (n + 1)) = .unknown
    · exact .inl ⟨m, (hunting.quiet small next silent).2⟩
    · exact .inr ⟨n + 1, 0, m, by simp, (hunting.matched small next silent).2⟩
  · have unfinished := collecting.unfinished
    by_cases room : c + 1 < 59
    · exact .inr ⟨p, c + 1, m, by push_cast; ring, (collecting.more small next room).2⟩
    · have hunting := (collecting.last small next (by omega)).2
      rw [show p + c + 1 = p + 59 by omega]
      exact .inl ⟨m + 1, hunting⟩

theorem Tracked.run (held : Tracked x channel n s) (feeds : Feeds x n rest) :
    Tracked x channel (n + rest.length) (Stage.after pushDibit s rest) := by
  induction rest generalizing s n with
  | nil => simpa using held
  | cons b rest ih =>
    obtain ⟨head, tail⟩ := feeds_cons.mp feeds
    have ran := ih (held.step small head) tail
    rw [Stage.after_cons, List.length_cons]
    rw [show n + ((rest.length + 1 : ℕ) : ℤ) = n + 1 + rest.length by push_cast; ring]
    exact ran

/-- Through a quiet stretch longer than a collection the synchroniser returns
to hunting, after at most one callback for a burst in progress. -/
theorem Tracked.settle (held : Tracked x channel n s) (feeds : Feeds x n rest)
    (long : 59 ≤ rest.length)
    (silent : ∀ p, n < p → p ≤ n + rest.length → ¬ NearSync (syncWord x p)) (k : ℕ) :
    ∃ (earlier : List (ℕ × Burst)) (m : ℕ), earlier.length ≤ 1 ∧ (s.state = .hunting → earlier = [] ∧ s.tsToggle = m) ∧
      (∀ call ∈ earlier, call.1 ≤ k + 59) ∧ Stage.emitted pushDibit k s rest = earlier ∧
      Hunting x channel (n + rest.length) m (Stage.after pushDibit s rest) := by
  have unknown : ∀ p, n < p → p ≤ n + rest.length → matchSync (syncWord x p) = .unknown :=
    fun p above below => by
      by_contra known
      exact silent p above below ((matchSync_ne_unknown_iff _).mp known)
  rcases held with ⟨m, hunting⟩ | ⟨p, c, m, rfl, collecting⟩
  · obtain ⟨quiet, now⟩ := hunting.run_quiet small feeds unknown k
    exact ⟨[], m, by simp, fun _ => ⟨rfl, hunting.toggle⟩, by simp, quiet, now⟩
  · have unfinished := collecting.unfinished
    obtain ⟨front, back, rfl, finishes⟩ : ∃ front back, rest = front ++ back ∧
        c + front.length = 59 :=
      ⟨rest.take (59 - c), rest.drop (59 - c), (List.take_append_drop ..).symm, by
        rw [List.length_take]
        omega⟩
    rw [Feeds, List.map_append, follows_append, List.length_map] at feeds
    obtain ⟨call, hunting⟩ := collecting.run_all small feeds.1 finishes k
    rw [List.length_append] at unknown ⊢
    have back_feeds : Feeds x (p + 59) back := by
      rw [show p + 59 = p + c + front.length by omega]
      exact feeds.2
    obtain ⟨quiet, now⟩ := hunting.run_quiet small back_feeds
      (fun q above below => unknown q (by omega) (by push_cast; omega)) (k + front.length)
    refine ⟨[(k + front.length, burstAt x p channel m)], m + 1, by simp, ?_, ?_, ?_, ?_⟩
    · intro idle
      rw [collecting.state] at idle
      cases idle
    · intro call member
      rw [List.mem_singleton.mp member]
      simp only
      omega
    · rw [Stage.emitted_append, call, quiet, List.append_nil]
    · rw [Stage.after_append, show p + c + ((front.length + back.length : ℕ) : ℤ) =
        p + 59 + back.length by push_cast; omega]
      exact now

/-- A burst of a train, from any tracked state. -/
theorem Tracked.run_burst (held : Tracked x channel n s) (b : TrainBurst)
    (there : Follows x n b.dibits)
    (silent : ∀ j : ℤ, 1 ≤ j → j ≤ 72 → ¬ NearSync (syncWord x (n + j))) (k : ℕ) :
    ∃ (earlier : List (ℕ × Burst)) (m : ℕ), earlier.length ≤ 1 ∧ (s.state = .hunting → earlier = [] ∧ s.tsToggle = m) ∧
      (∀ call ∈ earlier, call.1 ≤ k + 59) ∧
      Stage.emitted pushDibit k s b.dibits =
        earlier ++ [(k + 132, b.framed channel (timeslotOf m))] ∧
      Hunting x channel (n + 132) (m + 1) (Stage.after pushDibit s b.dibits) := by
  have sync := b.syncWord_eq there
  -- the stretch before the last sync dibit, that dibit, and the rest
  obtain ⟨front, d, back, split, lead, trail⟩ : ∃ front d back,
      b.dibits = front ++ d :: back ∧ front.length = 72 ∧ back.length = 59 := by
    have length := b.length_dibits
    refine ⟨b.dibits.take 72, b.dibits[72], b.dibits.drop (72 + 1), ?_, ?_, ?_⟩
    · rw [List.getElem_cons_drop, List.take_append_drop]
    · rw [List.length_take, length]
      decide
    · rw [List.length_drop, length]
  have feeds : Feeds x n b.dibits := by rwa [Feeds, b.masked]
  rw [split, Feeds, List.map_append, follows_append, List.length_map] at feeds
  obtain ⟨earlier, m, single, idle, soon, calls, hunting⟩ := held.settle small feeds.1 (by omega)
    (fun p above below => by
      have quiet := silent (p - n) (by omega) (by omega)
      rwa [add_sub_cancel] at quiet) k
  obtain ⟨head, tail⟩ := feeds_cons.mp feeds.2
  have position : n + front.length + 1 = n + 73 := by omega
  rw [position] at head tail
  obtain ⟨out, collecting⟩ := hunting.matched small (by rw [position]; exact head) (by
    rw [position, sync, matchSync_of_near b.listed b.near]
    exact ne_unknown_of_listed b.listed)
  rw [position] at collecting
  obtain ⟨call, done⟩ := collecting.run_all small (by simpa using tail) (by omega) (k + 73)
  refine ⟨earlier, m, single, idle, soon, ?_, ?_⟩
  · rw [split, Stage.emitted_append, calls, Stage.emitted_cons, out, lead, call, trail, b.burstAt_eq there]
    simp
  · rw [split, Stage.after_append, Stage.after_cons, show n + 132 = n + 73 + 59 by ring]
    exact done

/-- The bursts of a train that is met while hunting. -/
theorem Hunting.run_train (train : List TrainBurst) (toggle : ℤ) (j : ℕ)
    (held : Hunting x channel n m s) (aligned : (m : ℤ) = toggle + j)
    (there : Follows x n (trainDibits train)) (quiet : QuietBetween x n train) :
    Stage.emitted pushDibit (132 * j) s (trainDibits train) = (train.zipIdx j).map fun e =>
      (132 * (e.2 + 1), e.1.framed channel (timeslotOf (toggle + e.2))) := by
  induction train generalizing n m s j with
  | nil => rfl
  | cons b train ih =>
    rw [trainDibits, List.flatMap_cons, follows_append, TrainBurst.length_dibits] at there
    obtain ⟨earlier, m', -, idle, -, calls, hunting⟩ := Tracked.run_burst small (.inl ⟨m, held⟩) b
      there.1 (quiet.head) (132 * j)
    obtain ⟨rfl, same⟩ := idle held.state
    obtain rfl : m = m' := by exact_mod_cast held.toggle.symm.trans same
    have rest := ih (j + 1) hunting (by push_cast; omega) there.2 quiet.tail
    rw [trainDibits, List.flatMap_cons, Stage.emitted_append, calls, List.nil_append, b.length_dibits,
      show 132 * j + 132 = 132 * (j + 1) by ring, List.zipIdx_cons, List.map_cons, ← rest, ← aligned]
    rfl

/-- A train met in any tracked state. -/
theorem Tracked.run_train (held : Tracked x channel n s) (train : List TrainBurst)
    (there : Follows x n (trainDibits train)) (quiet : QuietBetween x n train) :
    ∃ earlier slot, earlier.length ≤ 1 ∧ (∀ call ∈ earlier, call.1 ≤ 59) ∧
      (s.state = .hunting → earlier = []) ∧ (slot = 1 ∨ slot = 2) ∧
      Stage.emitted pushDibit 0 s (trainDibits train) = earlier ++ trainCalls channel slot train := by
  cases train with
  | nil => exact ⟨[], 1, by simp, by simp, fun _ => rfl, .inl rfl, rfl⟩
  | cons b train =>
    rw [trainDibits, List.flatMap_cons, follows_append, TrainBurst.length_dibits] at there
    obtain ⟨earlier, m, single, idle, soon, calls, hunting⟩ :=
      held.run_burst small b there.1 quiet.head 0
    have rest := Hunting.run_train small train m 1 hunting (by push_cast; rfl) there.2 quiet.tail
    refine ⟨earlier, timeslotOf m, single, by simpa using soon, fun idling => (idle idling).1,
      timeslotOf_valid m, ?_⟩
    rw [trainDibits, List.flatMap_cons, Stage.emitted_append, calls, b.length_dibits]
    simp only [Nat.zero_add, Nat.mul_one] at rest ⊢
    rw [trainDibits] at rest
    rw [rest, trainCalls, List.zipIdx_cons, List.map_cons, List.append_assoc]
    simp [timeslotOf_add]

end Runs

/-- Every state reached from the initial one is in step with the stream. -/
theorem tracked_after (channel : ℤ) (before rest : List UInt8) :
    Tracked (dibitAt (before ++ rest)) channel before.length
      (Stage.after pushDibit (init channel) before) := by
  have tracked := Tracked.run (dibitAt_lt (before ++ rest))
    (.inl ⟨0, init_hunting channel (before ++ rest)⟩) (feeds_dibitAt [] before rest rfl)
  rwa [zero_add] at tracked

theorem train_follows (before : List UInt8) (train : List TrainBurst) :
    Follows (dibitAt (before ++ trainDibits train)) before.length (trainDibits train) := by
  have feeds := feeds_dibitAt before (trainDibits train) [] (by rw [List.append_nil])
  rwa [Feeds, trainDibits_masked] at feeds

/-- Framing of a train after any earlier input: at most one callback for a
burst in progress, then one for each burst of the train, on its last guard
dibit, with the received sync bits and payload and alternating timeslots. -/
theorem train_framed (channel : ℤ) (before : List UInt8) (train : List TrainBurst)
    (quiet : QuietBetween (dibitAt (before ++ trainDibits train)) before.length train) :
    ∃ earlier slot, earlier.length ≤ 1 ∧ (∀ call ∈ earlier, call.1 ≤ 59) ∧
      ((Stage.after pushDibit (init channel) before).state = .hunting → earlier = []) ∧
      (slot = 1 ∨ slot = 2) ∧
      Stage.emitted pushDibit 0 (Stage.after pushDibit (init channel) before) (trainDibits train) =
        earlier ++ trainCalls channel slot train :=
  (tracked_after channel before (trainDibits train)).run_train (dibitAt_lt _) train
    (train_follows before train) quiet

/-- A base station's voice burst with an empty payload. -/
def plainBurst : TrainBurst where
  firstHalf := Vector.replicate 49 0
  sync := ⟨#[1, 3, 1, 1, 1, 1, 3, 3, 3, 1, 1, 3, 3, 1, 3, 3, 1, 3, 1, 1, 3, 3, 1, 3], rfl⟩
  secondHalf := Vector.replicate 49 0
  guard := Vector.replicate 10 0
  pattern := (kSyncBsVoice, .bsVoice)
  listed := by decide
  near := by decide +kernel
  reduced := by decide +kernel

/-- A burst behind one that was cut off after 100 dibits. -/
theorem train_framed_after_cut_burst :
    ∃ earlier slot, earlier.length ≤ 1 ∧ (∀ call ∈ earlier, call.1 ≤ 59) ∧
      ((Stage.after pushDibit (init 3) (plainBurst.dibits.take 100)).state = .hunting →
        earlier = []) ∧
      (slot = 1 ∨ slot = 2) ∧
      Stage.emitted pushDibit 0 (Stage.after pushDibit (init 3) (plainBurst.dibits.take 100))
        (trainDibits [plainBurst]) = earlier ++ trainCalls 3 slot [plainBurst] :=
  train_framed 3 (plainBurst.dibits.take 100) [plainBurst] (by decide +kernel)

end DmrWatchkeeper.BurstSyncFraming
