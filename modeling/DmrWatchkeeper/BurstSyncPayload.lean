import DmrWatchkeeper.BurstSyncScanner

/-! Where the payload of a burst comes from. The first half is read from the
73 dibits up to the sync match, and nothing counts whether so many have been
received; until then the history holds the zeros it was initialised with. -/
namespace DmrWatchkeeper.BurstSyncPayload
open BurstSync BurstSyncTracking BurstSyncScanner GreedyScan

/-- Dibit `p` of a stream pushed into a new synchroniser matched a sync word:
it was pushed while hunting, and collecting has begun. -/
def MatchedAt (channel : ℤ) (xs : List UInt8) (p : ℕ) : Prop :=
  ∃ front d back, xs = front ++ d :: back ∧ p = front.length + 1 ∧
    (Stage.after pushDibit (init channel) front).state = .hunting ∧
    (Stage.after pushDibit (init channel) (front ++ [d])).state = .collecting

/-- Every burst handed over had its sync word matched when at least 73 dibits
had been pushed. -/
def PayloadReceived (channel : ℤ) (xs : List UInt8) : Prop :=
  ∀ q b, (q, b) ∈ Stage.emitted pushDibit 0 (init channel) xs →
    ∃ p, MatchedAt channel xs p ∧ q = p + 59 ∧ 73 ≤ p

variable {channel : ℤ} {xs : List UInt8} {p q : ℕ} {b : Burst}

theorem MatchedAt.extend (matched : MatchedAt channel xs p) (more : List UInt8) :
    MatchedAt channel (xs ++ more) p := by
  obtain ⟨front, d, back, rfl, position, before, now⟩ := matched
  exact ⟨front, d, back ++ more, by simp, position, before, now⟩

/-- While a burst is collected, the counter tells how far back its match is. -/
theorem collecting_matched (channel : ℤ) (xs : List UInt8)
    (phase : (Stage.after pushDibit (init channel) xs).state = .collecting) :
    ∃ p, MatchedAt channel xs p ∧
      (Stage.after pushDibit (init channel) xs).collectIdx + p = xs.length ∧
      (Stage.after pushDibit (init channel) xs).collectIdx < 59 := by
  induction xs using List.reverseRecOn with
  | nil => cases phase
  | append_singleton xs d ih =>
    have last : Stage.after pushDibit (init channel) (xs ++ [d]) =
        (pushDibit (Stage.after pushDibit (init channel) xs) d).1 := Stage.after_append ..
    have length : (xs ++ [d]).length = xs.length + 1 := List.length_append
    obtain ⟨-, ⟨-, -, -, hunts, -⟩ | ⟨hunting, -, -, -, index, -⟩ | ⟨collecting, room, -, -, index, -⟩ |
      ⟨-, -, hunts, -⟩⟩ := pushDibit_cases (Stage.after pushDibit (init channel) xs) d
    · rw [last, hunts] at phase
      cases phase
    · refine ⟨xs.length + 1, ⟨xs, d, [], rfl, rfl, hunting, phase⟩, ?_⟩
      rw [last, index, length]
      omega
    · obtain ⟨p, matched, back, -⟩ := ih collecting
      refine ⟨p, matched.extend [d], ?_⟩
      rw [last, index, length]
      omega
    · rw [last, hunts] at phase
      cases phase

/-- A burst is handed over 59 dibits behind its match. -/
theorem emitted_matched (member : (q, b) ∈ Stage.emitted pushDibit 0 (init channel) xs) :
    ∃ p, MatchedAt channel xs p ∧ q = p + 59 := by
  obtain ⟨front, d, back, rfl, position, emits⟩ := Stage.exists_step_of_mem_emitted _ member
  obtain ⟨-, ⟨-, -, quiet, -⟩ | ⟨-, -, quiet, -⟩ | ⟨-, -, quiet, -⟩ | ⟨collecting, full, -⟩⟩ :=
    pushDibit_cases (Stage.after pushDibit (init channel) front) d
  · rw [quiet] at emits
    cases emits
  · rw [quiet] at emits
    cases emits
  · rw [quiet] at emits
    cases emits
  · obtain ⟨p, matched, back_to, room⟩ := collecting_matched channel front collecting
    exact ⟨p, matched.extend (d :: back), by omega⟩

theorem mem_scannedCalls {x : ℤ → UInt8} {n j : ℕ} {ps : List ℕ}
    (member : (q, b) ∈ scannedCalls x channel n ps j) : ∃ p ∈ ps, q = p + 59 ∧ q ≤ n := by
  obtain ⟨⟨p, i⟩, listed, same⟩ := List.mem_map.mp member
  obtain ⟨found, complete⟩ := List.mem_filter.mp listed
  cases same
  exact ⟨p, List.fst_mem_of_mem_zipIdx found, rfl, by simpa using complete⟩

/-- The burst of the first match is handed over if the stream is long enough. -/
theorem early_burst (channel : ℤ) {xs : List UInt8} {p : ℕ} (positive : 1 ≤ p)
    (complete : p + 59 ≤ xs.length) (ends : EndsSync (dibitAt xs) p) :
    ∃ q b, (q, b) ∈ Stage.emitted pushDibit 0 (init channel) xs ∧ q ≤ p + 59 := by
  obtain ⟨ps, selected, -, calls, -⟩ := pushDibit_refines_scanner channel xs
  obtain ⟨first, rest, rfl, early⟩ := selected.first_le positive (by omega) ends
  refine ⟨first + 59, scannedBurst (dibitAt xs) channel first 0, ?_, by omega⟩
  rw [calls, scannedCalls_cons, if_pos (by omega)]
  exact List.mem_append_left _ (List.mem_singleton.mpr rfl)

/-- No burst has a payload that was not received exactly when no sync word
seems to end within the first 72 dibits, unless the stream breaks off before
the burst is complete. -/
theorem payload_received_iff (channel : ℤ) (xs : List UInt8) : PayloadReceived channel xs ↔
    ∀ p, 1 ≤ p → p ≤ 72 → p + 59 ≤ xs.length → ¬ EndsSync (dibitAt xs) p := by
  constructor
  · intro received p positive early complete ends
    obtain ⟨q, b, member, bound⟩ := early_burst channel positive complete ends
    obtain ⟨p', -, position, late⟩ := received q b member
    omega
  · intro silent q b member
    obtain ⟨p, matched, position⟩ := emitted_matched member
    refine ⟨p, matched, position, ?_⟩
    obtain ⟨ps, selected, -, calls, -⟩ := pushDibit_refines_scanner channel xs
    rw [calls] at member
    obtain ⟨p', found, position', complete⟩ := mem_scannedCalls member
    obtain ⟨positive, ends⟩ := selected.hit_of_mem found
    by_contra early
    exact silent p' positive (by omega) (by omega) ends

/-- A stream that begins with the voice sync word of a base station. -/
def syncFirst : List UInt8 :=
  [1, 3, 1, 1, 1, 1, 3, 3, 3, 1, 1, 3, 3, 1, 3, 3, 1, 3, 1, 1, 3, 3, 1, 3] ++ List.replicate 59 0

/-- Its first burst is handed over with 49 dibits that were never received. -/
theorem payload_fabricated :
    ¬ PayloadReceived 0 syncFirst ∧
      ∃ q b, (q, b) ∈ Stage.emitted pushDibit 0 (init 0) syncFirst ∧ q ≤ 83 := by
  have burst : ∃ q b, (q, b) ∈ Stage.emitted pushDibit 0 (init 0) syncFirst ∧ q ≤ 24 + 59 :=
    early_burst 0 (by decide) (by decide)
      (show SyncWords.NearSync (syncWord (dibitAt syncFirst) (24 : ℕ)) by decide +kernel)
  refine ⟨fun received => ?_, burst⟩
  obtain ⟨q, b, member, bound⟩ := burst
  obtain ⟨p, -, position, late⟩ := received q b member
  omega

end DmrWatchkeeper.BurstSyncPayload
