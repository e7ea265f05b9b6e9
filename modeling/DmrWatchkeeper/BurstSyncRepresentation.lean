import DmrWatchkeeper.BurstSyncFraming
import DmrWatchkeeper.BurstSyncPayload

/-! What the members of a synchroniser say about each other, in every state that
any pushed bytes lead to: the register and the history are two views of the
stream, the counters tell the state, and the buffer holds what was received. -/
namespace DmrWatchkeeper.BurstSyncRepresentation
open BurstSync BurstSyncTracking BurstSyncFraming BurstSyncPayload StreamWindow

/-- The 24 most recent history entries, oldest first. -/
def recent (s : BurstSync) : List UInt8 :=
  (List.range 24).map fun k : ℕ => s.histAt ((s.histHead - 24 + k) % kHistLen)

/-- The burst in progress has the dibits behind the sync word matched for it. -/
structure Collected (channel : ℤ) (xs : List UInt8) (s : BurstSync) : Prop where
  index : 0 ≤ s.collectIdx ∧ s.collectIdx < 59
  payload : ∃ p, MatchedAt channel xs p ∧ s.collectIdx + p = xs.length ∧
    ∀ k : ℕ, k < min s.collectIdx 49 →
      s.current.dibits[49 + k]? = xs[p + k]?.map (· &&& 0x03)

/-- The members of a synchroniser to which the bytes `xs` have been pushed. -/
structure Represents (channel : ℤ) (xs : List UInt8) (s : BurstSync) : Prop where
  head : 0 ≤ s.histHead ∧ s.histHead < 128
  entries : ∀ i (bound : i < 128), s.hist[i] ≤ 3
  small : s.syncReg.toNat < 2 ^ 48
  packed : s.syncReg.toNat = packNat (recent s)
  collecting : s.state = .collecting ↔ s.syncMatches = s.burstCount + 1
  hunting : s.state = .hunting ↔ s.syncMatches = s.burstCount
  collected : s.state = .collecting → Collected channel xs s

variable {x : ℤ → UInt8} {channel n : ℤ} {s : BurstSync} {xs : List UInt8}

theorem Tracked.records (tracked : Tracked x channel n s) : Records x n s := by
  rcases tracked with ⟨m, hunting⟩ | ⟨p, c, m, rfl, collecting⟩
  · exact hunting.records
  · exact collecting.records

/-- Each slot of the history holds one of the last 128 dibits. -/
theorem Records.entry_le (held : Records x n s) (small : ∀ i, (x i).toNat < 4) {i : ℕ}
    (bound : i < 128) : s.hist[i] ≤ 3 := by
  have place : ((n - 128 + (i - n) % 128) % ((128 : ℕ) : ℤ)).toNat = i := by omega
  have entry : s.hist[i] = x (n - 128 + (i - n) % 128 + 1) := by
    have held := held.hist (n - 128 + (i - n) % 128) (by omega) (by omega)
    rw [place] at held
    simpa [Vector.getD, bound] using held
  rw [entry, UInt8.le_iff_toNat_le]
  exact Nat.le_of_lt_succ (small _)

theorem Records.recent_eq (held : Records x n s) : recent s = window x n 24 := by
  refine List.map_congr_left fun k member => ?_
  have bound := List.mem_range.mp member
  have slot : (s.histHead - 24 + k) % kHistLen = (n - (24 : ℕ) + 1 + k - 1) % 128 := by
    rw [held.head, kHistLen]
    omega
  rw [slot]
  exact held.histAt_eq (by omega) (by omega)

theorem ne_succ (w : UInt64) : w ≠ w + 1 := by
  intro same
  have wrapped := congrArg UInt64.toNat same
  have bound := w.toNat_lt
  rw [UInt64.toNat_add, UInt64.toNat_one] at wrapped
  omega

/-- The counters differ by one while a burst is collected, also where they wrap. -/
theorem Tracked.counters (tracked : Tracked x channel n s) :
    (s.state = .collecting ↔ s.syncMatches = s.burstCount + 1) ∧
      (s.state = .hunting ↔ s.syncMatches = s.burstCount) := by
  rcases tracked with ⟨m, hunting⟩ | ⟨p, c, m, rfl, collecting⟩
  · rw [hunting.state, hunting.found, hunting.handed]
    exact ⟨iff_of_false (by simp) (ne_succ _), iff_of_true rfl rfl⟩
  · rw [collecting.state, collecting.found, collecting.handed, UInt64.ofNat_add]
    exact ⟨iff_of_true rfl rfl, iff_of_false (by simp) (ne_succ _).symm⟩

theorem collected_of_collecting (channel : ℤ) (xs : List UInt8)
    (phase : (Stage.after pushDibit (init channel) xs).state = .collecting) :
    Collected channel xs (Stage.after pushDibit (init channel) xs) := by
  obtain ⟨p, matched, back, room⟩ := collecting_matched channel xs phase
  have tracked := tracked_after channel xs []
  rw [List.append_nil] at tracked
  rcases tracked with ⟨m, hunting⟩ | ⟨start, c, m, position, collecting⟩
  · rw [hunting.state] at phase
    cases phase
  · have index := collecting.index
    obtain rfl : start = p := by omega
    refine ⟨by omega, p, matched, back, fun k inside => ?_⟩
    rw [index] at inside
    have known : p + k < xs.length := by omega
    have behind : ¬49 + k < 49 := by omega
    have there : 49 + k < 49 + min c 49 := by omega
    have dibit : dibitAt xs (p + 1 + k) = xs[p + k] &&& 0x03 := by
      have place : ((p : ℤ) + 1 + k - 1).toNat = p + k := by omega
      rw [dibitAt, if_pos (by omega), place, List.getD_eq_getElem?_getD,
        List.getElem?_eq_getElem known, Option.getD_some]
    rw [collecting.current, Vector.getElem?_eq_getElem (by omega), List.getElem?_eq_getElem known,
      Option.map_some, ← dibit]
    simp [partialBurst, burstAt, there, Fin.lt_def]

/-- Every state that is reached by pushing any bytes is represented so. -/
theorem representation_kept (channel : ℤ) (xs : List UInt8) :
    Represents channel xs (Stage.after pushDibit (init channel) xs) := by
  have tracked := tracked_after channel xs []
  rw [List.append_nil] at tracked
  have records := Tracked.records tracked
  obtain ⟨collecting, hunting⟩ := Tracked.counters tracked
  have packed := records.reg
  rw [← Records.recent_eq records] at packed
  refine ⟨?_, fun i bound => Records.entry_le records (dibitAt_lt xs) bound, ?_, packed, collecting, hunting,
    collected_of_collecting channel xs⟩
  · rw [records.head]
    omega
  · have bound := packNat_lt _ (window_small (dibitAt_lt xs) xs.length 24)
    rw [length_window, ← records.reg] at bound
    exact bound

end DmrWatchkeeper.BurstSyncRepresentation
