import DmrWatchkeeper.BurstSyncTracking
import DmrWatchkeeper.SyncWords
import DmrWatchkeeper.Library.GreedyScan

/-! The synchroniser as a scanner of the whole stream: sync words are selected
greedily, at least 60 dibits apart, and each one yields the burst around it
once 59 further dibits have arrived. -/
namespace DmrWatchkeeper.BurstSyncScanner
open BurstSync BurstSyncTracking SyncWords StreamWindow GreedyScan

/-- The last 24 dibits at a position are within the threshold of a sync word. -/
def EndsSync (x : ℤ → UInt8) (p : ℕ) : Prop := NearSync (syncWord x p)

/-- The burst around the sync word that ends at `p`, for the match with index
`j` counted from zero. -/
def scannedBurst (x : ℤ → UInt8) (channel : ℤ) (p j : ℕ) : Burst where
  type := firstMatch (syncWord x p)
  timeslot := if j % 2 = 0 then 1 else 2
  channel := channel
  syncBits := syncWord x p
  dibits := Vector.ofFn fun i =>
    if (i : ℕ) < 49 then x (p - 72 + (i : ℕ)) else x (p + 1 + ((i : ℕ) - 49))

/-- The callbacks due within the first `n` dibits for matches at `ps`, the
first of which has index `j`. -/
def scannedCalls (x : ℤ → UInt8) (channel : ℤ) (n : ℕ) (ps : List ℕ) (j : ℕ) : List (ℕ × Burst) :=
  ((ps.zipIdx j).filter fun e => e.1 + 59 ≤ n).map fun e => (e.1 + 59, scannedBurst x channel e.1 e.2)

variable {x : ℤ → UInt8} {channel : ℤ} {n m p : ℕ} {ps : List ℕ} {s : BurstSync}
  {rest : List UInt8}

theorem burstAt_eq_scanned : burstAt x p channel m = scannedBurst x channel p m := by
  have parity : timeslotOf m = if m % 2 = 0 then 1 else 2 := by
    rw [timeslotOf]
    split <;> split <;> omega
  rw [burstAt, scannedBurst, matchSync_eq, parity]
  rfl

theorem scannedCalls_cons (j : ℕ) : scannedCalls x channel n (p :: ps) j =
    (if p + 59 ≤ n then [(p + 59, scannedBurst x channel p j)] else []) ++
      scannedCalls x channel n ps (j + 1) := by
  rw [scannedCalls, List.zipIdx_cons, List.filter_cons]
  split <;> simp_all [scannedCalls]

theorem silent_of_not_endsSync (silent : ¬ EndsSync x p) : matchSync (syncWord x p) = .unknown := by
  by_contra known
  exact silent ((matchSync_ne_unknown_iff _).mp known)

section Scan
variable (small : ∀ i, (x i).toNat < 4)
include small

/-- Where no sync word ends, nothing happens. -/
theorem Hunting.run_silent (held : Hunting x channel n m s) (feeds : Feeds x n rest)
    (silent : ∀ p, n < p → p ≤ n + rest.length → ¬ EndsSync x p) :
    Stage.emitted pushDibit n s rest = [] ∧
      Hunting x channel (n + rest.length) m (Stage.after pushDibit s rest) := by
  refine held.run_quiet small feeds (fun p above below => ?_) n
  obtain ⟨p, rfl⟩ := Int.eq_ofNat_of_zero_le (show 0 ≤ p by omega)
  exact silent_of_not_endsSync (silent p (by omega) (by omega))

/-- Up to the first position where one ends, nothing is handed over; from there
on its burst is collected. -/
theorem Hunting.run_to_sync {front back : List UInt8} {b : UInt8}
    (held : Hunting x channel n m s) (feeds : Feeds x n (front ++ b :: back))
    (position : p = n + front.length + 1) (hits : EndsSync x p)
    (least : ∀ q, n < q → q < p → ¬ EndsSync x q) :
    Feeds x p back ∧ ∃ t, Collecting x channel p 0 m t ∧
      Stage.emitted pushDibit n s (front ++ b :: back) = Stage.emitted pushDibit p t back ∧
      Stage.after pushDibit s (front ++ b :: back) = Stage.after pushDibit t back := by
  rw [Feeds, List.map_append, follows_append, List.map_cons, follows_cons, List.length_map] at feeds
  obtain ⟨ahead, next, tail⟩ := feeds
  have here : (n : ℤ) + front.length + 1 = p := by omega
  obtain ⟨quiet, at_sync⟩ := Hunting.run_silent small held ahead
    fun q after_n before => least q after_n (by omega)
  obtain ⟨out, collecting⟩ := at_sync.matched small next (by
    rw [here]
    exact (matchSync_ne_unknown_iff _).mpr hits)
  rw [here] at collecting tail
  refine ⟨tail, _, collecting, ?_, ?_⟩
  · rw [Stage.emitted_append, quiet, Stage.emitted_cons, out, position]
    rfl
  · rw [Stage.after_append, Stage.after_cons]

/-- From a hunting state, the rest of a stream is scanned greedily. -/
theorem Hunting.run_scan {last lo : ℕ} (selected : Selects (EndsSync x) 60 last lo ps)
    (held : Hunting x channel n m s) (feeds : Feeds x n rest) (from_lo : lo = n + 1)
    (to_last : last = n + rest.length) :
    Stage.emitted pushDibit n s rest = scannedCalls x channel last ps m ∧
      (Stage.after pushDibit s rest).syncMatches = UInt64.ofNat (m + ps.length) ∧
      (Stage.after pushDibit s rest).burstCount =
        UInt64.ofNat (m + (scannedCalls x channel last ps m).length) ∧
      (Stage.after pushDibit s rest).tsToggle = (m + ps.length : ℕ) := by
  induction selected generalizing n m s rest with
  | done silent =>
    obtain ⟨quiet, now⟩ := Hunting.run_silent small held feeds
      fun p above below => silent p (by omega) (by omega)
    exact ⟨quiet, now.found, now.handed, now.toggle⟩
  | @next lo p ps above known hits least greedy ih =>
    -- up to the sync word, the sync word's last dibit, and what follows it
    obtain ⟨front, b, back, rfl, position⟩ : ∃ front b back, rest = front ++ b :: back ∧
        p = n + front.length + 1 := by
      have inside : p - n - 1 < rest.length := by omega
      refine ⟨rest.take (p - n - 1), rest[p - n - 1], rest.drop (p - n - 1 + 1), ?_, ?_⟩
      · rw [List.getElem_cons_drop, List.take_append_drop]
      · rw [List.length_take]
        omega
    rw [List.length_append, List.length_cons] at to_last
    obtain ⟨tail, t, collecting, emits, ends⟩ := Hunting.run_to_sync small held feeds position
      hits fun q after_n before => least q (by omega) before
    rw [emits, ends]
    by_cases complete : p + 59 ≤ last
    · obtain ⟨burst, later, rfl, full⟩ : ∃ burst later, back = burst ++ later ∧ burst.length = 59 :=
        ⟨back.take 59, back.drop 59, (List.take_append_drop ..).symm, by
          rw [List.length_take]
          omega⟩
      rw [List.length_append] at to_last
      rw [Feeds, List.map_append, follows_append, List.length_map, full] at tail
      obtain ⟨call, hunting⟩ := collecting.run_all small (by simpa [Feeds] using tail.1)
        (by omega) p
      obtain ⟨calls, found, handed, toggle⟩ := ih (n := p + 59) (m := m + 1)
        (by exact_mod_cast hunting) (by exact_mod_cast tail.2) (by omega) (by omega)
      rw [Stage.emitted_append, call, Stage.after_append, full, calls, scannedCalls_cons,
        if_pos complete, burstAt_eq_scanned]
      refine ⟨rfl, ?_, ?_, ?_⟩
      · rw [found, List.length_cons, Nat.add_assoc, Nat.add_comm 1]
      · rw [handed, List.length_append, List.length_singleton, Nat.add_assoc]
      · rw [toggle, List.length_cons, Nat.add_assoc, Nat.add_comm 1]
    · obtain ⟨none, partway⟩ := collecting.run_part small (by simpa [Feeds] using tail) (by omega) p
      have nil := selects_unique greedy (selects_nil_of_past (by omega))
      subst nil
      rw [none, scannedCalls_cons, if_neg complete]
      exact ⟨rfl, partway.found, partway.handed, partway.toggle⟩

end Scan

/-- The synchroniser refines the scanner: its callbacks, on their dibits, and
both counters are determined by the greedy selection of sync words. -/
theorem pushDibit_refines_scanner (channel : ℤ) (xs : List UInt8) :
    ∃ ps, Selects (EndsSync (dibitAt xs)) 60 xs.length 1 ps ∧
      (∀ qs, Selects (EndsSync (dibitAt xs)) 60 xs.length 1 qs → qs = ps) ∧
      Stage.emitted pushDibit 0 (init channel) xs =
        scannedCalls (dibitAt xs) channel xs.length ps 0 ∧
      (Stage.after pushDibit (init channel) xs).syncMatches = UInt64.ofNat ps.length ∧
      (Stage.after pushDibit (init channel) xs).burstCount =
        UInt64.ofNat (scannedCalls (dibitAt xs) channel xs.length ps 0).length := by
  obtain ⟨ps, selected⟩ : ∃ ps, Selects (EndsSync (dibitAt xs)) 60 xs.length 1 ps :=
    selects_total (by decide) 1
  have feeds : Feeds (dibitAt xs) 0 xs := feeds_dibitAt [] xs [] (by simp)
  obtain ⟨calls, found, handed, -⟩ := Hunting.run_scan (n := 0) (dibitAt_lt xs) selected
    (init_hunting channel xs) feeds rfl (Nat.zero_add _).symm
  rw [Nat.zero_add] at found handed
  exact ⟨ps, selected, fun qs other => selects_unique other selected, calls, found, handed⟩

end DmrWatchkeeper.BurstSyncScanner
