import DmrWatchkeeper.BurstSync
import Mathlib.InformationTheory.Hamming
import Mathlib.Data.Nat.Count

/-! The four sync words as points of a Hamming space. `hamming48` is the
distance of the low 48 bits, and the words are so far apart that at most one
of them can be within the error threshold. -/
namespace DmrWatchkeeper.SyncWords
open BurstSync

/-- The low 48 bits of a word. -/
def low48 (w : UInt64) : Fin 48 → Bool := fun i => w.toNat.testBit i

/-- The sync words in test order, with the burst type that each announces. -/
def syncTable : List (UInt64 × BurstType) :=
  [(kSyncBsVoice, .bsVoice), (kSyncMsVoice, .msVoice), (kSyncBsData, .bsData),
    (kSyncMsData, .msData)]

/-- The low 48 bits are within the threshold of a sync word. -/
def Near (w pattern : UInt64) : Prop := hammingDist (low48 w) (low48 pattern) ≤ kMaxErrors

instance (w pattern : UInt64) : Decidable (Near w pattern) :=
  inferInstanceAs (Decidable (_ ≤ _))

/-- The type of the first sync word, in test order, that is near. -/
def firstMatch (w : UInt64) : BurstType :=
  ((syncTable.find? fun entry => Near w entry.1).map Prod.snd).getD .unknown

/-- The low 48 bits are within the threshold of some sync word. -/
def NearSync (w : UInt64) : Prop := ∃ entry ∈ syncTable, Near w entry.1

instance (w : UInt64) : Decidable (NearSync w) :=
  inferInstanceAs (Decidable (∃ entry ∈ syncTable, Near w entry.1))

variable {w : UInt64} {entry : UInt64 × BurstType}

theorem testBit_masked (w : UInt64) (i : ℕ) :
    (w &&& kMask48).toNat.testBit i = (decide (i < 48) && w.toNat.testBit i) := by
  rw [UInt64.toNat_and, show kMask48.toNat = 2 ^ 48 - 1 from rfl, Nat.testBit_and,
    Nat.testBit_two_pow_sub_one, Bool.and_comm]

theorem low48_masked (w : UInt64) : low48 (w &&& kMask48) = low48 w := by
  funext i
  rw [low48, testBit_masked, decide_eq_true i.isLt, Bool.true_and, low48]

theorem popcount_masked (w : UInt64) :
    popcount (w &&& kMask48) = (Finset.univ.filter fun i : Fin 48 => low48 w i = true).card := by
  have listed : popcount (w &&& kMask48) =
      ((Finset.range 64).filter fun i => i < 48 ∧ w.toNat.testBit i = true).card := by
    rw [← Nat.count_eq_card_filter_range, Nat.count, popcount]
    refine List.countP_congr fun i _ => ?_
    simp only [testBit_masked, Bool.and_eq_true, decide_eq_true_eq]
  rw [listed]
  symm
  refine Finset.card_bij (fun i _ => i) (fun i member => ?_) (fun i _ j _ => Fin.ext) fun i member => ?_
  · have set := (Finset.mem_filter.mp member).2
    exact Finset.mem_filter.mpr ⟨Finset.mem_range.mpr (by omega), i.isLt, set⟩
  · obtain ⟨_, low, set⟩ := Finset.mem_filter.mp member
    exact ⟨⟨i, low⟩, Finset.mem_filter.mpr ⟨Finset.mem_univ _, set⟩, rfl⟩

theorem hamming48_eq (a b : UInt64) : hamming48 a b = hammingDist (low48 a) (low48 b) := by
  rw [hamming48, popcount_masked, hammingDist]
  congr 1
  refine Finset.filter_congr fun i _ => ?_
  simp [low48, UInt64.toNat_xor]

theorem hamming48_masked_le (w pattern : UInt64) :
    hamming48 (w &&& kMask48) pattern ≤ kMaxErrors ↔ Near w pattern := by
  rw [hamming48_eq, low48_masked, Near]

/-- `match_sync` tests the table in order. -/
theorem matchSync_eq (w : UInt64) : matchSync w = firstMatch w := by
  simp only [matchSync, hamming48_masked_le, firstMatch, syncTable, List.find?_cons,
    List.find?_nil]
  by_cases bsVoice : Near w kSyncBsVoice <;> by_cases msVoice : Near w kSyncMsVoice <;>
    by_cases bsData : Near w kSyncBsData <;> by_cases msData : Near w kSyncMsData <;>
    simp [bsVoice, msVoice, bsData, msData]

/-- Two sync words differ in more than twice the threshold. -/
theorem syncTable_apart : ∀ left ∈ syncTable, ∀ right ∈ syncTable, left ≠ right →
    2 * kMaxErrors < hamming48 left.1 right.1 := by
  decide +kernel

theorem near_unique (listed : entry ∈ syncTable) (near : Near w entry.1)
    {other : UInt64 × BurstType} (also : other ∈ syncTable) (close : Near w other.1) :
    entry = other := by
  by_contra distinct
  have far := syncTable_apart entry listed other also distinct
  have triangle := hammingDist_triangle (low48 entry.1) (low48 w) (low48 other.1)
  rw [hamming48_eq] at far
  rw [Near] at near close
  rw [hammingDist_comm] at near
  omega

/-- A word near a sync word is recognised as exactly that one. -/
theorem matchSync_of_near (listed : entry ∈ syncTable) (near : Near w entry.1) :
    matchSync w = entry.2 := by
  rw [matchSync_eq, firstMatch]
  cases found : syncTable.find? fun entry => Near w entry.1 with
  | none =>
    have missed := List.find?_eq_none.mp found entry listed
    simp [near] at missed
  | some other =>
    have same := near_unique listed near (List.mem_of_find?_eq_some found)
      (by simpa using List.find?_some found)
    rw [same]
    rfl

theorem ne_unknown_of_listed (listed : entry ∈ syncTable) : entry.2 ≠ .unknown := by
  revert listed
  revert entry
  decide

theorem matchSync_ne_unknown_iff (w : UInt64) : matchSync w ≠ .unknown ↔ NearSync w := by
  constructor
  · intro known
    rw [matchSync_eq, firstMatch] at known
    cases found : syncTable.find? fun entry => Near w entry.1 with
    | none => simp [found] at known
    | some entry =>
      exact ⟨entry, List.mem_of_find?_eq_some found, by simpa using List.find?_some found⟩
  · rintro ⟨entry, listed, near⟩
    rw [matchSync_of_near listed near]
    exact ne_unknown_of_listed listed

/-! ### Any order of the tests, any few flips -/

/-- `match_sync` with its tests in the order of a table. -/
def matchIn (order : List (UInt64 × BurstType)) (word : UInt64) : BurstType :=
  let w := word &&& kMask48
  ((order.find? fun entry => hamming48 w entry.1 ≤ kMaxErrors).map Prod.snd).getD .unknown

/-- The type of a sync word is told only by that word. -/
theorem matchSync_iff_near (listed : entry ∈ syncTable) (w : UInt64) :
    matchSync w = entry.2 ↔ Near w entry.1 := by
  constructor
  · intro matched
    have types : ∀ left ∈ syncTable, ∀ right ∈ syncTable, left.2 = right.2 → left = right := by decide
    obtain ⟨other, also, near⟩ := (matchSync_ne_unknown_iff w).mp
      (matched ▸ ne_unknown_of_listed listed)
    rw [matchSync_of_near also near] at matched
    rwa [← types other also entry listed matched]
  · exact matchSync_of_near listed

/-- The test that succeeds is the same in every order. -/
theorem matchIn_eq {order : List (UInt64 × BurstType)} (same : order.Perm syncTable) (w : UInt64) :
    matchIn order w = matchSync w := by
  simp only [matchIn, hamming48_masked_le]
  cases found : order.find? fun entry => decide (Near w entry.1) with
  | none =>
    symm
    by_contra known
    obtain ⟨entry, listed, near⟩ := (matchSync_ne_unknown_iff w).mp known
    have missed := List.find?_eq_none.mp found entry (same.mem_iff.mpr listed)
    simp [near] at missed
  | some entry =>
    have listed := same.mem_iff.mp (List.mem_of_find?_eq_some found)
    have near : Near w entry.1 := by simpa using List.find?_some found
    exact (matchSync_of_near listed near).symm

theorem popcount_masked_le (w : UInt64) : popcount (w &&& kMask48) ≤ popcount w := by
  apply List.countP_mono_left
  intro i _ set
  rw [testBit_masked, Bool.and_eq_true] at set
  exact set.2

/-- A few flipped bits leave a word near. -/
theorem near_flipped {flips : UInt64} (few : popcount flips ≤ kMaxErrors) (pattern : UInt64) :
    Near (pattern ^^^ flips) pattern := by
  have flipped : pattern ^^^ flips ^^^ pattern = flips := by
    rw [UInt64.xor_comm pattern flips, UInt64.xor_assoc, UInt64.xor_self, UInt64.xor_zero]
  rw [Near, ← hamming48_eq, hamming48, flipped]
  exact (popcount_masked_le flips).trans few

/-- A word is classified as a type exactly where its low 48 bits differ from
that type's sync word in at most four positions, and as unknown where there is
no such type; there is never more than one, so the order of the tests does not
matter; and up to four flipped bits leave a sync word's type as it is. -/
theorem matchSync_exact (w : UInt64) :
    (∀ entry ∈ syncTable,
      matchSync w = entry.2 ↔ hammingDist (low48 w) (low48 entry.1) ≤ kMaxErrors) ∧
    (matchSync w = .unknown ↔
      ∀ entry ∈ syncTable, kMaxErrors < hammingDist (low48 w) (low48 entry.1)) ∧
    (∀ left ∈ syncTable, ∀ right ∈ syncTable,
      hammingDist (low48 w) (low48 left.1) ≤ kMaxErrors →
      hammingDist (low48 w) (low48 right.1) ≤ kMaxErrors → left = right) ∧
    (∀ order : List (UInt64 × BurstType), order.Perm syncTable → matchIn order w = matchSync w) ∧
    ∀ entry ∈ syncTable, ∀ flips : UInt64, popcount flips ≤ kMaxErrors →
      matchSync (entry.1 ^^^ flips) = entry.2 := by
  refine ⟨fun entry listed => matchSync_iff_near listed w, ?_, ?_, ?_, ?_⟩
  · have known := (matchSync_ne_unknown_iff w).not
    rw [not_not] at known
    rw [known]
    simp only [NearSync, Near, not_exists, not_and, not_le]
  · exact fun left listed right also near close => near_unique listed near also close
  · exact fun order same => matchIn_eq same w
  · exact fun entry listed flips few => matchSync_of_near listed (near_flipped few entry.1)

end DmrWatchkeeper.SyncWords
