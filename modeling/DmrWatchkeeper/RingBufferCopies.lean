import DmrWatchkeeper.Library.StreamWindow
import DmrWatchkeeper.RingBuffer
import Mathlib.Data.List.Range

/-! The arithmetic of one `write` or `read`: how many bytes it goes on with,
and which cells it touches. The two copies at the wrap point are one run of
consecutive positions, reduced modulo the capacity. -/
namespace DmrWatchkeeper.RingBufferCopies
open RingBuffer FreeRunning StreamWindow

/-- A buffer as the constructor makes it: `2 ^ k` bytes and the mask to match. -/
structure Sized (r : RingBuffer) (k : ℕ) : Prop where
  capacity : r.capacity.toNat = 2 ^ k
  mask : r.mask.toNat = 2 ^ k - 1

/-- The first bytes of an array. -/
def bytes (data : ℕ → UInt8) (n : ℕ) : List UInt8 := (List.range n).map data

variable {r : RingBuffer} {k H T : ℕ} {index len head tail : UInt64}

@[simp] theorem length_bytes (data : ℕ → UInt8) (n : ℕ) : (bytes data n).length = n := by
  simp [bytes]

@[simp] theorem getElem_bytes (data : ℕ → UInt8) (n : ℕ) {i : ℕ} (bound : i < (bytes data n).length) :
    (bytes data n)[i] = data i := by
  simp [bytes]

theorem isPowerOfTwo_iff (v : UInt64) : isPowerOfTwo v = true ↔ ∃ k, v.toNat = 2 ^ k := by
  rw [isPowerOfTwo, Bool.and_eq_true, bne_iff_ne, beq_iff_eq]
  constructor
  · rintro ⟨nonzero, cleared⟩
    have positive : v.toNat ≠ 0 := fun zero => nonzero (UInt64.toNat_inj.mp zero)
    have one_le : (1 : UInt64) ≤ v := by
      rw [UInt64.le_iff_toNat_le]
      exact Nat.one_le_iff_ne_zero.mpr positive
    have low := congrArg UInt64.toNat cleared
    rw [UInt64.toNat_and, UInt64.toNat_sub_of_le _ _ one_le] at low
    exact Nat.ne_zero_and_sub_one_eq_zero_iff_isPowerOfTwo.mp ⟨positive, low⟩
  · rintro ⟨k, power⟩
    have positive : v.toNat ≠ 0 := by
      rw [power]
      exact (Nat.two_pow_pos k).ne'
    have one_le : (1 : UInt64) ≤ v := by
      rw [UInt64.le_iff_toNat_le]
      exact Nat.one_le_iff_ne_zero.mpr positive
    obtain ⟨_, low⟩ := Nat.ne_zero_and_sub_one_eq_zero_iff_isPowerOfTwo.mpr ⟨k, power⟩
    refine ⟨fun zero => positive (congrArg UInt64.toNat zero), UInt64.toNat_inj.mp ?_⟩
    rw [UInt64.toNat_and, UInt64.toNat_sub_of_le _ _ one_le]
    exact low

theorem Sized.lt (sized : Sized r k) : k < 64 := by
  have bound := r.capacity.toNat_lt
  rw [sized.capacity] at bound
  exact (Nat.pow_lt_pow_iff_right (by decide)).mp bound

/-- The constructor accepts the powers of two for which there is memory. -/
theorem create_iff {allocate : Allocator} {c : UInt64} : create allocate c = .ok r ↔
    allocate c = .ok () ∧ (∃ k, c.toNat = 2 ^ k) ∧ r = ⟨c, c - 1, fun _ => 0, 0, 0, 0⟩ := by
  rw [create, ← isPowerOfTwo_iff]
  cases allocate c with
  | error thrown => simp
  | ok done => cases isPowerOfTwo c <;> simp [eq_comm]

theorem create_sized {allocate : Allocator} {c : UInt64} (created : create allocate c = .ok r) :
    ∃ k, Sized r k ∧ c.toNat = 2 ^ k ∧ r = ⟨c, c - 1, fun _ => 0, 0, 0, 0⟩ := by
  obtain ⟨-, ⟨k, power⟩, rfl⟩ := create_iff.mp created
  have one_le : (1 : UInt64) ≤ c := by
    rw [UInt64.le_iff_toNat_le, power]
    exact Nat.two_pow_pos k
  refine ⟨k, ⟨power, ?_⟩, power, rfl⟩
  rw [UInt64.toNat_sub_of_le _ _ one_le, power]
  rfl

theorem toNat_min (a b : UInt64) : (min a b).toNat = min a.toNat b.toNat := by
  simp only [min, UInt64.le_iff_toNat_le]
  split <;> omega

/-! ### Lengths -/

theorem freeSpace_toNat (sized : Sized r k) (ahead : Counts head H) (behind : Counts tail T)
    (order : T ≤ H) (room : H ≤ T + 2 ^ k) :
    (r.capacity - (head - tail)).toNat = 2 ^ k - (H - T) := by
  have wide := Nat.pow_lt_pow_right (show 1 < 2 by decide) sized.lt
  have used := ahead.sub behind order (by omega)
  rw [UInt64.toNat_sub_of_le _ _ (UInt64.le_iff_toNat_le.mpr (by
    rw [used, sized.capacity]
    omega)), used, sized.capacity]

theorem writeLen_toNat (len : UInt64) (sized : Sized r k) (ahead : Counts head H) (behind : Counts tail T)
    (order : T ≤ H) (room : H ≤ T + 2 ^ k) :
    (r.writeLen head tail len).toNat = min len.toNat (2 ^ k - (H - T)) := by
  have free := freeSpace_toNat sized ahead behind order room
  rw [writeLen]
  simp only [gt_iff_lt, UInt64.lt_iff_toNat_lt, free]
  split
  · rw [free]
    omega
  · omega

/-- An overrun is counted exactly when bytes are dropped. -/
theorem countOverrun_eq (sized : Sized r k) (ahead : Counts head H) (behind : Counts tail T)
    (order : T ≤ H) (room : H ≤ T + 2 ^ k) :
    r.countOverrun head tail len =
      if min len.toNat (2 ^ k - (H - T)) < len.toNat then r.overruns + 1 else r.overruns := by
  have free := freeSpace_toNat sized ahead behind order room
  rw [countOverrun]
  simp only [gt_iff_lt, UInt64.lt_iff_toNat_lt, free]
  refine if_congr ?_ rfl rfl
  omega

theorem readLen_toNat (len : UInt64) (ahead : Counts head H) (behind : Counts tail T)
    (order : T ≤ H) (near : H - T < 2 ^ 64) : (readLen head tail len).toNat = min len.toNat (H - T) := by
  have avail := ahead.sub behind order near
  rw [readLen]
  simp only [gt_iff_lt, UInt64.lt_iff_toNat_lt, avail]
  split
  · rw [avail]
    omega
  · omega

/-! ### Cells -/

/-- The masked index and the distance to the physical end. -/
theorem position_toNat (sized : Sized r k) (counts : Counts index H) :
    (index &&& r.mask).toNat = H % 2 ^ k ∧
      (r.capacity - (index &&& r.mask)).toNat = 2 ^ k - H % 2 ^ k := by
  have position := counts.mask sized.mask sized.lt.le
  have below := Nat.mod_lt H (Nat.two_pow_pos k)
  refine ⟨position, ?_⟩
  rw [UInt64.toNat_sub_of_le _ _ (UInt64.le_iff_toNat_le.mpr (by
    rw [position, sized.capacity]
    omega)), position, sized.capacity]

/-- Every copy stays inside the buffer and inside the caller's length. -/
theorem chunks_in_bounds (sized : Sized r k) (counts : Counts index H)
    (fits : len.toNat ≤ 2 ^ k) {c : Chunk} (member : c ∈ r.chunks index len) :
    c.ring.toNat + c.size.toNat ≤ 2 ^ k ∧ c.caller.toNat + c.size.toNat ≤ len.toNat := by
  obtain ⟨position, toEnd⟩ := position_toNat sized counts
  have below := Nat.mod_lt H (Nat.two_pow_pos k)
  rw [chunks] at member
  have first : (min len (r.capacity - (index &&& r.mask))).toNat =
      min len.toNat (2 ^ k - H % 2 ^ k) := by rw [toNat_min, toEnd]
  rcases List.mem_cons.mp member with rfl | second
  · simp only [first, position, show (0 : UInt64).toNat = 0 from rfl]
    omega
  · split at second
    · rename_i wraps
      rw [UInt64.lt_iff_toNat_lt, first] at wraps
      rw [List.mem_singleton.mp second]
      have size : (len - min len (r.capacity - (index &&& r.mask))).toNat =
          len.toNat - min len.toNat (2 ^ k - H % 2 ^ k) := by
        rw [UInt64.toNat_sub_of_le _ _ (UInt64.le_iff_toNat_le.mpr (by
          rw [first]
          omega)), first]
      simp only [first, size, show (0 : UInt64).toNat = 0 from rfl]
      omega
    · cases second

theorem wrapped_position {C : ℕ} (I j : ℕ) (close : j < C) :
    (I + j) % C = if j < C - I % C then I % C + j else j - (C - I % C) := by
  have below := Nat.mod_lt I (show 0 < C by omega)
  rw [← Nat.mod_add_mod]
  split
  · exact Nat.mod_eq_of_lt (by omega)
  · rw [Nat.mod_eq_sub_mod (by omega), Nat.mod_eq_of_lt (by omega)]
    omega

/-- The byte moves visit consecutive positions modulo the capacity. -/
theorem moves_eq (sized : Sized r k) (counts : Counts index H) (fits : len.toNat ≤ 2 ^ k) :
    r.moves index len = (List.range len.toNat).map fun j => ((H + j) % 2 ^ k, j) := by
  obtain ⟨position, toEnd⟩ := position_toNat sized counts
  have below := Nat.mod_lt H (Nat.two_pow_pos k)
  have first : (min len (r.capacity - (index &&& r.mask))).toNat =
      min len.toNat (2 ^ k - H % 2 ^ k) := by rw [toNat_min, toEnd]
  rw [moves, chunks, List.flatMap_cons, Chunk.moves, first, position]
  by_cases wraps : min len (r.capacity - (index &&& r.mask)) < len
  · have beyond := UInt64.lt_iff_toNat_lt.mp wraps
    rw [first] at beyond
    have size : (len - min len (r.capacity - (index &&& r.mask))).toNat =
        len.toNat - (2 ^ k - H % 2 ^ k) := by
      rw [UInt64.toNat_sub_of_le _ _ (UInt64.le_iff_toNat_le.mpr (by
        rw [first]
        omega)), first]
      omega
    have split : len.toNat = (2 ^ k - H % 2 ^ k) + (len.toNat - (2 ^ k - H % 2 ^ k)) := by omega
    rw [if_pos wraps, List.flatMap_singleton, Chunk.moves, first, size,
      show min len.toNat (2 ^ k - H % 2 ^ k) = 2 ^ k - H % 2 ^ k by omega]
    conv_rhs => rw [split, List.range_add, List.map_append, List.map_map]
    refine congrArg₂ (· ++ ·) (List.map_congr_left fun j member => ?_)
      (List.map_congr_left fun j member => ?_)
    · have bound := List.mem_range.mp member
      rw [wrapped_position H j (by omega), if_pos bound]
      simp
    · have bound := List.mem_range.mp member
      rw [Function.comp_apply, wrapped_position H _ (by omega), if_neg (by omega)]
      simp
  · have whole := wraps
    rw [UInt64.lt_iff_toNat_lt, first] at whole
    rw [if_neg wraps, List.flatMap_nil, List.append_nil,
      show min len.toNat (2 ^ k - H % 2 ^ k) = len.toNat by omega]
    refine List.map_congr_left fun j member => ?_
    have bound := List.mem_range.mp member
    rw [wrapped_position H j (by omega), if_pos (by omega)]
    simp

/-! ### Copies -/

theorem copyIn_frame {data buf : ℕ → UInt8} {moves : List (ℕ × ℕ)} {cell : ℕ}
    (outside : ∀ move ∈ moves, move.1 ≠ cell) : copyIn data buf moves cell = buf cell := by
  induction moves generalizing buf with
  | nil => rfl
  | cons move moves ih =>
    obtain ⟨here, rest⟩ := List.forall_mem_cons.mp outside
    rw [copyIn, List.foldl_cons, ← copyIn, ih rest, Function.update_of_ne (Ne.symm here)]

theorem copyIn_congr {data data' buf : ℕ → UInt8} {moves : List (ℕ × ℕ)}
    (same : ∀ move ∈ moves, data move.2 = data' move.2) : copyIn data buf moves = copyIn data' buf moves := by
  induction moves generalizing buf with
  | nil => rfl
  | cons move moves ih =>
    obtain ⟨here, rest⟩ := List.forall_mem_cons.mp same
    rw [copyIn, copyIn, List.foldl_cons, List.foldl_cons, here]
    exact ih rest

theorem copyOut_congr {buf buf' dest : ℕ → UInt8} {moves : List (ℕ × ℕ)}
    (same : ∀ move ∈ moves, buf move.1 = buf' move.1) : copyOut buf dest moves = copyOut buf' dest moves := by
  induction moves generalizing dest with
  | nil => rfl
  | cons move moves ih =>
    obtain ⟨here, rest⟩ := List.forall_mem_cons.mp same
    rw [copyOut, copyOut, List.foldl_cons, List.foldl_cons, here]
    exact ih rest

/-! ### Calls without the early return -/

theorem moves_zero (r : RingBuffer) (index : UInt64) : r.moves index 0 = [] := by
  have none : (min 0 (r.capacity - (index &&& r.mask))).toNat = 0 := by
    rw [toNat_min]
    exact Nat.zero_min _
  have stops : ¬ min 0 (r.capacity - (index &&& r.mask)) < 0 := UInt64.not_lt_zero
  simp only [moves, chunks, stops, if_false, List.flatMap_cons, List.flatMap_nil, Chunk.moves, none,
    List.range_zero, List.map_nil, List.append_nil]

/-- `write` with nothing left to copy is `write` of zero bytes. -/
theorem write_eq (r : RingBuffer) (data : ℕ → UInt8) (len : UInt64) :
    r.write data len = ({ r with
      overruns := r.countOverrun r.head r.tail len
      buf := copyIn data r.buf (r.moves r.head (r.writeLen r.head r.tail len))
      head := r.head + r.writeLen r.head r.tail len }, r.writeLen r.head r.tail len) := by
  rw [RingBuffer.write]
  split
  · rename_i none
    rw [none, moves_zero, UInt64.add_zero]
    rfl
  · rfl

theorem read_eq (r : RingBuffer) (dest : ℕ → UInt8) (len : UInt64) :
    r.read dest len = ({ r with tail := r.tail + readLen r.head r.tail len },
      copyOut r.buf dest (r.moves r.tail (readLen r.head r.tail len)),
      readLen r.head r.tail len) := by
  rw [RingBuffer.read]
  split
  · rename_i none
    rw [none, moves_zero, UInt64.add_zero]
    rfl
  · rfl

/-! ### Bytes -/

section Bytes
variable {x : ℤ → UInt8} {buf data dest : ℕ → UInt8} {C : ℕ}

/-- Copying in extends the held part of the stream. -/
theorem copyIn_holds (n : ℕ) (held : Holds buf C x T H) (order : T ≤ H)
    (room : H + n ≤ T + C) (bytes : ∀ j < n, x (H + j : ℕ) = data j) :
    Holds (copyIn data buf ((List.range n).map fun j => ((H + j) % C, j))) C x T (H + n : ℕ) := by
  induction n with
  | zero => exact held
  | succ n ih =>
    have shorter := ih (by omega) fun j bound => bytes j (by omega)
    have extended := shorter.write_nat (by omega) (by omega)
    rw [bytes n (by omega)] at extended
    rw [List.range_succ, List.map_append, List.map_singleton, copyIn, List.foldl_append]
    exact extended

/-- Copying out gives the held bytes and touches nothing behind them. -/
theorem copyOut_apply (n : ℕ) (held : Holds buf C x T H) (known : T + n ≤ H) (i : ℕ) :
    copyOut buf dest ((List.range n).map fun j => ((T + j) % C, j)) i =
      if i < n then x (T + i : ℕ) else dest i := by
  induction n with
  | zero => rfl
  | succ n ih =>
    rw [List.range_succ, List.map_append, List.map_singleton, copyOut, List.foldl_append,
      List.foldl_cons, List.foldl_nil]
    have byte := held (T + n : ℕ) (by omega) (by omega)
    rw [slot_natCast] at byte
    by_cases newest : i = n
    · subst newest
      rw [Function.update_self, if_pos (by omega)]
      exact byte
    · rw [Function.update_of_ne newest]
      refine (ih (by omega)).trans ?_
      by_cases early : i < n
      · rw [if_pos early, if_pos (by omega)]
      · rw [if_neg early, if_neg (by omega)]

end Bytes
end DmrWatchkeeper.RingBufferCopies
