import Mathlib.Algebra.Order.Floor.Ring
import Mathlib.Tactic.LinearCombination
import Mathlib.Tactic.Ring

/-! Streams indexed by absolute position, the windows that end at a position,
and circular stores that hold the most recent part of a stream. Positions are
integers, so that what lies before the start of a stream has a position too. -/
namespace StreamWindow

variable {α : Type*} {x : ℤ → α} {n : ℤ} {rest : List α}

/-- The `m` items that end at position `p`, oldest first. -/
def window (x : ℤ → α) (p : ℤ) (m : ℕ) : List α :=
  (List.range m).map fun k : ℕ => x (p - m + 1 + k)

@[simp] theorem length_window (x : ℤ → α) (p : ℤ) (m : ℕ) : (window x p m).length = m := by
  simp [window]

theorem getElem_window (x : ℤ → α) (p : ℤ) (m : ℕ) {k : ℕ} (bound : k < (window x p m).length) :
    (window x p m)[k] = x (p - m + 1 + k) := by
  simp [window]

/-- A longer window ends in one more item. -/
theorem window_snoc (x : ℤ → α) (p : ℤ) (m : ℕ) :
    window x (p + 1) (m + 1) = window x p m ++ [x (p + 1)] := by
  rw [window, List.range_succ, List.map_append, List.map_singleton, window]
  congr 2
  · funext k
    refine congrArg x ?_
    push_cast
    ring
  · congr 1
    push_cast
    ring

/-- A longer window begins with one more item. -/
theorem window_cons (x : ℤ → α) (p : ℤ) (m : ℕ) :
    window x p (m + 1) = x (p - m) :: window x p m := by
  rw [window, List.range_succ_eq_map, List.map_cons, List.map_map, window]
  refine congrArg₂ List.cons (congrArg x ?_) (List.map_congr_left fun k _ => congrArg x ?_)
  · push_cast
    ring
  · simp only [Nat.succ_eq_add_one]
    push_cast
    ring

/-- A delay line, newest item first: pushing an item drops the oldest one. -/
theorem delay_push (x : ℤ → α) (p : ℤ) {m : ℕ} (positive : 0 < m) :
    x (p + 1) :: (window x p m).reverse.dropLast = (window x (p + 1) m).reverse := by
  obtain ⟨m, rfl⟩ := Nat.exists_eq_succ_of_ne_zero positive.ne'
  rw [window_cons, List.reverse_cons, List.dropLast_concat, window_snoc, List.reverse_append,
    List.reverse_singleton, List.singleton_append]

/-- Counting back from the newest item of a delay line. -/
theorem getElem_delay (x : ℤ → α) (p : ℤ) (m : ℕ) {k : ℕ}
    (bound : k < (window x p m).reverse.length) : (window x p m).reverse[k] = x (p - k) := by
  have inside : k < m := by simpa using bound
  rw [List.getElem_reverse, getElem_window, length_window]
  congr 1
  omega

/-- The items `rest` are the stream's next ones after position `n`. -/
def Follows (x : ℤ → α) (n : ℤ) (rest : List α) : Prop :=
  ∀ k (bound : k < rest.length), x (n + 1 + k) = rest[k]

theorem follows_nil (x : ℤ → α) (n : ℤ) : Follows x n [] :=
  fun _ bound => absurd bound (Nat.not_lt_zero _)

theorem follows_cons {d : α} :
    Follows x n (d :: rest) ↔ x (n + 1) = d ∧ Follows x (n + 1) rest := by
  constructor
  · intro next
    refine ⟨?_, fun k bound => ?_⟩
    · rw [← add_zero (n + 1)]
      exact next 0 (by simp)
    · have later := next (k + 1) (by simpa using bound)
      rw [List.getElem_cons_succ] at later
      rw [← later]
      congr 1
      push_cast
      ring
  · rintro ⟨head, tail⟩ k bound
    cases k with
    | zero => simpa using head
    | succ k =>
      rw [List.getElem_cons_succ, ← tail k (by simpa using bound)]
      congr 1
      push_cast
      ring

theorem follows_append {front : List α} :
    Follows x n (front ++ rest) ↔ Follows x n front ∧ Follows x (n + front.length) rest := by
  induction front generalizing n with
  | nil => simp [follows_nil]
  | cons d front ih =>
    rw [List.cons_append, follows_cons, ih, follows_cons, and_assoc, List.length_cons]
    push_cast
    rw [add_assoc n, add_comm 1 (front.length : ℤ)]

/-- What follows a position is a window that ends further on. -/
theorem window_of_follows (next : Follows x n rest) : window x (n + rest.length) rest.length = rest := by
  refine List.ext_getElem (by simp) fun k bound inside => ?_
  rw [getElem_window, ← next k inside]
  congr 1
  ring

/-! ### Circular stores -/

/-- Slot `i mod N` of the store holds item `i` of the stream for every `i` from
`lo` up to and excluding `hi`. -/
def Holds (slots : ℕ → α) (N : ℕ) (x : ℤ → α) (lo hi : ℤ) : Prop :=
  ∀ i, lo ≤ i → i < hi → slots (i % N).toNat = x i

variable {slots : ℕ → α} {N : ℕ} {lo hi : ℤ}

theorem Holds.mono {lo' hi' : ℤ} (held : Holds slots N x lo hi) (above : lo ≤ lo')
    (below : hi' ≤ hi) : Holds slots N x lo' hi' :=
  fun i from_lo to_hi => held i (by omega) (by omega)

/-- Only the held items of the stream matter. -/
theorem Holds.congr {x' : ℤ → α} (held : Holds slots N x lo hi)
    (agree : ∀ i, lo ≤ i → i < hi → x i = x' i) : Holds slots N x' lo hi :=
  fun i from_lo to_hi => (held i from_lo to_hi).trans (agree i from_lo to_hi)

theorem slot_natCast (i N : ℕ) : ((i : ℤ) % N).toNat = i % N := by
  rw [← Int.natCast_emod, Int.toNat_natCast]

/-- Distinct items less than one store apart are in distinct slots. -/
theorem slot_ne {i j : ℤ} (positive : 0 < N) (before : i < j) (close : j < i + N) :
    (i % N).toNat ≠ (j % N).toNat := by
  intro same
  have modI := Int.emod_nonneg i (show (N : ℤ) ≠ 0 by omega)
  have modJ := Int.emod_nonneg j (show (N : ℤ) ≠ 0 by omega)
  have equal : j % N = i % N := by omega
  have divides := Int.emod_emod_of_dvd (j - i) (dvd_refl (N : ℤ))
  have zero : (j - i) % N = 0 := by rw [Int.sub_emod, equal, sub_self, Int.zero_emod]
  rw [Int.emod_eq_of_lt (by omega) (by omega)] at zero
  omega

theorem slot_ne_nat {i j : ℕ} (before : i < j) (close : j < i + N) : i % N ≠ j % N := by
  have apart := slot_ne (N := N) (by omega) (Int.ofNat_lt.mpr before) (by exact_mod_cast close)
  rwa [slot_natCast, slot_natCast] at apart

/-- Writing item `hi` over item `hi - N` extends the held part by one. -/
theorem Holds.write (positive : 0 < N) (held : Holds slots N x lo hi) (room : hi < lo + N) :
    Holds (Function.update slots (hi % N).toNat (x hi)) N x lo (hi + 1) := by
  intro i from_lo to_hi
  by_cases newest : i = hi
  · subst newest
    exact Function.update_self ..
  · have apart := slot_ne positive (show i < hi by omega) (by omega)
    rw [Function.update_of_ne apart]
    exact held i from_lo (by omega)

/-- `Holds.write` for positions that are natural numbers. -/
theorem Holds.write_nat {T H : ℕ} (held : Holds slots N x T H) (order : T ≤ H)
    (room : H < T + N) :
    Holds (Function.update slots (H % N) (x H)) N x T (H + 1 : ℕ) := by
  rw [← slot_natCast, Nat.cast_add, Nat.cast_one]
  exact held.write (by omega) (by exact_mod_cast room)

/-- A vector read with a default is a store, and setting an entry updates it. -/
theorem slots_set {N : ℕ} (v : Vector α N) {k : ℕ} (bound : k < N) (a d : α) :
    (fun i => (v.setIfInBounds k a).getD i d) = Function.update (fun i => v.getD i d) k a := by
  funext i
  by_cases here : i = k
  · subst here
    simp [Vector.getD, bound]
  · rw [Function.update_of_ne here]
    by_cases inside : i < N
    · simp [Vector.getD, inside, Ne.symm here]
    · simp [Vector.getD, inside]

/-! ### Circular buffers with a write index -/

/-- The write index moves with the stream. -/
theorem head_succ (n : ℤ) (positive : 0 < N) : (n % N + 1).tmod N = (n + 1) % N := by
  have low := Int.emod_nonneg n (show (N : ℤ) ≠ 0 by omega)
  rw [Int.tmod_eq_emod_of_nonneg (by omega), Int.emod_add_emod]

/-- Counting `k` items back from the write index. -/
theorem head_back (n : ℤ) {k : ℤ} (positive : 0 < N) (near : k ≤ 2 * N) :
    (n % N - k + N * 2).tmod N = (n - k) % N := by
  have low := Int.emod_nonneg n (show (N : ℤ) ≠ 0 by omega)
  rw [Int.tmod_eq_emod_of_nonneg (by omega), Int.add_mul_emod_self_left, Int.emod_sub_emod]

/-- Writing item `n` at the write index keeps the last `N` items. -/
theorem Holds.push {v : Vector α N} {n head : ℤ} {a d : α} (positive : 0 < N)
    (held : Holds (fun i => v.getD i d) N x (n - N) n) (at_head : head = n % N) (next : x n = a) :
    Holds (fun i => (v.setIfInBounds head.toNat a).getD i d) N x (n + 1 - N) (n + 1) := by
  have low := Int.emod_nonneg n (show (N : ℤ) ≠ 0 by omega)
  have high := Int.emod_lt_of_pos n (show (0 : ℤ) < N by omega)
  have written := (held.mono (show n - N ≤ n + 1 - N by omega) le_rfl).write positive (by omega)
  rw [next, ← at_head, ← slots_set v (by omega) a d] at written
  exact written

/-! ### Lists as streams -/

/-- The stream whose items from position `start` on are those of the list. -/
def streamFrom (start : ℕ) (items : List α) (d : α) : ℤ → α :=
  fun i => items.getD (i - start).toNat d

variable {start : ℕ} {items later : List α} {d : α}

theorem streamFrom_at {k : ℕ} (bound : k < items.length) :
    streamFrom start items d (start + k : ℕ) = items[k] := by
  have offset : (((start + k : ℕ) : ℤ) - start).toNat = k := by omega
  rw [streamFrom, offset, List.getD_eq_getElem?_getD, List.getElem?_eq_getElem bound,
    Option.getD_some]

/-- Appending leaves the earlier items in place. -/
theorem streamFrom_append {i : ℤ} (above : start ≤ i) (known : i < (start + items.length : ℕ)) :
    streamFrom start (items ++ later) d i = streamFrom start items d i := by
  have bound : (i - start).toNat < items.length := by omega
  rw [streamFrom, streamFrom, List.getD_eq_getElem?_getD, List.getD_eq_getElem?_getD,
    List.getElem?_append_left bound]

/-- Dropping items and moving the start past them leaves the rest in place. -/
theorem streamFrom_drop {n : ℕ} {i : ℤ} (above : (start + n : ℕ) ≤ i) :
    streamFrom (start + n) (items.drop n) d i = streamFrom start items d i := by
  have offset : n + (i - (start + n : ℕ)).toNat = (i - start).toNat := by omega
  rw [streamFrom, streamFrom, List.getD_eq_getElem?_getD, List.getD_eq_getElem?_getD,
    List.getElem?_drop, offset]

end StreamWindow

/-! Free-running 64-bit counters: registers that hold the low bits of a count
that grows without bound. Sums, short distances and masked positions of the
registers are those of the counts. -/
namespace FreeRunning

/-- The register holds the low bits of the count. -/
def Counts (r : UInt64) (n : ℕ) : Prop := r.toNat = n % 2 ^ 64

variable {r h t m : UInt64} {n H T k : ℕ}

theorem counts_zero : Counts 0 0 := rfl

theorem counts_ofNat (n : ℕ) : Counts (UInt64.ofNat n) n := UInt64.toNat_ofNat' ..

theorem counts_iff : Counts r n ↔ r = UInt64.ofNat n := by
  constructor
  · intro held
    apply UInt64.toNat_inj.mp
    rw [held, UInt64.toNat_ofNat']
  · rintro rfl
    exact counts_ofNat n

theorem Counts.add (held : Counts r n) (d : UInt64) : Counts (r + d) (n + d.toNat) := by
  rw [Counts, UInt64.toNat_add, held, Nat.mod_add_mod]

theorem Counts.succ (held : Counts r n) : Counts (r + 1) (n + 1) := held.add 1

/-- A distance below `2 ^ 64` is the difference of the registers, wrapped or not. -/
theorem Counts.sub (ahead : Counts h H) (behind : Counts t T) (order : T ≤ H)
    (near : H - T < 2 ^ 64) : (h - t).toNat = H - T := by
  have low := Nat.mod_lt H (show 2 ^ 64 > 0 by decide)
  have low' := Nat.mod_lt T (show 2 ^ 64 > 0 by decide)
  rw [UInt64.toNat_sub, ahead, behind]
  omega

/-- Masking a register with `2 ^ k - 1` reduces the count modulo `2 ^ k`. -/
theorem Counts.mask (held : Counts r n) (mask : m.toNat = 2 ^ k - 1) (fits : k ≤ 64) :
    (r &&& m).toNat = n % 2 ^ k := by
  rw [UInt64.toNat_and, mask, Nat.and_two_pow_sub_one_eq_mod, held,
    Nat.mod_mod_of_dvd _ (Nat.pow_dvd_pow 2 fits)]

end FreeRunning

/-! A queue of bounded size that takes what fits, gives what it has, and
counts the offers that it had to cut. -/
namespace BoundedFifo

structure Fifo (α : Type*) where
  queue : List α := []
  /-- Offers of which not everything was accepted. -/
  overruns : ℕ := 0

variable {α : Type*}

/-- Accepts as many of the offered items, from the first on, as there is room for. -/
def Fifo.write (capacity : ℕ) (f : Fifo α) (offered : List α) : Fifo α × ℕ :=
  let n := min offered.length (capacity - f.queue.length)
  ({ queue := f.queue ++ offered.take n
     overruns := if n < offered.length then f.overruns + 1 else f.overruns }, n)

/-- Gives the oldest items, up to `len` of them. -/
def Fifo.read (f : Fifo α) (len : ℕ) : Fifo α × List α :=
  ({ f with queue := f.queue.drop len }, f.queue.take len)

end BoundedFifo

/-! Piecewise-linear interpolation of a sequence indexed by the integers. -/
namespace LinearInterpolation

variable {K : Type*} [Field K] [LinearOrder K] [FloorRing K]

/-- The function that is `x i` at each integer `i` and affine in between. -/
def interpolant (x : ℤ → K) (t : K) : K := x ⌊t⌋ + Int.fract t * (x (⌊t⌋ + 1) - x ⌊t⌋)

variable [IsStrictOrderedRing K]

@[simp] theorem interpolant_intCast (x : ℤ → K) (i : ℤ) : interpolant x (i : K) = x i := by
  simp [interpolant]

/-- On a unit interval, both ends included, the interpolant is affine. -/
theorem interpolant_between (x : ℤ → K) (i : ℤ) {f : K} (low : 0 ≤ f) (high : f ≤ 1) :
    interpolant x (i + f) = x i + f * (x (i + 1) - x i) := by
  rcases high.lt_or_eq with inside | rfl
  · have floor : ⌊(i : K) + f⌋ = i := by
      rw [Int.floor_intCast_add, Int.floor_eq_zero_iff.mpr ⟨low, inside⟩, add_zero]
    have fract : Int.fract ((i : K) + f) = f := by
      rw [Int.fract_intCast_add, Int.fract_eq_self.mpr ⟨low, inside⟩]
    rw [interpolant, floor, fract]
  · have successor : (i : K) + 1 = ((i + 1 : ℤ) : K) := by push_cast; ring
    rw [successor, interpolant_intCast]
    ring

/-- Counting back from an integer: `n0` whole steps and the fraction `f`. -/
theorem interpolant_back (x : ℤ → K) (i n0 : ℤ) {f : K} (low : 0 ≤ f) (high : f ≤ 1) :
    interpolant x (i - (n0 + f)) = x (i - n0) + f * (x (i - n0 - 1) - x (i - n0)) := by
  have place : (i : K) - (n0 + f) = ((i - n0 - 1 : ℤ) : K) + (1 - f) := by push_cast; ring
  rw [place, interpolant_between x _ (by linear_combination high) (by linear_combination low),
    sub_add_cancel]
  ring

end LinearInterpolation
