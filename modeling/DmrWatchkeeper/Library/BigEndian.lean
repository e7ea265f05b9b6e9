import Mathlib.Data.List.Induction
import Mathlib.Tactic.Ring

/-! Numbers written most significant bit first, and the shift-and-or loops
that read them into fixed-width registers. -/
namespace BigEndian

/-- The number that a list of bits denotes, first bit most significant. -/
def number (bits : List Bool) : ℕ := bits.foldl (fun acc b => 2 * acc + b.toNat) 0

@[simp] theorem number_nil : number [] = 0 := rfl

@[simp] theorem number_snoc (bits : List Bool) (b : Bool) :
    number (bits ++ [b]) = 2 * number bits + b.toNat := by
  simp [number, List.foldl_append]

theorem number_lt (bits : List Bool) : number bits < 2 ^ bits.length := by
  induction bits using List.reverseRecOn with
  | nil => exact Nat.one_pos
  | append_singleton bits b ih =>
    have digit := Bool.toNat_lt b
    rw [number_snoc, List.length_append, List.length_singleton, pow_succ]
    omega

theorem number_append (front back : List Bool) :
    number (front ++ back) = number front * 2 ^ back.length + number back := by
  induction back using List.reverseRecOn with
  | nil => simp
  | append_singleton back b ih =>
    rw [← List.append_assoc, number_snoc, ih, number_snoc, List.length_append,
      List.length_singleton, pow_succ]
    ring

/-- The low `count` binary digits of a number, most significant first. -/
def digits : ℕ → ℕ → List Bool
  | 0, _ => []
  | count + 1, n => digits count (n / 2) ++ [n % 2 == 1]

/-- Writing what was read gives the same bits. -/
theorem digits_number (bits : List Bool) : digits bits.length (number bits) = bits := by
  induction bits using List.reverseRecOn with
  | nil => rfl
  | append_singleton bits b ih =>
    have digit := Bool.toNat_lt b
    have rest : (2 * number bits + b.toNat) / 2 = number bits := by omega
    have last : ((2 * number bits + b.toNat) % 2 == 1) = b := by
      cases b <;> simp
    rw [List.length_append, List.length_singleton, digits, number_snoc, rest, last, ih]

@[simp] theorem length_digits (count n : ℕ) : (digits count n).length = count := by
  induction count generalizing n with
  | zero => rfl
  | succ count ih => rw [digits, List.length_append, ih, List.length_singleton]

/-- Reading what was written gives the same number. -/
theorem number_digits {count n : ℕ} (small : n < 2 ^ count) : number (digits count n) = n := by
  induction count generalizing n with
  | zero =>
    obtain rfl : n = 0 := Nat.lt_one_iff.mp small
    rfl
  | succ count ih =>
    rw [pow_succ] at small
    have last : (n % 2 == 1).toNat = n % 2 := by
      obtain even | odd := Nat.mod_two_eq_zero_or_one n
      · rw [even]
        rfl
      · rw [odd]
        rfl
    rw [digits, number_snoc, ih (by omega), last]
    omega

variable (bit : ℕ → Bool) (offset : ℕ)

/-- The bits at positions `offset` to `offset + count - 1`. -/
def field (count : ℕ) : List Bool := (List.range count).map fun i => bit (offset + i)

@[simp] theorem length_field (count : ℕ) : (field bit offset count).length = count := by
  simp [field]

theorem field_succ (count : ℕ) :
    field bit offset (count + 1) = field bit offset count ++ [bit (offset + count)] := by
  rw [field, List.range_succ, List.map_append, List.map_singleton, field]

theorem field_append (front back : ℕ) :
    field bit offset (front + back) = field bit offset front ++ field bit (offset + front) back := by
  induction back with
  | zero => simp [field]
  | succ back ih =>
    rw [← Nat.add_assoc, field_succ, ih, field_succ, List.append_assoc, Nat.add_assoc]

theorem digits_field (count : ℕ) :
    digits count (number (field bit offset count)) = field bit offset count := by
  have written := digits_number (field bit offset count)
  rwa [length_field] at written

/-- A loop that pushes bits into a register of `width` bits reads a number,
as long as the register has room for it. -/
theorem shiftIn {W : Type*} (value : W → ℕ) (push : W → Bool → W) (width : ℕ)
    (pushed : ∀ v b, value (push v b) = (2 * value v + b.toNat) % 2 ^ width) {start : W}
    (empty : value start = 0) {count : ℕ} (fits : count ≤ width) :
    value ((List.range count).foldl (fun v i => push v (bit (offset + i))) start) =
      number (field bit offset count) := by
  induction count with
  | zero => exact empty
  | succ count ih =>
    have room := number_lt (field bit offset (count + 1))
    rw [length_field] at room
    have wide : 2 ^ (count + 1) ≤ 2 ^ width := Nat.pow_le_pow_right (by decide) fits
    rw [List.range_succ, List.foldl_append, List.foldl_cons, List.foldl_nil, pushed, ih (by omega)]
    rw [field_succ, number_snoc] at room ⊢
    exact Nat.mod_eq_of_lt (by omega)

theorem shift_or_bit (v width : ℕ) (b : Bool) :
    v <<< 1 % 2 ^ (width + 1) ||| b.toNat = (2 * v + b.toNat) % 2 ^ (width + 1) := by
  have digit : b.toNat < 2 := Bool.toNat_lt b
  have low : (2 * v + b.toNat) % 2 = b.toNat := by omega
  have high : (2 * v + b.toNat) / 2 = v := by omega
  have split : (2 * v + b.toNat) % (2 * 2 ^ width) = b.toNat + 2 * (v % 2 ^ width) := by
    rw [Nat.mod_mul, low, high]
  have doubled : v <<< 1 % (2 * 2 ^ width) = (v % 2 ^ width) <<< 1 := by
    rw [Nat.shiftLeft_eq, Nat.shiftLeft_eq, pow_one, Nat.mul_comm 2, Nat.mul_mod_mul_right]
  rw [pow_succ, Nat.mul_comm _ 2, split, doubled, ← Nat.shiftLeft_add_eq_or_of_lt digit,
    Nat.shiftLeft_eq]
  omega

theorem uint8_push (v : UInt8) (b : Bool) :
    ((v <<< 1) ||| b.toUInt8).toNat = (2 * v.toNat + b.toNat) % 2 ^ 8 := by
  have digit : b.toUInt8.toNat = b.toNat := by cases b <;> rfl
  rw [UInt8.toNat_or, UInt8.toNat_shiftLeft, digit]
  exact shift_or_bit v.toNat 7 b

theorem uint32_push (v : UInt32) (b : Bool) :
    ((v <<< 1) ||| b.toUInt32).toNat = (2 * v.toNat + b.toNat) % 2 ^ 32 := by
  have digit : b.toUInt32.toNat = b.toNat := by cases b <;> rfl
  rw [UInt32.toNat_or, UInt32.toNat_shiftLeft, digit]
  exact shift_or_bit v.toNat 31 b

end BigEndian
