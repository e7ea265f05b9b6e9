import Mathlib.Data.Int.Log
import Mathlib.Data.Rat.Floor
import Mathlib.Algebra.Order.Field.Power
import Mathlib.Tactic.FieldSimp
import Mathlib.Tactic.Linarith
import Mathlib.Tactic.NormNum

/-! Rounding to the nearest integer and to the nearest double. A double is the
number that it stands for: infinities, NaNs and the sign of zero are left out. -/
namespace DmrWatchkeeper.Binary64

/-- The integer nearest to `x`, and of two the even one. -/
def roundEven (x : ℚ) : ℤ :=
  let below := ⌊x⌋
  if 2 * (x - below) < 1 then below
  else if 1 < 2 * (x - below) then below + 1
  else below + below % 2

variable {x y : ℚ} {n e : ℤ}

theorem roundEven_error (x : ℚ) : |roundEven x - x| ≤ 1 / 2 := by
  have low := Int.floor_le x
  have high := Int.lt_floor_add_one x
  simp only [roundEven]
  split_ifs with down up
  · rw [abs_le]
    constructor <;> linarith
  · rw [abs_le]
    push_cast
    constructor <;> linarith
  · have tie : x = ⌊x⌋ + 1 / 2 := by linarith
    rcases Int.emod_two_eq_zero_or_one ⌊x⌋ with even | odd
    · rw [even, abs_le]
      push_cast
      constructor <;> linarith
    · rw [odd, abs_le]
      push_cast
      constructor <;> linarith

/-- Closer than one half, there is no other integer. -/
theorem roundEven_eq (near : |n - x| < 1 / 2) : roundEven x = n := by
  have error := abs_le.mp (roundEven_error x)
  have close := abs_lt.mp near
  have low : (n : ℚ) < roundEven x + 1 := by linarith
  have high : (roundEven x : ℚ) < n + 1 := by linarith
  exact_mod_cast le_antisymm (Int.lt_add_one_iff.mp (by exact_mod_cast high))
    (Int.lt_add_one_iff.mp (by exact_mod_cast low))

theorem roundEven_intCast (n : ℤ) : roundEven n = n := roundEven_eq (by simp)

theorem roundEven_le (bound : x ≤ n) : roundEven x ≤ n := by
  have error := abs_le.mp (roundEven_error x)
  have below : (roundEven x : ℚ) < n + 1 := by linarith
  exact Int.lt_add_one_iff.mp (by exact_mod_cast below)

theorem le_roundEven (bound : n ≤ x) : n ≤ roundEven x := by
  have error := abs_le.mp (roundEven_error x)
  have above : (n : ℚ) < roundEven x + 1 := by linarith
  exact Int.lt_add_one_iff.mp (by exact_mod_cast above)

/-- A fraction with an odd denominator is not halfway between integers, and what
is close to it is rounded alike. -/
theorem roundEven_stable {a : ℤ} {d : ℕ} (odd : d % 2 = 1) (near : |y - a / d| < 1 / (2 * d)) :
    roundEven y = roundEven (a / d) := by
  have positive : (0 : ℚ) < d := by exact_mod_cast (show 0 < d by omega)
  have error := abs_le.mp (roundEven_error (a / d))
  have close := abs_lt.mp near
  refine roundEven_eq (abs_lt.mpr ?_)
  generalize roundEven (a / d) = k at *
  have scale : (a : ℚ) / d * d = a := div_mul_cancel₀ _ positive.ne'
  have half : 1 / (2 * (d : ℚ)) * d = 1 / 2 := by field_simp
  have low : -(d : ℤ) ≤ 2 * (k * d - a) := by
    have scaled := mul_le_mul_of_nonneg_right error.1 positive.le
    rw [sub_mul, scale] at scaled
    have whole : -(d : ℚ) ≤ 2 * (k * d - a) := by linarith
    exact_mod_cast whole
  have high : 2 * (k * d - a) ≤ (d : ℤ) := by
    have scaled := mul_le_mul_of_nonneg_right error.2 positive.le
    rw [sub_mul, scale] at scaled
    have whole : 2 * (k * d - a) ≤ (d : ℚ) := by linarith
    exact_mod_cast whole
  -- an even number between two odd ones
  have inside : -(d : ℤ) + 1 ≤ 2 * (k * d - a) ∧ 2 * (k * d - a) + 1 ≤ (d : ℤ) := by
    generalize k * (d : ℤ) - a = m at low high ⊢
    omega
  have inside_low : -(d : ℚ) + 1 ≤ 2 * (k * d - a) := by exact_mod_cast inside.1
  have inside_high : 2 * (k * d - a) + 1 ≤ (d : ℚ) := by exact_mod_cast inside.2
  have scaled_low := mul_lt_mul_of_pos_right close.1 positive
  have scaled_high := mul_lt_mul_of_pos_right close.2 positive
  rw [neg_mul, half, sub_mul, scale] at scaled_low
  rw [half, sub_mul, scale] at scaled_high
  constructor
  · refine lt_of_mul_lt_mul_right ?_ positive.le
    linarith
  · refine lt_of_mul_lt_mul_right ?_ positive.le
    linarith

/-! ### Doubles -/

/-- The exponent of the last place of a double around `x`, the least one where the
doubles are no longer normal. -/
def lastPlace (x : ℚ) : ℤ := max (Int.log 2 |x|) (-1022) - 52

/-- The double nearest to `x`, with no bound on its exponent above. -/
def nearest (x : ℚ) : ℚ := roundEven (x / (2 : ℚ) ^ lastPlace x) * (2 : ℚ) ^ lastPlace x

/-- A significand of 53 bits, scaled. -/
def Representable (x : ℚ) : Prop := ∃ m e : ℤ, |m| ≤ 2 ^ 53 ∧ -1074 ≤ e ∧ x = m * (2 : ℚ) ^ e

structure Double where
  value : ℚ
  representable : Representable value

theorem two_zpow_pos (e : ℤ) : (0 : ℚ) < 2 ^ e := zpow_pos two_pos e

theorem abs_lt_two_zpow (x : ℚ) : |x| < 2 ^ (Int.log 2 |x| + 1) :=
  Int.lt_zpow_succ_log_self one_lt_two |x|

theorem significand_bound (x : ℚ) : |x / 2 ^ lastPlace x| < 2 ^ 53 := by
  have large : Int.log 2 |x| + 1 ≤ 53 + lastPlace x := by
    have normal := le_max_left (Int.log 2 |x|) (-1022)
    rw [lastPlace]
    omega
  rw [abs_div, abs_of_pos (two_zpow_pos _), div_lt_iff₀ (two_zpow_pos _)]
  calc |x| < 2 ^ (Int.log 2 |x| + 1) := abs_lt_two_zpow x
    _ ≤ 2 ^ (53 + lastPlace x) := zpow_le_zpow_right₀ one_le_two large
    _ = 2 ^ 53 * 2 ^ lastPlace x := zpow_add₀ two_ne_zero 53 _

theorem representable_nearest (x : ℚ) : Representable (nearest x) := by
  have bound := abs_lt.mp (significand_bound x)
  refine ⟨roundEven (x / 2 ^ lastPlace x), lastPlace x, abs_le.mpr ⟨le_roundEven ?_, roundEven_le ?_⟩, ?_, rfl⟩
  · push_cast
    exact bound.1.le
  · push_cast
    exact bound.2.le
  · have subnormal := le_max_right (Int.log 2 |x|) (-1022)
    rw [lastPlace]
    omega

theorem representable_neg (representable : Representable x) : Representable (-x) := by
  obtain ⟨m, e, bound, least, rfl⟩ := representable
  refine ⟨-m, e, by rwa [abs_neg], least, ?_⟩
  push_cast
  exact (neg_mul ..).symm

/-- The result of an operation. -/
def Double.ofRat (x : ℚ) : Double := ⟨nearest x, representable_nearest x⟩

instance : IntCast Double := ⟨fun n => .ofRat n⟩
instance : Mul Double := ⟨fun a b => .ofRat (a.value * b.value)⟩
instance : Div Double := ⟨fun a b => .ofRat (a.value / b.value)⟩
instance : Neg Double := ⟨fun a => ⟨-a.value, representable_neg a.representable⟩⟩
instance : LT Double := ⟨fun a b => a.value < b.value⟩
instance : DecidableLT Double := fun a b => inferInstanceAs (Decidable (a.value < b.value))
instance : BEq Double := ⟨fun a b => a.value == b.value⟩

variable {a b : Double}

@[simp] theorem value_intCast (n : ℤ) : (n : Double).value = nearest n := rfl
@[simp] theorem value_mul : (a * b).value = nearest (a.value * b.value) := rfl
@[simp] theorem value_div : (a / b).value = nearest (a.value / b.value) := rfl
@[simp] theorem value_neg : (-a).value = -a.value := rfl

theorem lt_iff : a < b ↔ a.value < b.value := Iff.rfl

theorem beq_iff : (a == b) = true ↔ a.value = b.value := beq_iff_eq (a := a.value)

/-- Above the subnormal numbers, rounding keeps 53 bits. -/
theorem nearest_error (normal : 2 ^ (-1022 : ℤ) ≤ |x|) : |nearest x - x| ≤ |x| / 2 ^ 53 := by
  have positive : 0 < |x| := lt_of_lt_of_le (two_zpow_pos _) normal
  have exponent : -1022 ≤ Int.log 2 |x| := (Int.zpow_le_iff_le_log one_lt_two positive).mp normal
  have place : lastPlace x = Int.log 2 |x| - 52 := by rw [lastPlace, max_eq_left exponent]
  have scale := two_zpow_pos (lastPlace x)
  have error : |nearest x - x| = |roundEven (x / 2 ^ lastPlace x) - x / 2 ^ lastPlace x| * 2 ^ lastPlace x := by
    rw [nearest, ← abs_of_pos scale, ← abs_mul, abs_of_pos scale, sub_mul, div_mul_cancel₀ _ scale.ne']
  have last : (2 : ℚ) ^ lastPlace x = 2 ^ Int.log 2 |x| / 2 ^ 52 := by
    rw [place, zpow_sub₀ two_ne_zero]
    norm_cast
  calc |nearest x - x| ≤ 1 / 2 * 2 ^ lastPlace x := by
        rw [error]
        exact mul_le_mul_of_nonneg_right (roundEven_error _) scale.le
    _ = 2 ^ Int.log 2 |x| / 2 ^ 53 := by
        rw [last]
        ring
    _ ≤ |x| / 2 ^ 53 := by
        have below := Int.zpow_log_le_self one_lt_two positive
        gcongr
        exact below

/-- A product with a rounded factor is rounded twice. -/
theorem product_error {s t : ℚ} (factor : 2 ^ (-1022 : ℤ) ≤ |t|)
    (product : 2 ^ (-1022 : ℤ) ≤ |s * nearest t|) :
    |nearest (s * nearest t) - s * t| ≤ |s * t| * (1 / 2 ^ 52 + 1 / 2 ^ 106) := by
  have inner := nearest_error factor
  have outer := nearest_error product
  have grown : |nearest t| ≤ |t| * (1 + 1 / 2 ^ 53) := by
    have apart := abs_add_le (nearest t - t) t
    rw [sub_add_cancel] at apart
    linarith
  have larger : |s * nearest t| ≤ |s * t| * (1 + 1 / 2 ^ 53) := by
    rw [abs_mul, abs_mul, mul_assoc]
    exact mul_le_mul_of_nonneg_left grown (abs_nonneg s)
  have moved : |s * nearest t - s * t| ≤ |s * t| / 2 ^ 53 := by
    rw [← mul_sub, abs_mul, abs_mul, mul_div_assoc]
    exact mul_le_mul_of_nonneg_left inner (abs_nonneg s)
  calc |nearest (s * nearest t) - s * t|
      ≤ |nearest (s * nearest t) - s * nearest t| + |s * nearest t - s * t| := abs_sub_le ..
    _ ≤ |s * t| * (1 + 1 / 2 ^ 53) / 2 ^ 53 + |s * t| / 2 ^ 53 := by
        gcongr
        exact outer.trans (by gcongr)
    _ = |s * t| * (1 / 2 ^ 52 + 1 / 2 ^ 106) := by ring

/-- The significand of a normal number determines its double. -/
theorem nearest_eq (normal : -1022 ≤ e) (low : 2 ^ e ≤ |x|) (high : |x| < 2 ^ (e + 1))
    (near : |n - x / 2 ^ (e - 52)| < 1 / 2) : nearest x = n * 2 ^ (e - 52) := by
  have positive : 0 < |x| := lt_of_lt_of_le (two_zpow_pos _) low
  have above : e ≤ Int.log 2 |x| := (Int.zpow_le_iff_le_log one_lt_two positive).mp low
  have below : Int.log 2 |x| < e + 1 := (Int.lt_zpow_iff_log_lt one_lt_two positive).mp high
  have exponent : Int.log 2 |x| = e := by omega
  have place : lastPlace x = e - 52 := by rw [lastPlace, exponent, max_eq_left normal]
  rw [nearest, place, roundEven_eq near]

example : nearest (1 / 3) = 6004799503160661 / 2 ^ 54 := by decide +kernel

theorem nearest_zero : nearest 0 = 0 := by
  rw [nearest, zero_div, ← Int.cast_zero, roundEven_intCast, Int.cast_zero, zero_mul]

/-- Integers of 53 bits are doubles. -/
theorem nearest_intCast (bound : |n| < 2 ^ 53) : nearest n = n := by
  by_cases zero : n = 0
  · rw [zero, Int.cast_zero, nearest_zero]
  · have positive : 0 < |(n : ℚ)| := abs_pos.mpr (by exact_mod_cast zero)
    have small : |(n : ℚ)| < 2 ^ (53 : ℤ) := by exact_mod_cast bound
    have exponent := (Int.lt_zpow_iff_log_lt one_lt_two positive).mp small
    have place : lastPlace (n : ℚ) ≤ 0 := by
      rw [lastPlace]
      omega
    obtain ⟨k, fractional⟩ := Int.eq_ofNat_of_zero_le (Int.neg_nonneg.mpr place)
    have inverse : (2 : ℚ) ^ lastPlace (n : ℚ) = (2 ^ k)⁻¹ := by
      rw [← zpow_natCast, ← fractional, zpow_neg, inv_inv]
    have scaled : (n : ℚ) / 2 ^ lastPlace (n : ℚ) = (n * 2 ^ k : ℤ) := by
      rw [inverse, div_inv_eq_mul]
      push_cast
      rfl
    rw [nearest, scaled, roundEven_intCast, ← scaled, div_mul_cancel₀ _ (two_zpow_pos _).ne']

end DmrWatchkeeper.Binary64
