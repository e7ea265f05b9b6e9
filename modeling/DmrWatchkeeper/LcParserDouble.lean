import DmrWatchkeeper.LcParserGps
import DmrWatchkeeper.Library.Binary64

/-! Position reports in the arithmetic of the source, where every operation
rounds to a double: what is accepted, and how far the coordinates are off. -/
namespace DmrWatchkeeper.LcParserDouble
open LcParser LcParserGps Binary64

/-- The scale of the source, with its three roundings. -/
def scaled (n limit : ℤ) : Double := (n : Double) * ((limit : Double) / ((0x7FFFFF : ℤ) : Double))

/-- The payload's bytes from `first` on give its field there. -/
theorem coordinate_scaled (bits : Vector Bool 96) (first : Fin 10) (limit : ℤ) :
    coordinate (Vector.ofFn fun i : Fin 12 => extractU8 bits (i * 8)) first (limit : Double) =
      scaled (signedField bits (first * 8)) limit := by
  have second : (first.val + 1) * 8 = first.val * 8 + 8 := by ring
  have third : (first.val + 2) * 8 = first.val * 8 + 16 := by ring
  have assembled := assembled_toNat bits (first.val * 8)
  have small := payloadField_lt bits (first.val * 8) 24
  rw [← assembled] at small
  simp only [coordinate, Vector.getElem_ofFn, second, third]
  rw [signExtend_toInt small, assembled]
  rfl

/-- An integer that a field of 24 bits can hold. -/
def Field24 (n : ℤ) : Prop := -2 ^ 23 ≤ n ∧ n ≤ 2 ^ 23 - 1

theorem field24_signedField (bits : Vector Bool 96) (offset : ℕ) : Field24 (signedField bits offset) :=
  ⟨(signedField_range bits offset).1, (signedField_range bits offset).2.1⟩

variable {n limit : ℤ}

theorem nearest_limit (limits : limit = 90 ∨ limit = 180) : nearest limit = limit := by
  apply nearest_intCast
  rcases limits with rfl | rfl <;> decide

theorem scaled_value (field : Field24 n) (limits : limit = 90 ∨ limit = 180) :
    (scaled n limit).value = nearest (n * nearest (limit / 0x7FFFFF)) := by
  have whole : nearest n = n := nearest_intCast (abs_lt.mpr ⟨by linarith [field.1], by linarith [field.2]⟩)
  have largest : nearest ((0x7FFFFF : ℤ) : ℚ) = 0x7FFFFF := nearest_intCast (by decide)
  rw [scaled, value_mul, value_div, value_intCast, value_intCast, value_intCast, whole, largest,
    nearest_limit limits]

theorem step_normal (limits : limit = 90 ∨ limit = 180) :
    (2 : ℚ) ^ (-17 : ℤ) ≤ limit / 0x7FFFFF ∧ (2 : ℚ) ^ (-18 : ℤ) ≤ nearest (limit / 0x7FFFFF) := by
  have large : (2 : ℚ) ^ (-17 : ℤ) ≤ limit / 0x7FFFFF := by rcases limits with rfl | rfl <;> norm_num
  have positive : (0 : ℚ) < limit / 0x7FFFFF := lt_of_lt_of_le (two_zpow_pos _) large
  have normal : (2 : ℚ) ^ (-1022 : ℤ) ≤ |(limit : ℚ) / 0x7FFFFF| := by
    rw [abs_of_pos positive]
    exact (zpow_le_zpow_right₀ one_le_two (by decide)).trans large
  have error := (abs_le.mp (nearest_error normal)).1
  rw [abs_of_pos positive] at error
  refine ⟨large, ?_⟩
  have half : (2 : ℚ) ^ (-17 : ℤ) = 2 * 2 ^ (-18 : ℤ) := by norm_num
  linarith

/-- Both roundings of a coordinate together. -/
theorem scaled_error (field : Field24 n) (limits : limit = 90 ∨ limit = 180) :
    |(scaled n limit).value - degrees n limit| ≤
      |(degrees n limit : ℚ)| * (1 / 2 ^ 52 + 1 / 2 ^ 106) := by
  have exact_ : (degrees n limit : ℚ) = n * (limit / 0x7FFFFF) := by
    rw [degrees]
    norm_num
  rw [scaled_value field limits, exact_]
  by_cases zero : n = 0
  · rw [zero, Int.cast_zero, zero_mul, zero_mul, nearest_zero]
    norm_num
  · obtain ⟨large, rounded⟩ := step_normal limits
    have least : (2 : ℚ) ^ (-1022 : ℤ) ≤ 2 ^ (-18 : ℤ) := zpow_le_zpow_right₀ one_le_two (by decide)
    have unit : (1 : ℚ) ≤ |(n : ℚ)| := by exact_mod_cast Int.one_le_abs zero
    refine product_error ?_ ?_
    · rw [abs_of_pos (lt_of_lt_of_le (two_zpow_pos _) large)]
      exact (zpow_le_zpow_right₀ one_le_two (by decide)).trans large
    · have positive : 0 < nearest ((limit : ℚ) / 0x7FFFFF) := lt_of_lt_of_le (two_zpow_pos _) rounded
      rw [abs_mul, abs_of_pos positive]
      calc (2 : ℚ) ^ (-1022 : ℤ) ≤ nearest (limit / 0x7FFFFF) := least.trans rounded
        _ ≤ |(n : ℚ)| * nearest (limit / 0x7FFFFF) := le_mul_of_one_le_left positive.le unit

/-- The roundings do not reach the next integer's coordinate, and not zero. -/
theorem scaled_sign (field : Field24 n) (limits : limit = 90 ∨ limit = 180) :
    ((scaled n limit).value < 0 ↔ n < 0) ∧ ((scaled n limit).value = 0 ↔ n = 0) := by
  have error := scaled_error field limits
  have positive : (0 : ℤ) < limit := by rcases limits with rfl | rfl <;> decide
  have step : (0 : ℚ) < (limit : ℚ) / ((0x7FFFFF : ℤ) : ℚ) :=
    div_pos (by exact_mod_cast positive) (by norm_num)
  have small : |(scaled n limit).value - degrees n limit| ≤ |(degrees n limit : ℚ)| / 2 := by
    have coarse : (1 / 2 ^ 52 + 1 / 2 ^ 106 : ℚ) ≤ 1 / 2 := by norm_num
    rw [div_eq_mul_one_div]
    exact error.trans (mul_le_mul_of_nonneg_left coarse (abs_nonneg _))
  rcases lt_trichotomy n 0 with negative | rfl | above
  · have sign : (degrees n limit : ℚ) < 0 := mul_neg_of_neg_of_pos (by exact_mod_cast negative) step
    rw [abs_of_neg sign, abs_le] at small
    have value : (scaled n limit).value < 0 := by linarith
    exact ⟨iff_of_true value negative, iff_of_false value.ne negative.ne⟩
  · have zero : (degrees 0 limit : ℚ) = 0 := by rw [degrees, Int.cast_zero, zero_mul]
    rw [zero, sub_zero, abs_zero, zero_div, abs_nonpos_iff] at small
    simp [small]
  · have sign : 0 < (degrees n limit : ℚ) := mul_pos (by exact_mod_cast above) step
    rw [abs_of_pos sign, abs_le] at small
    have value : 0 < (scaled n limit).value := by linarith
    exact ⟨iff_of_false value.not_gt above.not_gt, iff_of_false value.ne' above.ne'⟩

/-- The largest integers are scaled to the limits themselves. -/
theorem scaled_extreme (limits : limit = 90 ∨ limit = 180) :
    (scaled 0x7FFFFF limit).value = limit ∧ (scaled (-0x7FFFFF) limit).value = -limit := by
  have field : Field24 0x7FFFFF ∧ Field24 (-0x7FFFFF) := by
    unfold Field24
    decide
  rw [scaled_value field.1 limits, scaled_value field.2 limits]
  rcases limits with rfl | rfl
  · have step : nearest ((90 : ℤ) / 0x7FFFFF) = (6333187730964570 : ℤ) * 2 ^ (-17 - 52 : ℤ) := by
      apply nearest_eq <;> norm_num [abs_lt]
    rw [step]
    constructor
    · rw [nearest_eq (n := 6333186975989760) (e := 6)] <;> norm_num [abs_lt]
    · rw [nearest_eq (n := -6333186975989760) (e := 6)] <;> norm_num [abs_lt]
  · have step : nearest ((180 : ℤ) / 0x7FFFFF) = (6333187730964570 : ℤ) * 2 ^ (-16 - 52 : ℤ) := by
      apply nearest_eq <;> norm_num [abs_lt]
    rw [step]
    constructor
    · rw [nearest_eq (n := 6333186975989760) (e := 7)] <;> norm_num [abs_lt]
    · rw [nearest_eq (n := -6333186975989760) (e := 7)] <;> norm_num [abs_lt]

/-- Only the least integer is out of range, as without rounding. -/
theorem scaled_in_range (field : Field24 n) (limits : limit = 90 ∨ limit = 180) :
    (scaled n limit < -(limit : Double) ∨ (limit : Double) < scaled n limit) ↔ n = -2 ^ 23 := by
  rw [lt_iff, lt_iff, value_neg, value_intCast, nearest_limit limits]
  have positive : (0 : ℚ) < limit := by rcases limits with rfl | rfl <;> norm_num
  have error := scaled_error field limits
  have exact_ : (degrees n limit : ℚ) * 0x7FFFFF = n * limit := by
    rw [degrees]
    push_cast
    field_simp
  by_cases least : n = -2 ^ 23
  · rw [least, Int.cast_neg, Int.cast_pow, Int.cast_ofNat] at exact_
    refine iff_of_true (.inl ?_) least
    rw [least] at error ⊢
    generalize (degrees (-2 ^ 23) limit : ℚ) = exact_value at error exact_
    generalize (scaled (-2 ^ 23) limit).value = value at error ⊢
    have below : exact_value < 0 := by linarith
    rw [abs_of_neg below] at error
    have upper := (abs_le.mp error).2
    linarith
  · refine iff_of_false ?_ least
    rw [not_or, not_lt, not_lt]
    by_cases largest : n = 0x7FFFFF ∨ n = -0x7FFFFF
    · obtain ⟨north, south⟩ := scaled_extreme limits
      rcases largest with rfl | rfl
      · rw [north]
        exact ⟨by linarith, le_rfl⟩
      · rw [south]
        exact ⟨le_rfl, by linarith⟩
    · obtain ⟨low, high⟩ := field
      have inside : |(n : ℚ)| ≤ 0x7FFFFE := by
        have whole : |n| ≤ 0x7FFFFE := abs_le.mpr (by omega)
        exact_mod_cast whole
      have bound : |(degrees n limit : ℚ)| * 0x7FFFFF ≤ 0x7FFFFE * limit := by
        have magnitude := congrArg abs exact_
        rw [abs_mul, abs_mul, abs_of_pos positive, abs_of_pos (by norm_num : (0 : ℚ) < 0x7FFFFF)] at magnitude
        rw [magnitude]
        exact mul_le_mul_of_nonneg_right inside positive.le
      have size := abs_add_le ((scaled n limit).value - degrees n limit) (degrees n limit)
      rw [sub_add_cancel] at size
      refine abs_le.mp (size.trans ?_)
      linarith

theorem scaled_bounded (field : Field24 n) (limits : limit = 90 ∨ limit = 180) (inside : n ≠ -2 ^ 23) :
    |(scaled n limit).value| ≤ limit := by
  have accepted := (scaled_in_range field limits).not.mpr inside
  rw [not_or, lt_iff, lt_iff, value_neg, value_intCast, nearest_limit limits, not_lt, not_lt] at accepted
  exact abs_le.mpr accepted

/-! ### The parser -/

variable {bits : Vector Bool 96}

theorem scaled_zero (bits : Vector Bool 96) (limits : limit = 90 ∨ limit = 180) (offset : ℕ) :
    (scaled (signedField bits offset) limit == ((0 : ℤ) : Double)) = true ↔ payloadField bits offset 24 = 0 := by
  rw [beq_iff, value_intCast, Int.cast_zero, nearest_zero,
    (scaled_sign (field24_signedField bits offset) limits).2, (signedField_range bits offset).2.2.2]

theorem scaled_refused (bits : Vector Bool 96) (limits : limit = 90 ∨ limit = 180) (offset : ℕ) :
    (scaled (signedField bits offset) limit < -(limit : Double) ∨
      (limit : Double) < scaled (signedField bits offset) limit) ↔ payloadField bits offset 24 = 0x800000 :=
  (scaled_in_range (field24_signedField bits offset) limits).trans (signedField_range bits offset).2.2.1

theorem parseGps_other (other : ¬Position bits) : (parseGps bits : GpsResult Double).valid = false := by
  have place : (Vector.ofFn fun i : Fin 12 => extractU8 bits (i * 8))[0] = extractU8 bits 0 := by simp
  rw [position_iff place, not_not] at other
  simp only [parseGps, if_pos other]

/-- A position report is read whole, and then its values are checked. -/
theorem parseGps_scaled (position : Position bits) :
    (parseGps bits : GpsResult Double).lat = scaled (signedField bits 8) 90 ∧
    (parseGps bits : GpsResult Double).lon = scaled (signedField bits 32) 180 ∧
    ((parseGps bits : GpsResult Double).valid = true ↔
      payloadField bits 8 24 ≠ 0x800000 ∧ payloadField bits 32 24 ≠ 0x800000 ∧
        ¬(payloadField bits 8 24 = 0 ∧ payloadField bits 32 24 = 0)) := by
  have lat : coordinate (Vector.ofFn fun i : Fin 12 => extractU8 bits (i * 8)) 1 ((90 : ℤ) : Double) =
      scaled (signedField bits 8) 90 := coordinate_scaled bits 1 90
  have lon : coordinate (Vector.ofFn fun i : Fin 12 => extractU8 bits (i * 8)) 4 ((180 : ℤ) : Double) =
      scaled (signedField bits 32) 180 := coordinate_scaled bits 4 180
  have north : (90 : ℤ) = 90 ∨ (90 : ℤ) = 180 := .inl rfl
  have east : (180 : ℤ) = 90 ∨ (180 : ℤ) = 180 := .inr rfl
  have lat_range := scaled_refused bits north 8
  have lon_range := scaled_refused bits east 32
  have lat_zero := scaled_zero bits north 8
  have lon_zero := scaled_zero bits east 32
  have place : (Vector.ofFn fun i : Fin 12 => extractU8 bits (i * 8))[0] = extractU8 bits 0 := by simp
  rw [position_iff place] at position
  simp only [parseGps, if_neg position, lat, lon, lat_range, lon_range, Bool.and_eq_true, lat_zero, lon_zero]
  by_cases pole : payloadField bits 8 24 = 0x800000
  · simp [pole]
  · by_cases meridian : payloadField bits 32 24 = 0x800000
    · simp [pole, meridian]
    · by_cases origin : payloadField bits 8 24 = 0 ∧ payloadField bits 32 24 = 0
      · simp [origin]
      · simp [pole, meridian, origin]

theorem position_of_valid (valid : (parseGps bits : GpsResult Double).valid = true) : Position bits := by
  by_contra other
  rw [parseGps_other other] at valid
  cases valid

/-- Accepted coordinates are within their limits, rounding included. -/
theorem parseGps_bounded (valid : (parseGps bits : GpsResult Double).valid = true) :
    |(parseGps bits : GpsResult Double).lat.value| ≤ 90 ∧ |(parseGps bits : GpsResult Double).lon.value| ≤ 180 := by
  obtain ⟨lat, lon, accepted⟩ := parseGps_scaled (position_of_valid valid)
  obtain ⟨pole, meridian, -⟩ := accepted.mp valid
  rw [lat, lon]
  have north : (90 : ℤ) = 90 ∨ (90 : ℤ) = 180 := .inl rfl
  have east : (180 : ℤ) = 90 ∨ (180 : ℤ) = 180 := .inr rfl
  have lat_bound := scaled_bounded (field24_signedField bits 8) north (mt (signedField_range bits 8).2.2.1.mp pole)
  have lon_bound :=
    scaled_bounded (field24_signedField bits 32) east (mt (signedField_range bits 32).2.2.1.mp meridian)
  exact ⟨by exact_mod_cast lat_bound, by exact_mod_cast lon_bound⟩

end DmrWatchkeeper.LcParserDouble
