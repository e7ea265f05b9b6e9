import DmrWatchkeeper.LcParser
import Mathlib.Data.Nat.Bitwise
import Mathlib.Tactic.FieldSimp
import Mathlib.Tactic.NormNum

/-! Position reports in exact arithmetic: which payloads are accepted, and what
the coordinates of an accepted one are. -/
namespace DmrWatchkeeper.LcParserGps
open LcParser BigEndian

/-- The two's-complement integer in 24 payload bits from `offset` on. -/
def signedField (bits : Vector Bool 96) (offset : ℕ) : ℤ :=
  Int.bmod (payloadField bits offset 24) (2 ^ 24)

/-- The 24 bits of an integer in two's complement. -/
def encode (n : ℤ) : List Bool := digits 24 (n % 2 ^ 24).toNat

variable {bits : Vector Bool 96}

theorem encode_signedField (bits : Vector Bool 96) (offset : ℕ) :
    encode (signedField bits offset) = field (bitAt bits) offset 24 := by
  have bound := payloadField_lt bits offset 24
  have residue : (signedField bits offset % 2 ^ 24).toNat = payloadField bits offset 24 := by
    have same : signedField bits offset % 2 ^ 24 = (payloadField bits offset 24 : ℤ) % 2 ^ 24 :=
      Int.bmod_emod ..
    omega
  rw [encode, residue]
  exact digits_field ..

theorem signedField_range (bits : Vector Bool 96) (offset : ℕ) :
    -2 ^ 23 ≤ signedField bits offset ∧ signedField bits offset ≤ 2 ^ 23 - 1 ∧
      (signedField bits offset = -2 ^ 23 ↔ payloadField bits offset 24 = 0x800000) ∧
      (signedField bits offset = 0 ↔ payloadField bits offset 24 = 0) := by
  have bound := payloadField_lt bits offset 24
  unfold signedField
  rw [Int.bmod_def]
  omega

/-! ### From bytes to signed integers -/

theorem toInt32_toInt (val : UInt32) : val.toInt32.toInt = Int.bmod val.toNat (2 ^ 32) :=
  BitVec.toInt_eq_toNat_bmod val.toBitVec

theorem sign_bit_iff {val : UInt32} (small : val.toNat < 2 ^ 24) :
    val &&& 0x800000 ≠ 0 ↔ 2 ^ 23 ≤ val.toNat := by
  have masked : (val &&& 0x800000).toNat = val.toNat / 2 ^ 23 % 2 * 2 ^ 23 := by
    have bit : (decide (val.toNat / 2 ^ 23 % 2 = 1)).toNat = val.toNat / 2 ^ 23 % 2 := by
      rcases Nat.mod_two_eq_zero_or_one (val.toNat / 2 ^ 23) with even | odd
      · rw [even]
        rfl
      · rw [odd]
        rfl
    have and_ := Nat.and_two_pow val.toNat 23
    rw [Nat.testBit_eq_decide_div_mod_eq, bit] at and_
    exact (UInt32.toNat_and ..).trans and_
  rw [ne_eq, ← UInt32.toNat_inj, masked, UInt32.toNat_zero]
  omega

/-- Sign extension in a 32-bit register. -/
theorem signExtend_toInt {val : UInt32} (small : val.toNat < 2 ^ 24) :
    (signExtend val 24).toInt = Int.bmod val.toNat (2 ^ 24) := by
  have sign : (1 : UInt32) <<< (24 - 1) = 0x800000 := by decide
  have upper : ~~~(((1 : UInt32) <<< 24) - 1) = 0xFF000000 := by decide
  simp only [signExtend, sign, upper, sign_bit_iff small, toInt32_toInt]
  by_cases negative : 2 ^ 23 ≤ val.toNat
  · have extended : (val ||| 0xFF000000).toNat = 0xFF000000 + val.toNat := by
      have joined := Nat.shiftLeft_add_eq_or_of_lt small 0xFF
      rw [UInt32.toNat_or, Nat.or_comm]
      exact joined.symm
    rw [if_pos negative, extended, Int.bmod_def, Int.bmod_def]
    omega
  · rw [if_neg negative, Int.bmod_def, Int.bmod_def]
    omega

theorem byte_toNat (bits : Vector Bool 96) (offset : ℕ) :
    (extractU8 bits offset).toUInt32.toNat = payloadField bits offset 8 :=
  shiftIn8_toNat bits offset le_rfl

/-- A register of 32 bits is wide enough to shift a byte by 8 or 16. -/
theorem shifted_toNat (bits : Vector Bool 96) (offset : ℕ) (shift : UInt32) (fits : shift.toNat ≤ 16) :
    ((extractU8 bits offset).toUInt32 <<< shift).toNat =
      payloadField bits offset 8 <<< shift.toNat := by
  have bound := payloadField_lt bits offset 8
  have small : shift.toNat % 32 = shift.toNat := Nat.mod_eq_of_lt (by omega)
  rw [UInt32.toNat_shiftLeft, byte_toNat, small, Nat.shiftLeft_eq]
  apply Nat.mod_eq_of_lt
  calc payloadField bits offset 8 * 2 ^ shift.toNat
      < 2 ^ 8 * 2 ^ shift.toNat := Nat.mul_lt_mul_of_pos_right bound (Nat.two_pow_pos _)
    _ ≤ 2 ^ 8 * 2 ^ 16 := Nat.mul_le_mul_left _ (Nat.pow_le_pow_right (by decide) fits)
    _ ≤ 2 ^ 32 := by decide

/-- Three consecutive bytes make a field of 24 bits. -/
theorem payloadField_bytes (bits : Vector Bool 96) (offset : ℕ) :
    payloadField bits offset 24 = payloadField bits offset 8 * 2 ^ 16 +
      (payloadField bits (offset + 8) 8 * 2 ^ 8 + payloadField bits (offset + 16) 8) := by
  rw [payloadField, field_append (bitAt bits) offset 8 16, number_append,
    field_append (bitAt bits) (offset + 8) 8 8, number_append, List.length_append, length_field,
    length_field]
  rfl

/-- The bytes do not overlap in the register. -/
theorem assembled_toNat (bits : Vector Bool 96) (offset : ℕ) :
    (((extractU8 bits offset).toUInt32 <<< 16) ||| ((extractU8 bits (offset + 8)).toUInt32 <<< 8) |||
      (extractU8 bits (offset + 16)).toUInt32).toNat = payloadField bits offset 24 := by
  have middle := payloadField_lt bits (offset + 8) 8
  have low := payloadField_lt bits (offset + 16) 8
  have rest : payloadField bits (offset + 8) 8 * 2 ^ 8 + payloadField bits (offset + 16) 8 < 2 ^ 16 := by
    omega
  have shift_high := shifted_toNat bits offset 16 (by decide)
  have shift_middle := shifted_toNat bits (offset + 8) 8 (by decide)
  rw [UInt32.toNat_or, UInt32.toNat_or, shift_high, shift_middle, byte_toNat, Nat.or_assoc]
  change _ <<< 16 ||| (_ <<< 8 ||| _) = _
  rw [← Nat.shiftLeft_add_eq_or_of_lt low, Nat.shiftLeft_eq _ 8,
    ← Nat.shiftLeft_add_eq_or_of_lt rest, Nat.shiftLeft_eq, payloadField_bytes]

/-! ### From integers to degrees -/

variable {K : Type} [Field K] [LinearOrder K]

/-- The scale of the source. -/
def degrees (n limit : ℤ) : K := (n : K) * ((limit : K) / ((0x7FFFFF : ℤ) : K))

omit [LinearOrder K] in
/-- The payload's bytes from `first` on give its field there. -/
theorem coordinate_eq (bits : Vector Bool 96) (first : Fin 10) (limit : ℤ) :
    coordinate (Vector.ofFn fun i : Fin 12 => extractU8 bits (i * 8)) first (limit : K) =
      degrees (signedField bits (first * 8)) limit := by
  have second : (first.val + 1) * 8 = first.val * 8 + 8 := by ring
  have third : (first.val + 2) * 8 = first.val * 8 + 16 := by ring
  have assembled := assembled_toNat bits (first.val * 8)
  have small := payloadField_lt bits (first.val * 8) 24
  rw [← assembled] at small
  simp only [coordinate, Vector.getElem_ofFn, second, third]
  rw [signExtend_toInt small, assembled]
  rfl

variable [IsStrictOrderedRing K]

theorem degrees_bounds (n : ℤ) {limit : ℤ} (positive : 0 < limit) :
    ((degrees n limit : K) < -(limit : K) ↔ n < -0x7FFFFF) ∧
      ((limit : K) < degrees n limit ↔ 0x7FFFFF < n) ∧ ((degrees n limit : K) = 0 ↔ n = 0) := by
  have largest : (0 : K) < ((0x7FFFFF : ℤ) : K) := by norm_num
  have step : 0 < (limit : K) / ((0x7FFFFF : ℤ) : K) := div_pos (by exact_mod_cast positive) largest
  have whole : (limit : K) = ((0x7FFFFF : ℤ) : K) * ((limit : K) / ((0x7FFFFF : ℤ) : K)) :=
    (mul_div_cancel₀ _ largest.ne').symm
  unfold degrees
  generalize (limit : K) / ((0x7FFFFF : ℤ) : K) = c at *
  rw [whole, ← neg_mul, mul_lt_mul_iff_of_pos_right step, mul_lt_mul_iff_of_pos_right step,
    mul_eq_zero_iff_right step.ne', ← Int.cast_neg, Int.cast_lt, Int.cast_lt, Int.cast_eq_zero]
  exact ⟨Iff.rfl, Iff.rfl, Iff.rfl⟩

/-- A payload of the type that reports a position. -/
def Position (bits : Vector Bool 96) : Prop :=
  payloadField bits 0 8 = 0x00 ∨ payloadField bits 0 8 = 0x20

/-- The type and the two fields are such that the payload is accepted. -/
def Acceptable (bits : Vector Bool 96) : Prop :=
  Position bits ∧ payloadField bits 8 24 ≠ 0x800000 ∧ payloadField bits 32 24 ≠ 0x800000 ∧
    ¬(payloadField bits 8 24 = 0 ∧ payloadField bits 32 24 = 0)

/-- Only the least integer is out of range, in either field. -/
theorem degrees_in_range (bits : Vector Bool 96) (offset : ℕ) {limit : ℤ} (positive : 0 < limit) :
    ((degrees (signedField bits offset) limit : K) < -(limit : K) ∨
      (limit : K) < degrees (signedField bits offset) limit) ↔
      payloadField bits offset 24 = 0x800000 := by
  obtain ⟨low, high, least, -⟩ := signedField_range bits offset
  obtain ⟨below, above, -⟩ := degrees_bounds (K := K) (signedField bits offset) positive
  rw [below, above, ← least]
  omega

omit [LinearOrder K] [IsStrictOrderedRing K] in
theorem position_iff {pktType : UInt8} (read : pktType = extractU8 bits 0) :
    Position bits ↔ ¬(pktType ≠ 0x00 ∧ pktType ≠ 0x20) := by
  have first : (extractU8 bits 0).toNat = payloadField bits 0 8 := shiftIn8_toNat bits 0 le_rfl
  rw [Position, ← first, read, ne_eq, ne_eq, ← UInt8.toNat_inj, ← UInt8.toNat_inj]
  exact ⟨fun listed none_ => listed.elim none_.1 none_.2, fun some_ => by
    by_contra unlisted
    exact some_ (not_or.mp unlisted)⟩

omit [IsStrictOrderedRing K] in
theorem parseGps_refuses (other : ¬Position bits) : (parseGps bits : GpsResult K).valid = false := by
  have place : (Vector.ofFn fun i : Fin 12 => extractU8 bits (i * 8))[0] = extractU8 bits 0 := by simp
  rw [position_iff place, not_not] at other
  simp only [parseGps, if_pos other]

/-- A position report is read whole, and then its values are checked. -/
theorem parseGps_position (position : Position bits) :
    (parseGps bits : GpsResult K).lat = degrees (signedField bits 8) 90 ∧
    (parseGps bits : GpsResult K).lon = degrees (signedField bits 32) 180 ∧
    ((parseGps bits : GpsResult K).valid = true ↔
      payloadField bits 8 24 ≠ 0x800000 ∧ payloadField bits 32 24 ≠ 0x800000 ∧
        ¬(payloadField bits 8 24 = 0 ∧ payloadField bits 32 24 = 0)) := by
  have lat : coordinate (Vector.ofFn fun i : Fin 12 => extractU8 bits (i * 8)) 1 ((90 : ℤ) : K) =
      degrees (signedField bits 8) 90 := coordinate_eq bits 1 90
  have lon : coordinate (Vector.ofFn fun i : Fin 12 => extractU8 bits (i * 8)) 4 ((180 : ℤ) : K) =
      degrees (signedField bits 32) 180 := coordinate_eq bits 4 180
  have north : (0 : ℤ) < 90 := by decide
  have east : (0 : ℤ) < 180 := by decide
  have lat_range := degrees_in_range (K := K) bits 8 north
  have lon_range := degrees_in_range (K := K) bits 32 east
  have lat_zero := (degrees_bounds (K := K) (signedField bits 8) north).2.2
  have lon_zero := (degrees_bounds (K := K) (signedField bits 32) east).2.2
  rw [(signedField_range bits 8).2.2.2] at lat_zero
  rw [(signedField_range bits 32).2.2.2] at lon_zero
  have place : (Vector.ofFn fun i : Fin 12 => extractU8 bits (i * 8))[0] = extractU8 bits 0 := by simp
  rw [position_iff place] at position
  simp only [parseGps, if_neg position, lat, lon, lat_range, lon_range, Int.cast_zero,
    Bool.and_eq_true, beq_iff_eq, lat_zero, lon_zero]
  by_cases pole : payloadField bits 8 24 = 0x800000
  · simp [pole]
  · by_cases meridian : payloadField bits 32 24 = 0x800000
    · simp [pole, meridian]
    · by_cases origin : payloadField bits 8 24 = 0 ∧ payloadField bits 32 24 = 0
      · simp [origin]
      · simp [pole, meridian, origin]

theorem parseGps_valid_iff (bits : Vector Bool 96) :
    (parseGps bits : GpsResult K).valid = true ↔ Acceptable bits := by
  by_cases position : Position bits
  · rw [(parseGps_position position).2.2]
    exact ⟨fun fields => ⟨position, fields⟩, fun acceptable => acceptable.2⟩
  · rw [parseGps_refuses position]
    exact iff_of_false (by simp) fun acceptable => position acceptable.1

/-- The coordinates of a payload are those of its integers. -/
structure Decoded (bits : Vector Bool 96) (g : GpsResult K) : Prop where
  lat : g.lat * 0x7FFFFF / 90 = signedField bits 8
  lon : g.lon * 0x7FFFFF / 180 = signedField bits 32
  lat_range : -90 ≤ g.lat ∧ g.lat ≤ 90
  lon_range : -180 ≤ g.lon ∧ g.lon ≤ 180
  reencoded : encode (signedField bits 8) ++ encode (signedField bits 32) = field (bitAt bits) 8 48

theorem degrees_exact (n limit : ℤ) (positive : 0 < limit) :
    (degrees n limit : K) * 0x7FFFFF / limit = n := by
  have scale : (limit : K) ≠ 0 := by exact_mod_cast positive.ne'
  unfold degrees
  push_cast
  field_simp

theorem parseGps_decoded (valid : (parseGps bits : GpsResult K).valid = true) :
    Decoded bits (parseGps bits : GpsResult K) := by
  obtain ⟨position, pole, meridian, -⟩ := (parseGps_valid_iff (K := K) bits).mp valid
  obtain ⟨lat, lon, -⟩ := parseGps_position (K := K) position
  have north : (0 : ℤ) < 90 := by decide
  have east : (0 : ℤ) < 180 := by decide
  have lat_range := (degrees_in_range (K := K) bits 8 north).not.mpr pole
  have lon_range := (degrees_in_range (K := K) bits 32 east).not.mpr meridian
  rw [not_or, not_lt, not_lt, ← lat] at lat_range
  rw [not_or, not_lt, not_lt, ← lon] at lon_range
  refine ⟨?_, ?_, by exact_mod_cast lat_range, by exact_mod_cast lon_range, ?_⟩
  · rw [lat]
    exact_mod_cast degrees_exact (K := K) (signedField bits 8) 90 north
  · rw [lon]
    exact_mod_cast degrees_exact (K := K) (signedField bits 32) 180 east
  · rw [encode_signedField, encode_signedField]
    exact (field_append (bitAt bits) 8 24 24).symm

/-- A payload is accepted exactly where its type is listed, neither field is the
least integer and not both are zero; the coordinates are then exact and in
range, the integers give back the payload, and the payload of the same type with
both integers negated has both coordinates negated. -/
theorem gps_exact (bits : Vector Bool 96) :
    ((parseGps bits : GpsResult K).valid = true ↔ Acceptable bits) ∧
    ((parseGps bits : GpsResult K).valid = true → Decoded bits (parseGps bits : GpsResult K) ∧
      ∀ opposite : Vector Bool 96, Position opposite →
        signedField opposite 8 = -signedField bits 8 →
        signedField opposite 32 = -signedField bits 32 →
        (parseGps opposite : GpsResult K).valid = true ∧
          (parseGps opposite : GpsResult K).lat = -(parseGps bits : GpsResult K).lat ∧
          (parseGps opposite : GpsResult K).lon = -(parseGps bits : GpsResult K).lon) := by
  refine ⟨parseGps_valid_iff bits, fun valid => ⟨parseGps_decoded valid, ?_⟩⟩
  intro opposite position lat_negated lon_negated
  obtain ⟨position', pole, meridian, origin⟩ := (parseGps_valid_iff (K := K) bits).mp valid
  obtain ⟨lat, lon, -⟩ := parseGps_position (K := K) position'
  obtain ⟨lat', lon', accepted⟩ := parseGps_position (K := K) position
  obtain ⟨-, lat_high, -, lat_zero⟩ := signedField_range bits 8
  obtain ⟨-, lon_high, -, lon_zero⟩ := signedField_range bits 32
  obtain ⟨-, -, lat_least', lat_zero'⟩ := signedField_range opposite 8
  obtain ⟨-, -, lon_least', lon_zero'⟩ := signedField_range opposite 32
  refine ⟨accepted.mpr ?_, ?_, ?_⟩
  · rw [← lat_zero, ← lon_zero] at origin
    rw [ne_eq, ne_eq, ← lat_least', ← lon_least', ← lat_zero', ← lon_zero', lat_negated, lon_negated]
    omega
  · rw [lat', lat, lat_negated, degrees, degrees, Int.cast_neg, neg_mul]
  · rw [lon', lon, lon_negated, degrees, degrees, Int.cast_neg, neg_mul]

/-- One step north of the equator. -/
def northward : Vector Bool 96 := Vector.ofFn fun i => i.val == 31

theorem gps_exact_northward : (parseGps northward : GpsResult ℚ).valid = true ∧
    (parseGps northward : GpsResult ℚ).lat * 0x7FFFFF / 90 = 1 := by
  have acceptable : Acceptable northward := by
    unfold Acceptable Position
    decide +kernel
  have step : signedField northward 8 = 1 := by decide +kernel
  obtain ⟨accepts, decodes⟩ := gps_exact (K := ℚ) northward
  have valid := accepts.mpr acceptable
  refine ⟨valid, ?_⟩
  rw [(decodes valid).1.lat, step, Int.cast_one]

end DmrWatchkeeper.LcParserGps
