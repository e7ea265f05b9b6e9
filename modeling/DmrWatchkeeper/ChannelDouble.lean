import DmrWatchkeeper.Channel
import DmrWatchkeeper.LcParserDouble
import DmrWatchkeeper.Library.FixedPoint
import Mathlib.Data.List.Forall2

/-! A channel computes positions in doubles. Its events follow those of exact
arithmetic one by one, and six decimal places do not tell them apart. -/
namespace DmrWatchkeeper.ChannelDouble
open BurstSync Channel LcParser LcParserGps LcParserDouble Binary64 FixedPoint SlotManager

/-- A coordinate is off by two roundings at most, and printed as the exact one. -/
structure Coordinate (x : Double) (y : ℚ) : Prop where
  error : |x.value - y| ≤ |y| * (1 / 2 ^ 52 + 1 / 2 ^ 106)
  sign : x.value < 0 ↔ y < 0
  text : fixedPoint 6 x.value = fixedPoint 6 y

/-- The event of the source, and the event of exact arithmetic. -/
inductive Follows : Event Double → Event ℚ → Prop where
  | voice (ch slot src dst group) : Follows (.voice ch slot src dst group) (.voice ch slot src dst group)
  | gps {lat lon : Double} {lat' lon' : ℚ} (ch slot) (north : Coordinate lat lat') (east : Coordinate lon lon') :
    Follows (.gps ch slot lat lon) (.gps ch slot lat' lon')

variable {n limit : ℤ} {bits : Vector Bool 96}

/-- The denominator of a coordinate is odd, so that no coordinate is near a tie. -/
theorem scaled_coordinate (field : Field24 n) (limits : limit = 90 ∨ limit = 180) :
    Coordinate (scaled n limit) (degrees n limit) := by
  have error := scaled_error field limits
  have positive : (0 : ℚ) < limit := by rcases limits with rfl | rfl <;> norm_num
  have scale : (0 : ℚ) < (limit : ℚ) / ((0x7FFFFF : ℤ) : ℚ) := div_pos positive (by norm_num)
  have sign : (scaled n limit).value < 0 ↔ (degrees n limit : ℚ) < 0 := by
    rw [(scaled_sign field limits).1, degrees, mul_neg_iff, and_iff_left scale, Int.cast_lt_zero]
    exact (or_iff_right fun other => scale.not_gt other.2).symm
  refine ⟨error, sign, fixedPoint_congr sign ?_⟩
  have fraction : (degrees n limit : ℚ) * 10 ^ 6 = (n * limit * 10 ^ 6 : ℤ) / (0x7FFFFF : ℕ) := by
    rw [degrees]
    push_cast
    ring
  have size : |(degrees n limit : ℚ)| ≤ 181 := by
    have bound : |(n : ℚ)| ≤ 2 ^ 23 := by
      have whole : |n| ≤ 2 ^ 23 := abs_le.mpr ⟨field.1, by linarith [field.2]⟩
      exact_mod_cast whole
    have step : (limit : ℚ) / ((0x7FFFFF : ℤ) : ℚ) ≤ 180 / 0x7FFFFF := by
      rcases limits with rfl | rfl <;> norm_num
    rw [degrees, abs_mul, abs_of_pos scale]
    calc |(n : ℚ)| * ((limit : ℚ) / ((0x7FFFFF : ℤ) : ℚ)) ≤ 2 ^ 23 * (180 / 0x7FFFFF) :=
          mul_le_mul bound step scale.le (by norm_num)
      _ ≤ 181 := by norm_num
  rw [fraction]
  refine roundEven_stable (by decide) ?_
  rw [← fraction, ← sub_mul, abs_mul]
  calc |(scaled n limit).value - degrees n limit| * |(10 : ℚ) ^ 6|
      ≤ 181 * (1 / 2 ^ 52 + 1 / 2 ^ 106) * |(10 : ℚ) ^ 6| := by gcongr; exact error.trans (by gcongr)
    _ < 1 / (2 * (0x7FFFFF : ℕ)) := by norm_num

/-- The two parsers accept the same payloads. -/
theorem parseGps_double (bits : Vector Bool 96) :
    (parseGps bits : GpsResult Double).valid = (parseGps bits : GpsResult ℚ).valid ∧
      ((parseGps bits : GpsResult ℚ).valid = true →
        Coordinate (parseGps bits : GpsResult Double).lat (parseGps bits : GpsResult ℚ).lat ∧
          Coordinate (parseGps bits : GpsResult Double).lon (parseGps bits : GpsResult ℚ).lon) := by
  by_cases position : Position bits
  · obtain ⟨lat, lon, accepted⟩ := parseGps_scaled position
    obtain ⟨lat', lon', accepted'⟩ := parseGps_position (K := ℚ) position
    refine ⟨Bool.eq_iff_iff.mpr (accepted.trans accepted'.symm), fun _ => ?_⟩
    rw [lat, lon, lat', lon']
    exact ⟨scaled_coordinate (field24_signedField bits 8) (.inl rfl),
      scaled_coordinate (field24_signedField bits 32) (.inr rfl)⟩
  · rw [parseGps_other position, parseGps_refuses position]
    exact ⟨rfl, fun accepted => absurd accepted Bool.false_ne_true⟩

theorem burstEvent_follows (ch : String) (burst : Burst) :
    Option.Rel Follows (burstEvent ch burst) (burstEvent ch burst) := by
  obtain ⟨valid, coordinates⟩ := parseGps_double (Bptc19696.decode burst.dibits).1
  simp only [burstEvent]
  split_ifs with decoded voice named data accepted accepted'
  · exact .none
  · exact .none
  · exact .some (.voice ..)
  · exact .some (.gps _ _ (coordinates accepted').1 (coordinates accepted').2)
  · exact absurd (valid.symm.trans accepted) accepted'
  · rename_i exact_
    exact absurd (valid.trans exact_) accepted
  · exact .none
  · exact .none

/-- For every stream of dibits and from every state of a channel, the events in
doubles are as many as in exact arithmetic, and each follows its counterpart. -/
theorem doubles_follow (ch : String) (sync : BurstSync) (slots : SlotManager) (dibits : List UInt8) :
    List.Forall₂ Follows (Stage.outputs (step ch) (sync, slots) dibits)
      (Stage.outputs (step ch) (sync, slots) dibits) := by
  simp only [step, Stage.outputs_cascade, slotStage_outputs]
  refine List.rel_filterMap (R := Eq) ?_ (List.forall₂_refl _)
  rintro burst _ rfl
  exact burstEvent_follows ch burst

end DmrWatchkeeper.ChannelDouble
