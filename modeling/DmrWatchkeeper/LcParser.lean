import DmrWatchkeeper.Library.BigEndian
import Mathlib.Data.Int.Cast.Defs

/-! The payload parsers of `lc_parser.cpp`. Coordinates are computed in any
number type `F` with the operations that the source uses. -/
namespace DmrWatchkeeper
namespace LcParser

structure LcResult where
  valid : Bool := false
  /-- Full LC opcode. -/
  flco : UInt8 := 0xFF
  /-- Talkgroup call, as opposed to an individual call. -/
  group : Bool := false
  srcId : UInt32 := 0
  dstId : UInt32 := 0
  deriving DecidableEq, Repr

structure GpsResult (F : Type) where
  valid : Bool
  lat : F
  lon : F
  deriving DecidableEq

/-- `bits[i] & 1`; the positions that occur are in range. -/
def bitAt (bits : Vector Bool 96) (i : ℕ) : Bool := bits.getD i false

/-- The loop `val = (val << 1) | (bits[offset + i] & 1)` in a byte. -/
def shiftIn8 (bits : Vector Bool 96) (offset count : ℕ) : UInt8 :=
  (List.range count).foldl (fun val i => (val <<< 1) ||| (bitAt bits (offset + i)).toUInt8) 0

def extractU8 (bits : Vector Bool 96) (offset : ℕ) : UInt8 := shiftIn8 bits offset 8

def extractU24 (bits : Vector Bool 96) (offset : ℕ) : UInt32 :=
  (List.range 24).foldl (fun val i => (val <<< 1) ||| (bitAt bits (offset + i)).toUInt32) 0

def signExtend (val nbits : UInt32) : Int32 :=
  let signBit : UInt32 := 1 <<< (nbits - 1)
  let val := if val &&& signBit ≠ 0 then val ||| ~~~((1 <<< nbits) - 1) else val
  val.toInt32

def parseVoiceLc (bits : Vector Bool 96) : LcResult :=
  let r : LcResult := { flco := shiftIn8 bits 2 6 }
  if r.flco ≠ 0x00 ∧ r.flco ≠ 0x03 then r
  else
    let r := { r with
      group := r.flco == 0x00
      dstId := extractU24 bits 24
      srcId := extractU24 bits 48 }
    if r.srcId = 0 ∧ r.dstId = 0 then r else { r with valid := true }

section Gps
variable {F : Type} [IntCast F] [Mul F] [Div F] [Neg F] [LT F] [DecidableLT F] [BEq F]

/-- A coordinate: three bytes, sign-extended, scaled so that the largest value
is `limit` degrees. -/
def coordinate (bytes : Vector UInt8 12) (first : Fin 10) (limit : F) : F :=
  let raw := (bytes[first.val].toUInt32 <<< 16) ||| (bytes[first.val + 1].toUInt32 <<< 8) |||
    bytes[first.val + 2].toUInt32
  let signed := signExtend raw 24
  (signed.toInt : F) * (limit / ((0x7FFFFF : ℤ) : F))

def parseGps (bits : Vector Bool 96) : GpsResult F :=
  let degrees (d : ℤ) : F := d
  let bytes : Vector UInt8 12 := Vector.ofFn fun i => extractU8 bits (i * 8)
  let pktType := bytes[0]
  let g : GpsResult F := { valid := false, lat := degrees 0, lon := degrees 0 }
  if pktType ≠ 0x00 ∧ pktType ≠ 0x20 then g
  else
    let g := { g with
      lat := coordinate bytes 1 (degrees 90)
      lon := coordinate bytes 4 (degrees 180) }
    if g.lat < -degrees 90 ∨ degrees 90 < g.lat then g
    else if g.lon < -degrees 180 ∨ degrees 180 < g.lon then g
    else if g.lat == degrees 0 && g.lon == degrees 0 then g
    else { g with valid := true }

end Gps

/-- The big-endian number in `count` payload bits from `offset` on. -/
def payloadField (bits : Vector Bool 96) (offset count : ℕ) : ℕ :=
  BigEndian.number (BigEndian.field (bitAt bits) offset count)

variable (bits : Vector Bool 96) (offset : ℕ)

theorem payloadField_lt (count : ℕ) : payloadField bits offset count < 2 ^ count := by
  have bound := BigEndian.number_lt (BigEndian.field (bitAt bits) offset count)
  rwa [BigEndian.length_field] at bound

theorem shiftIn8_toNat {count : ℕ} (fits : count ≤ 8) :
    (shiftIn8 bits offset count).toNat = payloadField bits offset count :=
  BigEndian.shiftIn _ _ UInt8.toNat _ 8 BigEndian.uint8_push rfl fits

theorem extractU24_toNat : (extractU24 bits offset).toNat = payloadField bits offset 24 :=
  BigEndian.shiftIn _ _ UInt32.toNat _ 32 BigEndian.uint32_push rfl (by decide)

/-- A voice payload with a listed opcode is accepted unless both IDs are zero. -/
theorem parseVoiceLc_accepts
    (opcode : payloadField bits 2 6 = 0 ∨ payloadField bits 2 6 = 3)
    (named : ¬ (payloadField bits 48 24 = 0 ∧ payloadField bits 24 24 = 0)) :
    parseVoiceLc bits = {
      valid := true
      flco := UInt8.ofNat (payloadField bits 2 6)
      group := payloadField bits 2 6 == 0
      srcId := UInt32.ofNat (payloadField bits 48 24)
      dstId := UInt32.ofNat (payloadField bits 24 24) } := by
  have flco := shiftIn8_toNat bits 2 (show 6 ≤ 8 by decide)
  have src := extractU24_toNat bits 48
  have dst := extractU24_toNat bits 24
  have flco_eq : shiftIn8 bits 2 6 = UInt8.ofNat (payloadField bits 2 6) := by
    rw [← flco, UInt8.ofNat_toNat]
  have src_eq : extractU24 bits 48 = UInt32.ofNat (payloadField bits 48 24) := by
    rw [← src, UInt32.ofNat_toNat]
  have dst_eq : extractU24 bits 24 = UInt32.ofNat (payloadField bits 24 24) := by
    rw [← dst, UInt32.ofNat_toNat]
  have some_id : ¬ (extractU24 bits 48 = 0 ∧ extractU24 bits 24 = 0) := by
    rintro ⟨no_src, no_dst⟩
    rw [no_src] at src
    rw [no_dst] at dst
    exact named ⟨src.symm, dst.symm⟩
  have listed : ¬ (shiftIn8 bits 2 6 ≠ 0x00 ∧ shiftIn8 bits 2 6 ≠ 0x03) := by
    rcases opcode with group | individual
    · simp [flco_eq, group]
    · simp [flco_eq, individual]
  have kind : (shiftIn8 bits 2 6 == 0x00) = (payloadField bits 2 6 == 0) := by
    rcases opcode with group | individual
    · simp [flco_eq, group]
    · simp [flco_eq, individual]
  rw [parseVoiceLc]
  simp only [if_neg listed, if_neg some_id]
  rw [kind, flco_eq, src_eq, dst_eq]

end LcParser
end DmrWatchkeeper
