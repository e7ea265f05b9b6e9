import DmrWatchkeeper.Library.Utf8
import Mathlib.Data.Int.Notation
import Mathlib.Data.List.TakeDrop

/-! The part of C's formatted output that prints strings and integers, into a
buffer of a given size. Texts are bytes; a C string holds no null byte. -/
namespace DmrWatchkeeper.Printf
open Utf8

/-- The bytes of a C string, without the null byte that ends it. -/
structure CString where
  bytes : List UInt8
  terminated : 0 ∉ bytes

/-- A C string of ASCII characters. -/
def CString.ofAscii (text : List Char) (ascii : ∀ c ∈ text, 0 < c.val ∧ c.val ≤ 0x7F) : CString where
  bytes := encode text
  terminated := by
    rw [encode_ascii fun c member => (ascii c member).2, List.mem_map]
    rintro ⟨c, member, null⟩
    obtain ⟨positive, bound⟩ := ascii c member
    rw [← UInt8.toNat_inj, UInt32.toNat_toUInt8, UInt8.toNat_zero] at null
    rw [UInt32.lt_iff_toNat_lt, UInt32.toNat_zero] at positive
    rw [UInt32.le_iff_toNat_le] at bound
    have small : c.val.toNat < 2 ^ 8 := Nat.lt_of_le_of_lt bound (by decide)
    rw [Nat.mod_eq_of_lt small] at null
    omega

inductive Arg where
  | str (s : CString)
  | int (i : ℤ)
  | uint (n : ℕ)

/-- The digits of `%d`. -/
def decimal (i : ℤ) : List Char :=
  if i < 0 then '-' :: Nat.toDigits 10 i.natAbs else Nat.toDigits 10 i.natAbs

/-- What a format prints. A conversion without an argument of its type, where C
promises nothing, prints itself. -/
def format : List Char → List Arg → List UInt8
  | '%' :: 's' :: fmt, .str s :: args => s.bytes ++ format fmt args
  | '%' :: 'd' :: fmt, .int i :: args => encode (decimal i) ++ format fmt args
  | '%' :: 'u' :: fmt, .uint n :: args => encode (Nat.toDigits 10 n) ++ format fmt args
  | c :: fmt, args => String.utf8EncodeChar c ++ format fmt args
  | [], _ => []

/-- The string left in a buffer of `size` bytes, one of them for the null byte. -/
def snprintf (size : ℕ) (fmt : List Char) (args : List Arg) : List UInt8 :=
  (format fmt args).take (size - 1)

variable {fmt : List Char} {args : List Arg}

theorem format_str (s : CString) :
    format ('%' :: 's' :: fmt) (.str s :: args) = s.bytes ++ format fmt args := rfl

theorem format_int (i : ℤ) :
    format ('%' :: 'd' :: fmt) (.int i :: args) = encode (decimal i) ++ format fmt args := rfl

theorem format_uint (n : ℕ) :
    format ('%' :: 'u' :: fmt) (.uint n :: args) =
      encode (Nat.toDigits 10 n) ++ format fmt args := rfl

/-- Text without conversions is printed as it stands. -/
theorem format_text {text : List Char} (plain : '%' ∉ text) :
    format (text ++ fmt) args = encode text ++ format fmt args := by
  induction text with
  | nil => rfl
  | cons c text ih =>
    obtain ⟨here, rest⟩ := not_or.mp (mt List.mem_cons.mpr plain)
    rw [encode_cons, List.append_assoc, ← ih rest, List.cons_append, format]
    all_goals
      intro _ _ _ _ percent
      exact absurd percent.symm here

/-- A buffer holds all that is printed when there is room for it. -/
theorem snprintf_whole {size : ℕ} :
    snprintf size fmt args = format fmt args ↔ (format fmt args).length ≤ size - 1 :=
  List.take_eq_self_iff _

theorem digit_ascii {c : Char} (digit : c.isDigit) : 0 < c.val ∧ c.val ≤ 0x7F := by
  rw [Char.isDigit, Bool.and_eq_true, decide_eq_true_eq, decide_eq_true_eq] at digit
  exact ⟨UInt32.lt_of_lt_of_le (by decide) digit.1, UInt32.le_trans digit.2 (by decide)⟩

theorem length_digits (n : ℕ) : (encode (Nat.toDigits 10 n)).length = (Nat.toDigits 10 n).length :=
  length_encode_ascii fun _ digit =>
    (digit_ascii (Nat.isDigit_of_mem_toDigits (by decide) (by decide) digit)).2

end DmrWatchkeeper.Printf
