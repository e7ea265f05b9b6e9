import DmrWatchkeeper.Library.Binary64
import DmrWatchkeeper.Library.JsonLexing
import DmrWatchkeeper.Library.Printf
import Mathlib.Data.Nat.Digits.Defs

/-! Numbers with a fixed count of decimal places: how C prints them, and what a
JSON reader takes them for. -/
namespace DmrWatchkeeper.FixedPoint
open Binary64 Json Printf Utf8

/-- The conversion `%.<places>f`, for at least one place. -/
def fixedPoint (places : ℕ) (x : ℚ) : List Char :=
  let scaled := (roundEven (x * (10 : ℚ) ^ places)).natAbs
  let digits := Nat.toDigits 10 (scaled / 10 ^ places) ++
    '.' :: (Nat.toDigits 10 (scaled % 10 ^ places)).leftpad places '0'
  if x < 0 then '-' :: digits else digits

/-- The number that the digits stand for. -/
def rounded (places : ℕ) (x : ℚ) : ℚ := roundEven (x * (10 : ℚ) ^ places) / (10 : ℚ) ^ places

/-- Arguments with doubles among them. -/
inductive Arg where
  | plain (arg : Printf.Arg)
  | double (x : ℚ)

/-- What a format prints when six decimal places are among its conversions. -/
def format : List Char → List Arg → List UInt8
  | '%' :: '.' :: '6' :: 'f' :: fmt, .double x :: args => encode (fixedPoint 6 x) ++ format fmt args
  | '%' :: 's' :: fmt, .plain (.str s) :: args => s.bytes ++ format fmt args
  | '%' :: 'd' :: fmt, .plain (.int i) :: args => encode (decimal i) ++ format fmt args
  | '%' :: 'u' :: fmt, .plain (.uint n) :: args => encode (Nat.toDigits 10 n) ++ format fmt args
  | c :: fmt, args => String.utf8EncodeChar c ++ format fmt args
  | [], _ => []

/-- The string left in a buffer of `size` bytes, one of them for the null byte. -/
def snprintf (size : ℕ) (fmt : List Char) (args : List Arg) : List UInt8 :=
  (format fmt args).take (size - 1)

variable {fmt : List Char} {args : List Arg} {places : ℕ} {x y : ℚ}

theorem format_double (x : ℚ) : format ('%' :: '.' :: '6' :: 'f' :: fmt) (.double x :: args) =
    encode (fixedPoint 6 x) ++ format fmt args := rfl

theorem format_str (s : CString) : format ('%' :: 's' :: fmt) (.plain (.str s) :: args) =
    s.bytes ++ format fmt args := rfl

theorem format_int (i : ℤ) : format ('%' :: 'd' :: fmt) (.plain (.int i) :: args) =
    encode (decimal i) ++ format fmt args := rfl

/-- Text without conversions is printed as it stands. -/
theorem format_text {text : List Char} (plain : '%' ∉ text) :
    format (text ++ fmt) args = encode text ++ format fmt args := by
  induction text with
  | nil => rfl
  | cons c text ih =>
    obtain ⟨here, rest⟩ := not_or.mp (mt List.mem_cons.mpr plain)
    rw [encode_cons, List.append_assoc, ← ih rest, List.cons_append, format]
    all_goals
      intro _ _ _ _ percent
      exact absurd percent.symm here

/-! ### The digits -/

theorem fraction_length {n : ℕ} (some_ : 0 < places) (bound : n < 10 ^ places) :
    ((Nat.toDigits 10 n).leftpad places '0').length = places := by
  rw [List.length_leftpad, max_eq_left (Nat.toDigits_length 10 n places some_ bound)]

theorem leftpad_digit {n : ℕ} {c : Char} (member : c ∈ (Nat.toDigits 10 n).leftpad places '0') : c.isDigit := by
  rcases List.mem_append.mp member with zero | digit
  · rw [List.eq_of_mem_replicate zero]
    rfl
  · exact isDigit_of_mem digit

theorem digits_leftpad (n : ℕ) : digits? ((Nat.toDigits 10 n).leftpad places '0') = some n := by
  have some_ : (Nat.toDigits 10 n).leftpad places '0' ≠ [] := by
    rw [List.leftpad]
    exact List.append_ne_nil_of_right_ne_nil _ Nat.toDigits_ne_nil
  rw [digits?, if_pos ⟨some_, List.all_eq_true.mpr fun _ => leftpad_digit⟩, List.leftpad,
    Nat.ofDigitChars_append, Nat.ofDigitChars_replicate_zero, Nat.mul_zero, Nat.ofDigitChars_ten_toDigits]

/-- A point between digits is read as such. -/
theorem unsigned_point (n : ℕ) (some_ : 0 < places) :
    unsigned? (Nat.toDigits 10 (n / 10 ^ places) ++
      '.' :: (Nat.toDigits 10 (n % 10 ^ places)).leftpad places '0') = some ((n : ℚ) / 10 ^ places) := by
  have positive : 0 < 10 ^ places := Nat.pow_pos (by decide)
  have length := fraction_length some_ (Nat.mod_lt n positive)
  have plain : ∀ c ∈ Nat.toDigits 10 (n / 10 ^ places) ++
      '.' :: (Nat.toDigits 10 (n % 10 ^ places)).leftpad places '0', c.isDigit ∨ c = '.' := by
    intro c member
    rcases List.mem_append.mp member with digit | rest
    · exact .inl (isDigit_of_mem digit)
    · exact (List.mem_cons.mp rest).elim .inr fun digit => .inl (leftpad_digit digit)
  have mantissa : (Nat.toDigits 10 (n / 10 ^ places) ++
      '.' :: (Nat.toDigits 10 (n % 10 ^ places)).leftpad places '0').span (fun c => c ≠ 'e' ∧ c ≠ 'E') =
      (Nat.toDigits 10 (n / 10 ^ places) ++
        '.' :: (Nat.toDigits 10 (n % 10 ^ places)).leftpad places '0', []) := by
    rw [List.span_eq_takeWhile_dropWhile, List.takeWhile_eq_self_iff.mpr, List.dropWhile_eq_nil_iff.mpr]
    all_goals
      intro c member
      refine decide_eq_true ⟨?_, ?_⟩ <;> rintro rfl <;> exact absurd (plain _ member) (by decide)
  have whole : (Nat.toDigits 10 (n / 10 ^ places) ++
      '.' :: (Nat.toDigits 10 (n % 10 ^ places)).leftpad places '0').span (fun c => c ≠ '.') =
      (Nat.toDigits 10 (n / 10 ^ places),
        '.' :: (Nat.toDigits 10 (n % 10 ^ places)).leftpad places '0') := by
    have digits : ∀ c ∈ Nat.toDigits 10 (n / 10 ^ places), decide (c ≠ '.') := by
      intro c digit
      refine decide_eq_true ?_
      rintro rfl
      exact absurd (isDigit_of_mem digit) (by decide)
    rw [List.span_eq_takeWhile_dropWhile, List.takeWhile_append_of_pos digits,
      List.dropWhile_append_of_pos digits]
    simp
  simp only [unsigned?, mantissa, whole, whole_digits, fraction?, digits_leftpad, exponent?, length]
  have split := Nat.div_add_mod n (10 ^ places)
  have scale : ((10 : ℚ) ^ places) ≠ 0 := by positivity
  have value : ((n / 10 ^ places : ℕ) : ℚ) + ((n % 10 ^ places : ℕ) : ℚ) / 10 ^ places = n / 10 ^ places := by
    rw [eq_div_iff scale, add_mul, div_mul_cancel₀ _ scale]
    exact_mod_cast (by rw [mul_comm]; exact split)
  simp [value]

theorem roundEven_sign (places : ℕ) (x : ℚ) :
    (x < 0 → -((roundEven (x * 10 ^ places)).natAbs : ℚ) = roundEven (x * 10 ^ places)) ∧
      (0 ≤ x → ((roundEven (x * 10 ^ places)).natAbs : ℚ) = roundEven (x * 10 ^ places)) := by
  have scale : (0 : ℚ) < 10 ^ places := by positivity
  constructor
  · intro negative
    have low : roundEven (x * 10 ^ places) ≤ 0 :=
      roundEven_le (by exact_mod_cast (mul_neg_of_neg_of_pos negative scale).le)
    have size : -((roundEven (x * 10 ^ places)).natAbs : ℤ) = roundEven (x * 10 ^ places) := by omega
    rw [← Int.cast_natCast, ← Int.cast_neg, size]
  · intro positive
    have high : 0 ≤ roundEven (x * 10 ^ places) :=
      le_roundEven (by exact_mod_cast mul_nonneg positive scale.le)
    have size : ((roundEven (x * 10 ^ places)).natAbs : ℤ) = roundEven (x * 10 ^ places) := by omega
    rw [← Int.cast_natCast, size]

/-- A number with decimal places is read as the number that it was rounded to. -/
theorem number_fixedPoint (some_ : 0 < places) : number? (fixedPoint places x) = some (rounded places x) := by
  have read := unsigned_point (roundEven (x * 10 ^ places)).natAbs some_
  obtain ⟨negative, positive⟩ := roundEven_sign places x
  by_cases sign : x < 0
  · rw [fixedPoint, if_pos sign, number?, read, Option.map_some, ← neg_div, negative sign, rounded]
  · have unsigned (chars : List Char) (first : chars.head? ≠ some '-') : number? chars = unsigned? chars := by
      unfold number?
      split
      · exact absurd rfl first
      · rfl
    rw [fixedPoint, if_neg sign, unsigned, read, positive (not_lt.mp sign), rounded]
    obtain ⟨c, chars, spelled⟩ := List.exists_cons_of_ne_nil
      (Nat.toDigits_ne_nil (n := (roundEven (x * 10 ^ places)).natAbs / 10 ^ places) (b := 10))
    have digit : c.isDigit := isDigit_of_mem (spelled ▸ List.mem_cons_self)
    rw [spelled, List.cons_append, List.head?_cons, ne_eq, Option.some.injEq]
    rintro rfl
    cases digit

example : fixedPoint 6 (-1 / 3) = "-0.333333".toList := by decide +kernel

/-- The characters of a number with decimal places. -/
theorem fixedPoint_mem {c : Char} (member : c ∈ fixedPoint places x) : c.isDigit ∨ c = '.' ∨ c = '-' := by
  have unsigned (n m : ℕ) (member : c ∈ Nat.toDigits 10 n ++ '.' :: (Nat.toDigits 10 m).leftpad places '0') :
      c.isDigit ∨ c = '.' := by
    rcases List.mem_append.mp member with digit | rest
    · exact .inl (isDigit_of_mem digit)
    · exact (List.mem_cons.mp rest).elim .inr fun digit => .inl (leftpad_digit digit)
  simp only [fixedPoint] at member
  split at member
  · rcases List.mem_cons.mp member with minus | rest
    · exact .inr (.inr minus)
    · exact (unsigned _ _ rest).imp_right .inl
  · exact (unsigned _ _ member).imp_right .inl

theorem run_fixedPoint {tokens : List Token} {rest : List Char} {d : Char} (some_ : 0 < places)
    (ends : isBare d = false) :
    run ⟨.outside, tokens⟩ (fixedPoint places x ++ d :: rest) =
      run ⟨.outside, tokens ++ [.number (rounded places x)]⟩ (d :: rest) := by
  have bare : ∀ c ∈ fixedPoint places x, isBare c := by
    intro c member
    rcases fixedPoint_mem member with digit | rfl | rfl
    · simp [isBare, Char.isAlphanum, digit]
    · rfl
    · rfl
  have number : bareToken? (fixedPoint places x) = some (.number (rounded places x)) := by
    have point : '.' ∈ fixedPoint places x := by
      simp only [fixedPoint]
      split <;> simp
    have null : fixedPoint places x ≠ "null".toList := fun word => absurd (word ▸ point) (by decide)
    have true : fixedPoint places x ≠ "true".toList := fun word => absurd (word ▸ point) (by decide)
    have false : fixedPoint places x ≠ "false".toList := fun word => absurd (word ▸ point) (by decide)
    rw [bareToken?, if_neg null, if_neg true, if_neg false, number_fixedPoint some_, Option.map_some]
  obtain ⟨c, chars, spelled⟩ : ∃ c chars, fixedPoint places x = c :: chars := by
    refine List.exists_cons_of_ne_nil ?_
    simp only [fixedPoint]
    split <;> simp
  rw [spelled] at bare number ⊢
  obtain ⟨first, others⟩ := List.forall_mem_cons.mp bare
  rw [run_bare first others ends, number, Option.bind_some]

/-- Rounding is off by at most half of the last place. -/
theorem rounded_error (x : ℚ) : |rounded places x - x| ≤ 1 / 2 / 10 ^ places := by
  have scale : (0 : ℚ) < 10 ^ places := by positivity
  have error := roundEven_error (x * 10 ^ places)
  rw [rounded, le_div_iff₀ scale, ← abs_of_pos scale, ← abs_mul, abs_of_pos scale, sub_mul,
    div_mul_cancel₀ _ scale.ne']
  exact error

/-- The text depends on the sign and on the rounded number. -/
theorem fixedPoint_congr (sign : x < 0 ↔ y < 0)
    (same : roundEven (x * 10 ^ places) = roundEven (y * 10 ^ places)) :
    fixedPoint places x = fixedPoint places y := by
  simp only [fixedPoint, same, sign]

/-- How much room a number takes whose whole part is bounded. -/
theorem fixedPoint_length {whole limit : ℕ} (some_ : 0 < places) (digits : 0 < whole)
    (small : limit < 10 ^ whole) (bound : |x| ≤ limit) :
    (fixedPoint places x).length ≤ whole + places + 2 := by
  have positive : 0 < 10 ^ places := Nat.pow_pos (by decide)
  have scale : (0 : ℚ) < 10 ^ places := by positivity
  obtain ⟨low, high⟩ := abs_le.mp bound
  have scaled : (roundEven (x * 10 ^ places)).natAbs ≤ limit * 10 ^ places := by
    have above : roundEven (x * 10 ^ places) ≤ (limit * 10 ^ places : ℕ) := by
      apply roundEven_le
      push_cast
      exact mul_le_mul_of_nonneg_right high scale.le
    have below : -(limit * 10 ^ places : ℕ) ≤ roundEven (x * 10 ^ places) := by
      apply le_roundEven
      push_cast
      rw [← neg_mul]
      exact mul_le_mul_of_nonneg_right low scale.le
    omega
  have leading : (roundEven (x * 10 ^ places)).natAbs / 10 ^ places < 10 ^ whole :=
    lt_of_le_of_lt (Nat.div_le_of_le_mul (scaled.trans_eq (mul_comm ..))) small
  have first := Nat.toDigits_length 10 _ whole digits leading
  have second := fraction_length some_ (Nat.mod_lt (roundEven (x * 10 ^ places)).natAbs positive)
  simp only [fixedPoint]
  split <;> simp only [List.length_cons, List.length_append, second] <;> omega

end DmrWatchkeeper.FixedPoint
