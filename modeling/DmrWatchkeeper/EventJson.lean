import DmrWatchkeeper.Channel
import DmrWatchkeeper.Library.Printf
import Mathlib.Data.Bool.AllAny

/-! The JSON line of a voice event: the time stamp and the voice branch of the
layer-2 callback in `main.cpp`, down to the bytes that are handed to `emit`. -/
namespace DmrWatchkeeper.EventJson
open BurstSync LcParser Printf Utf8

/-- The broken-down UTC time, with `year` counted from 1900. -/
structure Tm where
  year : ℤ
  mon : Fin 12
  mday : Fin 32
  hour : Fin 24
  min : Fin 60
  sec : Fin 61

/-- A number in at least two digits. -/
def padded (n : ℕ) : List Char :=
  if n < 10 then '0' :: Nat.toDigits 10 n else Nat.toDigits 10 n

/-- The conversions of `strftime` that the time stamp uses. -/
def strftime (tm : Tm) : List Char → List Char
  | '%' :: 'Y' :: fmt => decimal (tm.year + 1900) ++ strftime tm fmt
  | '%' :: 'm' :: fmt => padded (tm.mon.val + 1) ++ strftime tm fmt
  | '%' :: 'd' :: fmt => padded tm.mday ++ strftime tm fmt
  | '%' :: 'H' :: fmt => padded tm.hour ++ strftime tm fmt
  | '%' :: 'M' :: fmt => padded tm.min ++ strftime tm fmt
  | '%' :: 'S' :: fmt => padded tm.sec ++ strftime tm fmt
  | c :: fmt => c :: strftime tm fmt
  | [] => []

def iso8601 (tm : Tm) : List Char := strftime tm "%Y-%m-%dT%H:%M:%SZ".toList

variable {tm : Tm} {c : Char}

theorem decimal_mem {i : ℤ} (member : c ∈ decimal i) : c.isDigit ∨ c = '-' := by
  rw [decimal] at member
  split at member
  · rcases List.mem_cons.mp member with sign | digit
    · exact .inr sign
    · exact .inl (Nat.isDigit_of_mem_toDigits (by decide) (by decide) digit)
  · exact .inl (Nat.isDigit_of_mem_toDigits (by decide) (by decide) member)

theorem padded_mem {n : ℕ} (member : c ∈ padded n) : c.isDigit := by
  rw [padded] at member
  split at member
  · rcases List.mem_cons.mp member with rfl | digit
    · rfl
    · exact Nat.isDigit_of_mem_toDigits (by decide) (by decide) digit
  · exact Nat.isDigit_of_mem_toDigits (by decide) (by decide) member

/-- A time stamp is made of digits, signs and the characters of its format. -/
theorem strftime_mem {fmt : List Char} (member : c ∈ strftime tm fmt) :
    c.isDigit ∨ c = '-' ∨ c ∈ fmt := by
  fun_induction strftime tm fmt with
  | case1 fmt ih =>
    rcases List.mem_append.mp member with here | later
    · exact (decimal_mem here).imp_right .inl
    · exact (ih later).imp_right (.imp_right fun before => by simp [before])
  | case7 d fmt _ _ _ _ _ _ ih =>
    rcases List.mem_cons.mp member with rfl | later
    · exact .inr (.inr (List.mem_cons_self ..))
    · exact (ih later).imp_right (.imp_right fun before => by simp [before])
  | case8 => cases member
  | _ fmt ih =>
    rcases List.mem_append.mp member with here | later
    · exact .inl (padded_mem here)
    · exact (ih later).imp_right (.imp_right fun before => by simp [before])

theorem iso8601_ascii (member : c ∈ iso8601 tm) : 0 < c.val ∧ c.val ≤ 0x7F := by
  rcases strftime_mem member with digit | rfl | spelled
  · exact digit_ascii digit
  · decide
  · have format : ∀ c ∈ "%Y-%m-%dT%H:%M:%SZ".toList, 0 < c.val ∧ c.val ≤ 0x7F :=
      List.all_iff_forall_prop.mp rfl
    exact format c spelled

/-- The buffer `ts`. -/
def timestamp (tm : Tm) : CString := .ofAscii (iso8601 tm) fun _ => iso8601_ascii

/-- `group ? "true" : "false"`. -/
def groupText (group : Bool) : CString :=
  .ofAscii (if group then "true".toList else "false".toList) (by
    cases group <;> exact List.all_iff_forall_prop.mp rfl)

def voiceFormat : List Char :=
  "\x7b\"ts\":\"%s\",\"ch\":\"%s\",\"slot\":%d,".toList ++
    ("\"type\":\"voice\",".toList ++
      "\"src\":%u,\"dst\":%u,\"group\":%s\x7d".toList)

def voiceArgs (tm : Tm) (chLabel : CString) (timeslot : ℤ) (lc : LcResult) : List Arg :=
  [.str (timestamp tm), .str chLabel, .int timeslot, .uint lc.srcId.toNat, .uint lc.dstId.toNat,
    .str (groupText lc.group)]

/-- The string in `json` after the voice branch has printed into it. -/
def voiceJson (tm : Tm) (chLabel : CString) (timeslot : ℤ) (lc : LcResult) : List UInt8 :=
  snprintf 320 voiceFormat (voiceArgs tm chLabel timeslot lc)

/-- The line that the voice branch of the callback hands to `emit`. -/
def voiceLine (tm : Tm) (chLabel : CString) (burst : Burst) : Option (List UInt8) :=
  let decoded := Bptc19696.decode burst.dibits
  if !decoded.2 then none
  else if burst.type = .bsVoice ∨ burst.type = .msVoice then
    let lc := parseVoiceLc decoded.1
    if !lc.valid then none else some (voiceJson tm chLabel burst.timeslot lc)
  else none

variable {label : CString} {burst : Burst} {line : List UInt8}

/-- A line is printed for an accepted voice payload, with the fields of its event. -/
theorem voiceLine_event {F : Type} [IntCast F] [Mul F] [Div F] [Neg F] [LT F] [DecidableLT F] [BEq F]
    (ch : String) (printed : voiceLine tm label burst = some line) :
    ∃ bits, (parseVoiceLc bits).valid = true ∧
      line = voiceJson tm label burst.timeslot (parseVoiceLc bits) ∧
      (Channel.burstEvent ch burst : Option (Channel.Event F)) =
        some (.voice ch burst.timeslot (parseVoiceLc bits).srcId (parseVoiceLc bits).dstId
          (parseVoiceLc bits).group) := by
  simp only [voiceLine] at printed
  split at printed
  · cases printed
  · rename_i decoded
    split at printed
    · rename_i voice
      split at printed
      · cases printed
      · rename_i accepted
        have valid : (parseVoiceLc (Bptc19696.decode burst.dibits).1).valid = true := by simpa using accepted
        cases printed
        refine ⟨_, valid, rfl, Channel.burstEvent_voice ch (Prod.ext rfl ?_) voice rfl valid⟩
        simpa using decoded
    · cases printed

end DmrWatchkeeper.EventJson
