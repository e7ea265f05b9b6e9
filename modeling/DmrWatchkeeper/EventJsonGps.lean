import DmrWatchkeeper.BptcCorrection
import DmrWatchkeeper.ChannelDouble
import DmrWatchkeeper.EventJsonReading

/-! The JSON line of a position report: the data branch of the layer-2 callback
in `main.cpp`, and what a JSON reader gets from the line. -/
namespace DmrWatchkeeper.EventJsonGps
open BurstSync ChannelDouble EventJson EventJsonReading FixedPoint Json LcParser LcParserDouble
open Binary64 Printf Utf8
open LcParserGps hiding encode

def gpsFormat : List Char :=
  "\x7b\"ts\":\"%s\",\"ch\":\"%s\",\"slot\":%d,".toList ++
    ("\"type\":\"gps\",".toList ++ "\"src\":0,\"lat\":%.6f,\"lon\":%.6f\x7d".toList)

def gpsArgs (tm : Tm) (chLabel : CString) (timeslot : ℤ) (lat lon : ℚ) : List FixedPoint.Arg :=
  [.plain (.str (timestamp tm)), .plain (.str chLabel), .plain (.int timeslot), .double lat, .double lon]

/-- The string in `json` after the data branch has printed into it. -/
def gpsJson (tm : Tm) (chLabel : CString) (timeslot : ℤ) (lat lon : ℚ) : List UInt8 :=
  FixedPoint.snprintf 320 gpsFormat (gpsArgs tm chLabel timeslot lat lon)

/-- The line that the data branch of the callback hands to `emit`. -/
def gpsLine (tm : Tm) (chLabel : CString) (burst : Burst) : Option (List UInt8) :=
  let decoded := Bptc19696.decode burst.dibits
  if !decoded.2 then none
  else if burst.type = .bsData ∨ burst.type = .msData then
    let gps : GpsResult Double := parseGps decoded.1
    if gps.valid then some (gpsJson tm chLabel burst.timeslot gps.lat.value gps.lon.value) else none
  else none

variable {tm : Tm} {label : CString} {burst : Burst} {line : List UInt8} {timeslot : ℤ} {lat lon : ℚ}

/-- A line is printed for an accepted position report, with the fields of its event. -/
theorem gpsLine_event (ch : String) (printed : gpsLine tm label burst = some line) :
    ∃ bits, Bptc19696.decode burst.dibits = (bits, true) ∧
      (parseGps bits : GpsResult Double).valid = true ∧
      line = gpsJson tm label burst.timeslot (parseGps bits : GpsResult Double).lat.value
        (parseGps bits : GpsResult Double).lon.value ∧
      (Channel.burstEvent ch burst : Option (Channel.Event Double)) =
        some (.gps ch burst.timeslot (parseGps bits : GpsResult Double).lat
          (parseGps bits : GpsResult Double).lon) := by
  simp only [gpsLine] at printed
  split_ifs at printed with failed data valid
  cases printed
  have decoded : Bptc19696.decode burst.dibits = ((Bptc19696.decode burst.dibits).1, true) :=
    Prod.ext rfl (by simpa using failed)
  have other : ¬(burst.type = .bsVoice ∨ burst.type = .msVoice) := by
    rcases data with data | data <;> simp [data]
  refine ⟨_, decoded, valid, rfl, ?_⟩
  simp only [Channel.burstEvent, if_neg failed, if_neg other, if_pos data, if_pos valid]

/-! ### The text of the line -/

/-- The line behind the label and its quotation mark. -/
def gpsTail (timeslot : ℤ) (lat lon : ℚ) : List Char :=
  ',' :: field "slot" (decimal timeslot ++ ',' :: field "type" ('"' :: ("gps".toList ++ '"' :: ',' ::
    field "src" (Nat.toDigits 10 0 ++ ',' :: field "lat" (fixedPoint 6 lat ++ ',' ::
      field "lon" (fixedPoint 6 lon ++ ['}']))))))

theorem gpsFormat_eq : gpsFormat =
    "\x7b\"ts\":\"".toList ++ '%' :: 's' :: ("\",\"ch\":\"".toList ++ '%' :: 's' ::
      ("\",\"slot\":".toList ++ '%' :: 'd' :: (",\"type\":\"gps\",\"src\":0,\"lat\":".toList ++
        '%' :: '.' :: '6' :: 'f' :: (",\"lon\":".toList ++ '%' :: '.' :: '6' :: 'f' ::
          ("\x7d".toList ++ []))))) := by
  decide +kernel

theorem gps_pieces : FixedPoint.format gpsFormat (gpsArgs tm label timeslot lat lon) =
    encode "\x7b\"ts\":\"".toList ++ ((timestamp tm).bytes ++ (encode "\",\"ch\":\"".toList ++
      (label.bytes ++ (encode "\",\"slot\":".toList ++ (encode (decimal timeslot) ++
        (encode ",\"type\":\"gps\",\"src\":0,\"lat\":".toList ++ (encode (fixedPoint 6 lat) ++
          (encode ",\"lon\":".toList ++ (encode (fixedPoint 6 lon) ++ encode "\x7d".toList))))))))) := by
  rw [gpsFormat_eq, gpsArgs, FixedPoint.format_text (by decide), FixedPoint.format_str,
    FixedPoint.format_text (by decide), FixedPoint.format_str, FixedPoint.format_text (by decide),
    FixedPoint.format_int, FixedPoint.format_text (by decide), format_double,
    FixedPoint.format_text (by decide), format_double, FixedPoint.format_text (by decide)]
  rfl

/-- The printed line is the label between two texts. -/
theorem format_gps : FixedPoint.format gpsFormat (gpsArgs tm label timeslot lat lon) =
    encode (head (iso8601 tm)) ++ (label.bytes ++ encode ('"' :: gpsTail timeslot lat lon)) := by
  have front : head (iso8601 tm) = "\x7b\"ts\":\"".toList ++ (iso8601 tm ++ "\",\"ch\":\"".toList) := rfl
  have back : '"' :: gpsTail timeslot lat lon = "\",\"slot\":".toList ++ (decimal timeslot ++
      (",\"type\":\"gps\",\"src\":0,\"lat\":".toList ++ (fixedPoint 6 lat ++
        (",\"lon\":".toList ++ (fixedPoint 6 lon ++ "\x7d".toList))))) := rfl
  rw [gps_pieces, front, back]
  simp only [encode_append, List.append_assoc]
  rfl

theorem length_fixedPoint (x : ℚ) : (encode (fixedPoint 6 x)).length = (fixedPoint 6 x).length := by
  refine length_encode_ascii fun c member => ?_
  rcases fixedPoint_mem member with digit | rfl | rfl
  · exact (digit_ascii digit).2
  · decide
  · decide

/-- With a time stamp of 20 characters, 81 characters of the line are fixed. -/
theorem length_gps (stamp : (iso8601 tm).length = 20) (slot : timeslot = 1 ∨ timeslot = 2) :
    (FixedPoint.format gpsFormat (gpsArgs tm label timeslot lat lon)).length =
      81 + (label.bytes.length + (fixedPoint 6 lat).length + (fixedPoint 6 lon).length) := by
  have stamped : (timestamp tm).bytes.length = 20 :=
    (length_encode_ascii fun _ member => (iso8601_ascii member).2).trans stamp
  have slotted : (encode (decimal timeslot)).length = 1 := by
    rcases slot with rfl | rfl <;> rfl
  have texts : (encode "\x7b\"ts\":\"".toList).length = 7 ∧ (encode "\",\"ch\":\"".toList).length = 8 ∧
      (encode "\",\"slot\":".toList).length = 9 ∧
      (encode ",\"type\":\"gps\",\"src\":0,\"lat\":".toList).length = 28 ∧
      (encode ",\"lon\":".toList).length = 7 ∧ (encode "\x7d".toList).length = 1 :=
    ⟨rfl, rfl, rfl, rfl, rfl, rfl⟩
  obtain ⟨ts, ch, slot, north, east, brace⟩ := texts
  rw [gps_pieces]
  simp only [List.length_append, stamped, slotted, length_fixedPoint, ts, ch, slot, north, east, brace]
  omega

/-! ### Reading the line -/

def gpsTokens (timeslot : ℤ) (lat lon : ℚ) : List Token :=
  [.comma, .string (units "slot".toList), .colon, .number timeslot,
    .comma, .string (units "type".toList), .colon, .string (units "gps".toList),
    .comma, .string (units "src".toList), .colon, .number (0 : ℕ),
    .comma, .string (units "lat".toList), .colon, .number (rounded 6 lat),
    .comma, .string (units "lon".toList), .colon, .number (rounded 6 lon), .rbrace]

/-- Behind the label, the line is well formed when the reader is outside a string. -/
theorem run_gpsTail {tokens : List Token} (slot : timeslot = 1 ∨ timeslot = 2) :
    run ⟨.outside, tokens⟩ (gpsTail timeslot lat lon) =
      some ⟨.outside, tokens ++ gpsTokens timeslot lat lon⟩ := by
  have comma : punctuation? ',' = some .comma := rfl
  have closed : punctuation? '}' = some .rbrace := rfl
  have places : 0 < 6 := by decide
  have digits : decimal timeslot = Nat.toDigits 10 timeslot.toNat := by
    rcases slot with rfl | rfl <;> rfl
  have value : ((timeslot.toNat : ℕ) : ℚ) = timeslot := by
    rcases slot with rfl | rfl <;> rfl
  rw [gpsTail, digits, run_punctuation comma, run_field rfl, run_number _ rfl, run_punctuation comma,
    run_field rfl, run_string (List.all_iff_forall_prop.mp rfl), run_punctuation comma, run_field rfl,
    run_number _ rfl, run_punctuation comma, run_field rfl, run_fixedPoint places rfl, run_punctuation comma,
    run_field rfl, run_fixedPoint places rfl, run_punctuation closed, value]
  simp only [run, List.foldlM_nil, List.append_assoc, List.cons_append, List.nil_append]
  rfl

/-- The members of a line, in their order. -/
def gpsMembers (ts label : List Char) (timeslot : ℤ) (lat lon : ℚ) : List (List ℕ × Value) :=
  [(units "ts".toList, .string (units ts)), (units "ch".toList, .string (units label)),
    (units "slot".toList, .number timeslot), (units "type".toList, .string (units "gps".toList)),
    (units "src".toList, .number (0 : ℕ)), (units "lat".toList, .number (rounded 6 lat)),
    (units "lon".toList, .number (rounded 6 lon))]

theorem gpsMembers_denoted (ts text : List Char) :
    Denotes (headTokens ts ++ (.string (units text) :: gpsTokens timeslot lat lon))
      (.object (gpsMembers ts text timeslot lat lon)) :=
  .object (.more _ (.string _) (.more _ (.string _) (.more _ (.number _) (.more _ (.string _)
    (.more _ (.number _) (.more _ (.number _) (.last _ (.number _))))))))

/-- A plain label between two well-formed texts is read as a string of the object. -/
theorem pasted_reads {text tail : List Char} {tokens : List Token} {value : Value}
    (spelled : encode text = label.bytes) (unescaped : ∀ c ∈ text, Unescaped c)
    (ran : ∀ before, run ⟨.outside, before⟩ tail = some ⟨.outside, before ++ tokens⟩)
    (denotes : Denotes (headTokens (iso8601 tm) ++ (.string (units text) :: tokens)) value) :
    Reads (encode (head (iso8601 tm)) ++ (label.bytes ++ encode ('"' :: tail))) value := by
  have closed : step ⟨.string (units text), headTokens (iso8601 tm)⟩ '"' =
      some ⟨.outside, headTokens (iso8601 tm) ++ [.string (units text)]⟩ := rfl
  refine ⟨head (iso8601 tm) ++ (text ++ '"' :: tail), _, ?_, ?_, denotes⟩
  · rw [encode_append, encode_append, spelled]
  · rw [lex, run_append, run_head, Option.bind_some, run_append, run_unescaped unescaped, List.nil_append,
      Option.bind_some, run_cons, closed, Option.bind_some, ran, List.append_assoc]
    rfl

/-- A line with room in the buffer is read as an object. -/
theorem gpsJson_reads {text : List Char} (slot : timeslot = 1 ∨ timeslot = 2)
    (spelled : encode text = label.bytes) (unescaped : ∀ c ∈ text, Unescaped c)
    (room : (FixedPoint.format gpsFormat (gpsArgs tm label timeslot lat lon)).length ≤ 319) :
    Reads (gpsJson tm label timeslot lat lon) (.object (gpsMembers (iso8601 tm) text timeslot lat lon)) := by
  have whole : gpsJson tm label timeslot lat lon =
      FixedPoint.format gpsFormat (gpsArgs tm label timeslot lat lon) := List.take_of_length_le room
  rw [whole, format_gps]
  exact pasted_reads spelled unescaped (fun _ => run_gpsTail slot) (gpsMembers_denoted (iso8601 tm) text)

/-- Coordinates within their limits leave room for a label of 217 bytes. -/
theorem gps_room (stamp : (iso8601 tm).length = 20) (slot : timeslot = 1 ∨ timeslot = 2)
    (short : label.bytes.length ≤ 217) (north : |lat| ≤ 90) (east : |lon| ≤ 180) :
    (FixedPoint.format gpsFormat (gpsArgs tm label timeslot lat lon)).length ≤ 319 := by
  have places : 0 < 6 := by decide
  have lat_room : (fixedPoint 6 lat).length ≤ 2 + 6 + 2 :=
    fixedPoint_length places (by decide) (show 90 < 10 ^ 2 by decide) (by exact_mod_cast north)
  have lon_room : (fixedPoint 6 lon).length ≤ 3 + 6 + 2 :=
    fixedPoint_length places (by decide) (show 180 < 10 ^ 3 by decide) (by exact_mod_cast east)
  rw [length_gps stamp slot]
  omega

/-! ### The position that is read -/

/-- A coordinate of which six decimal places are known: it is close to the exact
one, and the integer of the payload can be told from it. -/
structure Recovers (q : ℚ) (n limit : ℤ) : Prop where
  near : |q - degrees n limit| ≤ 1 / 2 / 10 ^ 6
  integer : roundEven (q * 0x7FFFFF / limit) = n

/-- The members have the values that the callback was given. -/
structure GpsFields (members : List (List ℕ × Value)) (label : CString) (timeslot : ℤ)
    (bits : Vector Bool 96) : Prop where
  ch : ∃ text, encode text = label.bytes ∧ get? members "ch".toList = some (.string (units text))
  slot : get? members "slot".toList = some (.number timeslot)
  type : get? members "type".toList = some (.string (units "gps".toList))
  src : get? members "src".toList = some (.number 0)
  lat : ∃ q, get? members "lat".toList = some (.number q) ∧ Recovers q (signedField bits 8) 90
  lon : ∃ q, get? members "lon".toList = some (.number q) ∧ Recovers q (signedField bits 32) 180

theorem recovers_rounded {n limit : ℤ} {x : Double} (limits : limit = 90 ∨ limit = 180)
    (coordinate : Coordinate x (degrees n limit)) : Recovers (rounded 6 x.value) n limit := by
  have places : 0 < 6 := by decide
  have same : rounded 6 x.value = rounded 6 (degrees n limit) := by
    have read := number_fixedPoint (x := x.value) places
    rw [coordinate.text, number_fixedPoint places] at read
    exact (Option.some.inj read).symm
  have near : |rounded 6 x.value - degrees n limit| ≤ 1 / 2 / 10 ^ 6 := by
    rw [same]
    exact rounded_error _
  have positive : (0 : ℤ) < limit := by rcases limits with rfl | rfl <;> decide
  have step : (0x7FFFFF : ℚ) / limit ≤ 0x7FFFFF / 90 := by rcases limits with rfl | rfl <;> norm_num
  have scale : (0 : ℚ) < 0x7FFFFF / limit := div_pos (by norm_num) (by exact_mod_cast positive)
  refine ⟨near, roundEven_eq ?_⟩
  have whole : (n : ℚ) = degrees n limit * (0x7FFFFF / limit) := by
    rw [← mul_div_assoc, degrees_exact n limit positive]
  rw [mul_div_assoc, whole, ← sub_mul, abs_mul, abs_of_pos scale, abs_sub_comm]
  calc |rounded 6 x.value - degrees n limit| * (0x7FFFFF / limit)
      ≤ 1 / 2 / 10 ^ 6 * (0x7FFFFF / 90) := mul_le_mul near step scale.le (by norm_num)
    _ < 1 / 2 := by norm_num

/-- Every position report that is printed under a plain label of at most 217 bytes
is read back: channel and timeslot as they were given, and coordinates from which
the two integers of the payload can be told, in spite of doubles and decimals. -/
theorem position_recovered (stamp : (iso8601 tm).length = 20)
    (slot : burst.timeslot = 1 ∨ burst.timeslot = 2) (plain : Plain label)
    (short : label.bytes.length ≤ 217) (printed : gpsLine tm label burst = some line) :
    ∃ bits members, Bptc19696.decode burst.dibits = (bits, true) ∧ Reads line (.object members) ∧
      GpsFields members label burst.timeslot bits := by
  obtain ⟨bits, decoded, valid, rfl, -⟩ := gpsLine_event "" printed
  obtain ⟨text, spelled, unescaped⟩ := plain
  obtain ⟨lat, lon, -⟩ := parseGps_scaled (position_of_valid valid)
  obtain ⟨north, east⟩ := parseGps_bounded valid
  rw [lat] at north ⊢
  rw [lon] at east ⊢
  exact ⟨bits, _, decoded, gpsJson_reads slot spelled unescaped (gps_room stamp slot short north east),
    ⟨text, spelled, rfl⟩, rfl, rfl, rfl,
    ⟨_, rfl, recovers_rounded (.inl rfl) (scaled_coordinate (field24_signedField bits 8) (.inl rfl))⟩,
    ⟨_, rfl, recovers_rounded (.inr rfl) (scaled_coordinate (field24_signedField bits 32) (.inr rfl))⟩⟩

/-- A mobile station one step north of the equator. -/
def northReport : Burst := { type := .msData, dibits := BptcTransmit.receivedDibits northward true {6, 151} }

theorem position_recovered_north : ∃ line, gpsLine noon pmrLabel northReport = some line ∧
    ∃ bits members, Bptc19696.decode northReport.dibits = (bits, true) ∧ Reads line (.object members) ∧
      GpsFields members pmrLabel 1 bits := by
  have decoded : Bptc19696.decode northReport.dibits = (northward, true) :=
    BptcCorrection.decode_of_two northward true (by decide)
  have valid : (parseGps northward : GpsResult Double).valid = true := by
    rw [(parseGps_double northward).1, parseGps_valid_iff]
    unfold Acceptable Position
    decide +kernel
  have data : northReport.type = .bsData ∨ northReport.type = .msData := .inr rfl
  obtain ⟨line, printed⟩ : ∃ line, gpsLine noon pmrLabel northReport = some line := by
    simp only [gpsLine, decoded, Bool.not_true, Bool.false_eq_true, ↓reduceIte, if_pos data, if_pos valid]
    exact ⟨_, rfl⟩
  refine ⟨line, printed, position_recovered rfl (.inl rfl) ?_ (by decide) printed⟩
  exact ⟨"446.006".toList, rfl, List.all_iff_forall_prop.mp rfl⟩

end DmrWatchkeeper.EventJsonGps
