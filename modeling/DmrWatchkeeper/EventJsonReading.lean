import DmrWatchkeeper.EventJson
import DmrWatchkeeper.LcParserVoice
import DmrWatchkeeper.Library.JsonLexing

/-! What a JSON reader gets from the line of a voice event. The label is pasted
into the line as it is, and the line into a buffer of 320 bytes. -/
namespace DmrWatchkeeper.EventJsonReading
open EventJson Json LcParser Printf Utf8

/-- A quoted name, a colon and what follows. -/
def field (name : String) (rest : List Char) : List Char := '"' :: (name.toList ++ '"' :: ':' :: rest)

/-- The line up to the label. -/
def head (ts : List Char) : List Char :=
  '{' :: field "ts" ('"' :: (ts ++ '"' :: ',' :: field "ch" ['"']))

def groupWord (group : Bool) : List Char := if group then "true".toList else "false".toList

/-- The line behind the label and its quotation mark. -/
def tail (timeslot : ℤ) (lc : LcResult) : List Char :=
  ',' :: field "slot" (decimal timeslot ++ ',' :: field "type" ('"' :: ("voice".toList ++ '"' :: ',' ::
    field "src" (Nat.toDigits 10 lc.srcId.toNat ++ ',' :: field "dst" (Nat.toDigits 10 lc.dstId.toNat ++ ',' ::
      field "group" (groupWord lc.group ++ ['}']))))))

variable {tm : Tm} {label : CString} {timeslot : ℤ} {lc : LcResult}

theorem voiceFormat_eq : voiceFormat =
    "\x7b\"ts\":\"".toList ++ '%' :: 's' :: ("\",\"ch\":\"".toList ++ '%' :: 's' ::
      ("\",\"slot\":".toList ++ '%' :: 'd' :: (",\"type\":\"voice\",\"src\":".toList ++ '%' :: 'u' ::
      (",\"dst\":".toList ++ '%' :: 'u' :: (",\"group\":".toList ++ '%' :: 's' :: ("\x7d".toList ++ [])))))) := by
  decide +kernel

theorem format_pieces : format voiceFormat (voiceArgs tm label timeslot lc) =
    encode "\x7b\"ts\":\"".toList ++ ((timestamp tm).bytes ++ (encode "\",\"ch\":\"".toList ++
      (label.bytes ++ (encode "\",\"slot\":".toList ++ (encode (decimal timeslot) ++
        (encode ",\"type\":\"voice\",\"src\":".toList ++ (encode (Nat.toDigits 10 lc.srcId.toNat) ++
          (encode ",\"dst\":".toList ++ (encode (Nat.toDigits 10 lc.dstId.toNat) ++
            (encode ",\"group\":".toList ++ ((groupText lc.group).bytes ++
              encode "\x7d".toList))))))))))) := by
  rw [voiceFormat_eq, voiceArgs, format_text (by decide), format_str, format_text (by decide), format_str,
    format_text (by decide), format_int, format_text (by decide), format_uint, format_text (by decide),
    format_uint, format_text (by decide), format_str, format_text (by decide)]
  rfl

/-- The printed line is the label between two texts. -/
theorem format_voice : format voiceFormat (voiceArgs tm label timeslot lc) =
    encode (head (iso8601 tm)) ++ (label.bytes ++ encode ('"' :: tail timeslot lc)) := by
  have front : head (iso8601 tm) = "\x7b\"ts\":\"".toList ++ (iso8601 tm ++ "\",\"ch\":\"".toList) := rfl
  have back : '"' :: tail timeslot lc = "\",\"slot\":".toList ++ (decimal timeslot ++
      (",\"type\":\"voice\",\"src\":".toList ++ (Nat.toDigits 10 lc.srcId.toNat ++
        (",\"dst\":".toList ++ (Nat.toDigits 10 lc.dstId.toNat ++
          (",\"group\":".toList ++ (groupWord lc.group ++ "\x7d".toList))))))) := rfl
  rw [format_pieces, front, back]
  simp only [encode_append, List.append_assoc]
  rfl

/-- With a time stamp of 20 characters, 84 characters of the line are fixed. -/
theorem length_voice (stamp : (iso8601 tm).length = 20) (slot : timeslot = 1 ∨ timeslot = 2) :
    (format voiceFormat (voiceArgs tm label timeslot lc)).length =
      84 + (label.bytes.length + (Nat.toDigits 10 lc.srcId.toNat).length +
        (Nat.toDigits 10 lc.dstId.toNat).length + (groupWord lc.group).length) := by
  have stamped : (timestamp tm).bytes.length = 20 :=
    (length_encode_ascii fun _ member => (iso8601_ascii member).2).trans stamp
  have slotted : (encode (decimal timeslot)).length = 1 := by
    rcases slot with rfl | rfl <;> rfl
  have grouped : (groupText lc.group).bytes.length = (groupWord lc.group).length := by
    cases lc.group <;> rfl
  have texts : (encode "\x7b\"ts\":\"".toList).length = 7 ∧ (encode "\",\"ch\":\"".toList).length = 8 ∧
      (encode "\",\"slot\":".toList).length = 9 ∧
      (encode ",\"type\":\"voice\",\"src\":".toList).length = 22 ∧
      (encode ",\"dst\":".toList).length = 7 ∧ (encode ",\"group\":".toList).length = 9 ∧
      (encode "\x7d".toList).length = 1 := ⟨rfl, rfl, rfl, rfl, rfl, rfl, rfl⟩
  obtain ⟨ts, ch, slot, src, dst, group, brace⟩ := texts
  rw [format_pieces]
  simp only [List.length_append, stamped, slotted, grouped, length_digits, ts, ch, slot, src, dst, group, brace]
  omega

theorem digit_unescaped {c : Char} (digit : c.isDigit) : Unescaped c := by
  refine ⟨?_, ?_, ?_⟩
  · rintro rfl
    cases digit
  · rintro rfl
    cases digit
  · rw [Char.isDigit, Bool.and_eq_true, decide_eq_true_eq, decide_eq_true_eq, ge_iff_le,
      UInt32.le_iff_toNat_le] at digit
    exact le_trans (by decide) digit.1

theorem iso8601_unescaped : ∀ c ∈ iso8601 tm, Unescaped c := by
  intro c member
  rcases strftime_mem member with digit | rfl | spelled
  · exact digit_unescaped digit
  · decide
  · have format : ∀ c ∈ "%Y-%m-%dT%H:%M:%SZ".toList, Unescaped c := List.all_iff_forall_prop.mp rfl
    exact format c spelled

/-! ### The tokens of the line -/

def headTokens (ts : List Char) : List Token :=
  [.lbrace, .string (units "ts".toList), .colon, .string (units ts), .comma, .string (units "ch".toList),
    .colon]

def tailTokens (timeslot : ℤ) (lc : LcResult) : List Token :=
  [.comma, .string (units "slot".toList), .colon, .number timeslot,
    .comma, .string (units "type".toList), .colon, .string (units "voice".toList),
    .comma, .string (units "src".toList), .colon, .number lc.srcId.toNat,
    .comma, .string (units "dst".toList), .colon, .number lc.dstId.toNat,
    .comma, .string (units "group".toList), .colon, .bool lc.group, .rbrace]

variable {tokens : List Token} {rest : List Char}

theorem run_field {name : String} (plain : name.toList.all fun c => Unescaped c) :
    run ⟨.outside, tokens⟩ (field name rest) =
      run ⟨.outside, tokens ++ [.string (units name.toList), .colon]⟩ rest := by
  have colon : punctuation? ':' = some .colon := rfl
  rw [field, run_string (List.all_iff_forall_prop.mp plain), run_punctuation colon, List.append_assoc,
    List.singleton_append]

theorem run_groupWord (group : Bool) :
    run ⟨.outside, tokens⟩ (groupWord group ++ '}' :: rest) =
      run ⟨.outside, tokens ++ [.bool group, .rbrace]⟩ rest := by
  have closed : punctuation? '}' = some .rbrace := rfl
  cases group with
  | true =>
    have word : groupWord true = 't' :: "rue".toList := rfl
    have token : bareToken? ('t' :: "rue".toList) = some (.bool true) := rfl
    rw [word, run_bare rfl (List.all_eq_true.mp rfl) rfl, token, Option.bind_some, run_punctuation closed,
      List.append_assoc, List.singleton_append]
  | false =>
    have word : groupWord false = 'f' :: "alse".toList := rfl
    have token : bareToken? ('f' :: "alse".toList) = some (.bool false) := rfl
    rw [word, run_bare rfl (List.all_eq_true.mp rfl) rfl, token, Option.bind_some, run_punctuation closed,
      List.append_assoc, List.singleton_append]

/-- Up to the label, the line is well formed and inside a string. -/
theorem run_head : run ⟨.outside, []⟩ (head (iso8601 tm)) =
    some ⟨.string [], headTokens (iso8601 tm)⟩ := by
  have brace : punctuation? '{' = some .lbrace := rfl
  have comma : punctuation? ',' = some .comma := rfl
  rw [head, run_punctuation brace, run_field rfl, run_string iso8601_unescaped, run_punctuation comma,
    run_field rfl]
  rfl

/-- Behind the label, the line is well formed when the reader is outside a string. -/
theorem run_tail (slot : timeslot = 1 ∨ timeslot = 2) :
    run ⟨.outside, tokens⟩ (tail timeslot lc) = some ⟨.outside, tokens ++ tailTokens timeslot lc⟩ := by
  have comma : punctuation? ',' = some .comma := rfl
  have digits : decimal timeslot = Nat.toDigits 10 timeslot.toNat := by
    rcases slot with rfl | rfl <;> rfl
  have value : ((timeslot.toNat : ℕ) : ℚ) = timeslot := by
    rcases slot with rfl | rfl <;> rfl
  rw [tail, digits, run_punctuation comma, run_field rfl, run_number _ rfl, run_punctuation comma,
    run_field rfl, run_string (List.all_iff_forall_prop.mp rfl), run_punctuation comma, run_field rfl,
    run_number _ rfl, run_punctuation comma, run_field rfl, run_number _ rfl, run_punctuation comma,
    run_field rfl, run_groupWord, value]
  simp only [run, List.foldlM_nil, List.append_assoc, List.cons_append, List.nil_append]
  rfl

/-! ### Reading the line -/

/-- The members have the values that the callback was given. -/
structure Fields (members : List (List ℕ × Value)) (label : CString) (timeslot : ℤ) (lc : LcResult) :
    Prop where
  ch : ∃ text, encode text = label.bytes ∧ get? members "ch".toList = some (.string (units text))
  slot : get? members "slot".toList = some (.number timeslot)
  src : get? members "src".toList = some (.number lc.srcId.toNat)
  dst : get? members "dst".toList = some (.number lc.dstId.toNat)
  group : get? members "group".toList = some (.bool lc.group)

/-- The buffer holds the whole line, and the line is an object with the given values. -/
structure ReadsBack (buffer : List UInt8) (tm : Tm) (label : CString) (timeslot : ℤ) (lc : LcResult) :
    Prop where
  whole : buffer = format voiceFormat (voiceArgs tm label timeslot lc)
  object : ∃ members, Reads buffer (.object members) ∧ Fields members label timeslot lc

/-- The label is UTF-8, and nothing in it would have to be escaped. -/
def Plain (label : CString) : Prop := ∃ text, encode text = label.bytes ∧ ∀ c ∈ text, Unescaped c

/-- The label leaves room for the numbers: 84 of the 319 bytes are taken. -/
def Fits (label : CString) (lc : LcResult) : Prop :=
  label.bytes.length + (Nat.toDigits 10 lc.srcId.toNat).length + (Nat.toDigits 10 lc.dstId.toNat).length +
    (groupWord lc.group).length ≤ 235

instance : Decidable (Fits label lc) := inferInstanceAs (Decidable (_ ≤ _))

/-- The members of a line, in their order. -/
def voiceMembers (ts label : List Char) (timeslot : ℤ) (lc : LcResult) : List (List ℕ × Value) :=
  [(units "ts".toList, .string (units ts)), (units "ch".toList, .string (units label)),
    (units "slot".toList, .number timeslot), (units "type".toList, .string (units "voice".toList)),
    (units "src".toList, .number lc.srcId.toNat), (units "dst".toList, .number lc.dstId.toNat),
    (units "group".toList, .bool lc.group)]

theorem voiceMembers_denoted (ts text : List Char) :
    Denotes (headTokens ts ++ (.string (units text) :: tailTokens timeslot lc))
      (.object (voiceMembers ts text timeslot lc)) :=
  .object (.more _ (.string _) (.more _ (.string _) (.more _ (.number _) (.more _ (.string _)
    (.more _ (.number _) (.more _ (.number _) (.last _ (.bool _))))))))

theorem voiceMembers_fields {ts text : List Char} (spelled : encode text = label.bytes) :
    Fields (voiceMembers ts text timeslot lc) label timeslot lc where
  ch := ⟨text, spelled, rfl⟩
  slot := rfl
  src := rfl
  dst := rfl
  group := rfl

theorem whole_iff (stamp : (iso8601 tm).length = 20) (slot : timeslot = 1 ∨ timeslot = 2) :
    voiceJson tm label timeslot lc = format voiceFormat (voiceArgs tm label timeslot lc) ↔
      Fits label lc := by
  rw [voiceJson, snprintf_whole, length_voice stamp slot, Fits]
  omega

/-- A plain label that fits is read back, with everything else. -/
theorem readsBack_of_plain (stamp : (iso8601 tm).length = 20) (slot : timeslot = 1 ∨ timeslot = 2)
    (plain : Plain label) (fits : Fits label lc) :
    ReadsBack (voiceJson tm label timeslot lc) tm label timeslot lc := by
  obtain ⟨text, spelled, unescaped⟩ := plain
  have whole := (whole_iff stamp slot).mpr fits
  refine ⟨whole, voiceMembers (iso8601 tm) text timeslot lc, ?_, voiceMembers_fields spelled⟩
  have closed : step ⟨.string (units text), headTokens (iso8601 tm)⟩ '"' =
      some ⟨.outside, headTokens (iso8601 tm) ++ [.string (units text)]⟩ := rfl
  refine ⟨head (iso8601 tm) ++ (text ++ '"' :: tail timeslot lc), _, ?_, ?_,
    voiceMembers_denoted (iso8601 tm) text⟩
  · rw [whole, format_voice, encode_append, encode_append, spelled]
  · rw [lex, run_append, run_head, Option.bind_some, run_append, run_unescaped unescaped, List.nil_append,
      Option.bind_some, run_cons, closed, Option.bind_some, run_tail slot, List.append_assoc]
    rfl

theorem headTokens_plain {u : List ℕ} (member : .string u ∈ headTokens (iso8601 tm)) : PlainUnits u := by
  simp only [headTokens, List.mem_cons, Token.string.injEq, reduceCtorEq, false_or, List.not_mem_nil,
    or_false] at member
  rcases member with rfl | rfl | rfl
  · exact plainUnits_units.mpr (List.all_iff_forall_prop.mp rfl)
  · exact plainUnits_units.mpr iso8601_unescaped
  · exact plainUnits_units.mpr (List.all_iff_forall_prop.mp rfl)

theorem tailTokens_plain {u : List ℕ} (member : .string u ∈ tailTokens timeslot lc) : PlainUnits u := by
  simp only [tailTokens, List.mem_cons, Token.string.injEq, reduceCtorEq, false_or, List.not_mem_nil,
    or_false] at member
  rcases member with rfl | rfl | rfl | rfl | rfl | rfl <;> exact plainUnits_units.mpr (List.all_iff_forall_prop.mp rfl)

/-- A label that should have been escaped is no string of the line. -/
theorem label_not_read {text : List Char} (slot : timeslot = 1 ∨ timeslot = 2)
    (escaped : ¬ ∀ c ∈ text, Unescaped c)
    (lexed : lex (head (iso8601 tm) ++ (text ++ '"' :: tail timeslot lc)) = some tokens) :
    .string (units text) ∉ tokens := by
  rw [lex, run_append, run_head, Option.bind_some, run_append] at lexed
  obtain ⟨last, ran, finished⟩ := Option.bind_eq_some_iff.mp lexed
  obtain ⟨next, pasted, ran⟩ := Option.bind_eq_some_iff.mp ran
  have behind := behind_of_pasted (fun _ => headTokens_plain)
    (fun _ member => absurd member List.not_mem_nil) escaped pasted
  rw [List.length_nil, Nat.zero_add] at behind
  by_cases inside : ∃ u, next.mode = .string u
  · obtain ⟨u, inside⟩ := inside
    obtain ⟨mode, before⟩ := next
    subst inside
    have closed : step ⟨.string u, before⟩ '"' = some ⟨.outside, before ++ [.string u]⟩ := rfl
    rw [run_cons, closed, Option.bind_some, run_tail slot] at ran
    cases ran
    cases finished
    have special : ¬ PlainUnits (units text) := fun plain => escaped (plainUnits_units.mp plain)
    intro member
    rcases List.mem_append.mp member with member | later
    · rcases string_mem_snoc member with earlier | here
      · rcases behind.strings _ earlier with plain | short
        · exact special plain
        · exact lt_irrefl _ short
      · have short := behind.pending
        rw [← Token.string.inj here] at short
        exact lt_irrefl _ short
    · exact special (tailTokens_plain later)
  · rw [not_exists] at inside
    have swapped : run next ('"' :: ([','] ++ '"' :: ('s' :: "lot".toList ++ '"' :: ':' ::
        (decimal timeslot ++ ',' :: field "type" ('"' :: ("voice".toList ++ '"' :: ',' ::
          field "src" (Nat.toDigits 10 lc.srcId.toNat ++ ',' :: field "dst" (Nat.toDigits 10 lc.dstId.toNat ++
            ',' :: field "group" (groupWord lc.group ++ ['}'])))))))))  = none :=
      run_misquoted inside (List.all_iff_forall_prop.mp rfl) rfl (List.all_eq_true.mp rfl) rfl rfl
    cases swapped.symm.trans ran

/-- What is read back was written without escaping. -/
theorem plain_of_readsBack (slot : timeslot = 1 ∨ timeslot = 2)
    (read : ReadsBack (voiceJson tm label timeslot lc) tm label timeslot lc) : Plain label := by
  obtain ⟨whole, members, ⟨bytes, tokens, encoded, lexed, denotes⟩, fields⟩ := read
  obtain ⟨text, spelled, found⟩ := fields.ch
  refine ⟨text, spelled, ?_⟩
  by_contra escaped
  rw [whole, format_voice] at encoded
  obtain ⟨middle, rfl, inner⟩ := encode_infix encoded
  obtain rfl := encode_injective (inner.trans spelled.symm)
  exact label_not_read slot escaped lexed (denotes.string_mem found)

/-- The voice branch writes a line that reads back to what it was given exactly
for plain labels that fit. -/
theorem readsBack_iff (stamp : (iso8601 tm).length = 20) (slot : timeslot = 1 ∨ timeslot = 2) :
    ReadsBack (voiceJson tm label timeslot lc) tm label timeslot lc ↔ Plain label ∧ Fits label lc := by
  constructor
  · intro read
    exact ⟨plain_of_readsBack slot read, (whole_iff stamp slot).mp read.whole⟩
  · rintro ⟨plain, fits⟩
    exact readsBack_of_plain stamp slot plain fits

/-- Noon on 1 June 2026. -/
def noon : Tm := { year := 126, mon := 5, mday := 1, hour := 12, min := 0, sec := 0 }

def groupCallLc : LcResult := { valid := true, flco := 0, group := true, srcId := 1234567, dstId := 9001 }

def pmrLabel : CString := .ofAscii "446.006".toList (List.all_iff_forall_prop.mp rfl)

theorem pmr_label_readsBack : ReadsBack (voiceJson noon pmrLabel 1 groupCallLc) noon pmrLabel 1 groupCallLc :=
  (readsBack_iff rfl (.inl rfl)).mpr
    ⟨⟨"446.006".toList, rfl, List.all_iff_forall_prop.mp rfl⟩, by decide⟩

def quotedLabel : CString := .ofAscii "North \"A\"".toList (List.all_iff_forall_prop.mp rfl)

/-- A label with quotation marks spoils the line. -/
theorem quoted_label_spoils : (iso8601 noon).length = 20 ∧ groupCallLc.valid = true ∧
    ¬ReadsBack (voiceJson noon quotedLabel 1 groupCallLc) noon quotedLabel 1 groupCallLc := by
  refine ⟨rfl, rfl, fun read => ?_⟩
  obtain ⟨text, spelled, unescaped⟩ := plain_of_readsBack (.inl rfl) read
  obtain rfl := encode_injective spelled
  exact (unescaped '"' (by decide)).1 rfl

/-! ### Labels that are short enough for any IDs -/

/-- With 24-bit IDs, every label of at most 214 bytes fits. -/
theorem fits_of_short (short : label.bytes.length ≤ 214) (src : lc.srcId.toNat < 2 ^ 24)
    (dst : lc.dstId.toNat < 2 ^ 24) : Fits label lc := by
  have eight {n : ℕ} (bound : n < 2 ^ 24) : (Nat.toDigits 10 n).length ≤ 8 :=
    (Nat.length_toDigits_le_iff (by decide) (by decide)).mpr (bound.trans (by decide))
  have srcDigits := eight src
  have dstDigits := eight dst
  have word : (groupWord lc.group).length ≤ 5 := by
    cases lc.group <;> decide
  rw [Fits]
  omega

/-- Every line that a channel with such a label prints reads back to its event. -/
theorem voiceLine_readsBack {burst : BurstSync.Burst} {line : List UInt8} {F : Type} [IntCast F] [Mul F]
    [Div F] [Neg F] [LT F] [DecidableLT F] [BEq F] (ch : String) (stamp : (iso8601 tm).length = 20)
    (slot : burst.timeslot = 1 ∨ burst.timeslot = 2) (plain : Plain label)
    (short : label.bytes.length ≤ 214) (printed : voiceLine tm label burst = some line) :
    ∃ lc, ReadsBack line tm label burst.timeslot lc ∧
      (Channel.burstEvent ch burst : Option (Channel.Event F)) =
        some (.voice ch burst.timeslot lc.srcId lc.dstId lc.group) := by
  obtain ⟨bits, valid, rfl, event⟩ := voiceLine_event (F := F) ch printed
  obtain ⟨src, dst⟩ := LcParserVoice.parseVoiceLc_ids valid
  exact ⟨_, readsBack_of_plain stamp slot plain (fits_of_short short src dst), event⟩

end DmrWatchkeeper.EventJsonReading
