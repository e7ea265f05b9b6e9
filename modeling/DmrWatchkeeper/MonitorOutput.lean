import DmrWatchkeeper.BurstSyncFraming
import DmrWatchkeeper.EventJsonGps
import DmrWatchkeeper.MonitorEvents

/-! Standard output of the program: `emit` ends every line with a newline, and
no line has one inside, so that a reader that splits the bytes at newlines gets
one JSON object for each event, whatever the order of the threads' steps. -/
namespace DmrWatchkeeper.MonitorOutput
open BurstSync Channel DemodChain EventJson EventJsonGps EventJsonReading FixedPoint Json LcParser Monitor
open MonitorEvents SlotManager Binary64 Printf Utf8
open Channelizer (blockRing blockPairs)

/-- A string as `%s` takes it, up to the first null character. -/
def cString (text : String) : CString where
  bytes := (encode text.toList).takeWhile (· ≠ 0)
  terminated := fun null => by simpa using List.mem_takeWhile_imp null

/-- The line of an event. -/
def eventLine (tm : Tm) : Event Double → List UInt8
  | .voice ch slot src dst group => voiceJson tm (cString ch) slot { group, srcId := src, dstId := dst }
  | .gps ch slot lat lon => gpsJson tm (cString ch) slot lat.value lon.value

/-- What `puts` has written when `emit` was given the lines of these events, the
`n`th of them at the time `stamps n`. -/
def stdout (stamps : ℕ → Tm) (events : List (Event Double)) : List UInt8 :=
  events.zipIdx.flatMap fun e => eventLine (stamps e.2) e.1 ++ [0x0A]

/-- The members of the object that the line of an event is. -/
def eventMembers (tm : Tm) : Event Double → List (List ℕ × Value)
  | .voice ch slot src dst group =>
    voiceMembers (iso8601 tm) ch.toList slot { group, srcId := src, dstId := dst }
  | .gps ch slot lat lon => gpsMembers (iso8601 tm) ch.toList slot lat.value lon.value

variable {tm : Tm} {burst : Burst} {e : Event Double}

/-- The two branches of the callback print the line of the event. -/
theorem eventLine_printed (ch : String) :
    (voiceLine tm (cString ch) burst <|> gpsLine tm (cString ch) burst) =
      (burstEvent ch burst).map (eventLine tm) := by
  simp only [voiceLine, gpsLine, burstEvent]
  by_cases failed : (!(Bptc19696.decode burst.dibits).2) = true
  · simp only [if_pos failed]
    rfl
  · by_cases voice : burst.type = .bsVoice ∨ burst.type = .msVoice
    · have other : ¬(burst.type = .bsData ∨ burst.type = .msData) := by
        rcases voice with voice | voice <;> simp [voice]
      simp only [if_neg failed, if_pos voice, if_neg other]
      split <;> rfl
    · simp only [if_neg failed, if_neg voice]
      split_ifs <;> rfl

/-! ### Events that can be printed -/

/-- What holds of every event that a channel emits. -/
def Sound : Event Double → Prop
  | .voice _ slot src dst _ => (slot = 1 ∨ slot = 2) ∧ src.toNat < 2 ^ 24 ∧ dst.toNat < 2 ^ 24
  | .gps _ slot lat lon => (slot = 1 ∨ slot = 2) ∧ |lat.value| ≤ 90 ∧ |lon.value| ≤ 180

theorem sound_burstEvent {ch : String} (slot : burst.timeslot = 1 ∨ burst.timeslot = 2)
    (emits : burstEvent ch burst = some e) : Sound e := by
  simp only [burstEvent] at emits
  split_ifs at emits with failed voice named data valid
  · cases emits
    have accepted : (parseVoiceLc (Bptc19696.decode burst.dibits).1).valid = true := by simpa using named
    exact ⟨slot, LcParserVoice.parseVoiceLc_ids accepted⟩
  · cases emits
    exact ⟨slot, LcParserDouble.parseGps_bounded valid⟩

/-- ASCII without control characters. -/
def Visible (c : Char) : Prop := 0x20 ≤ c.toNat ∧ c.val ≤ 0x7F

instance (c : Char) : Decidable (Visible c) := inferInstanceAs (Decidable (0x20 ≤ c.toNat ∧ c.val ≤ 0x7F))

theorem visible_bytes {text : List Char} (visible : ∀ c ∈ text, Visible c) : ∀ b ∈ encode text, 0x20 ≤ b.toNat := by
  rw [encode_ascii fun c member => (visible c member).2]
  intro b member
  obtain ⟨c, inside, rfl⟩ := List.mem_map.mp member
  obtain ⟨low, high⟩ := visible c inside
  rw [UInt32.le_iff_toNat_le] at high
  have small : c.val.toNat < 2 ^ 8 := lt_of_le_of_lt high (by decide)
  rwa [UInt32.toNat_toUInt8, Nat.mod_eq_of_lt small]

/-- A label that can be pasted into any line. -/
def Legible (label : String) : Prop :=
  (label.toList.all fun c => Unescaped c ∧ Visible c) ∧ label.toList.length ≤ 214

instance (label : String) : Decidable (Legible label) :=
  inferInstanceAs (Decidable ((label.toList.all fun c => Unescaped c ∧ Visible c) = true ∧ _ ≤ _))

theorem Legible.chars {label : String} (legible : Legible label) :
    (∀ c ∈ label.toList, Unescaped c) ∧ ∀ c ∈ label.toList, Visible c :=
  ⟨fun c member => (List.all_iff_forall_prop.mp legible.1 c member).1,
    fun c member => (List.all_iff_forall_prop.mp legible.1 c member).2⟩

theorem cString_bytes {label : String} (legible : Legible label) : (cString label).bytes = encode label.toList := by
  refine List.takeWhile_eq_self_iff.mpr fun b member => decide_eq_true ?_
  rintro rfl
  exact absurd (visible_bytes legible.chars.2 0 member) (by decide)

theorem cString_length {label : String} (legible : Legible label) : (cString label).bytes.length ≤ 214 := by
  rw [cString_bytes legible, length_encode_ascii fun c member => (legible.chars.2 c member).2]
  exact legible.2

theorem digit_visible {c : Char} (digit : c.isDigit) : Visible c :=
  ⟨(digit_unescaped digit).2.2, (digit_ascii digit).2⟩

theorem iso8601_visible : ∀ c ∈ iso8601 tm, Visible c := fun c member =>
  ⟨(iso8601_unescaped c member).2.2, (iso8601_ascii member).2⟩

theorem decimal_visible (i : ℤ) : ∀ c ∈ decimal i, Visible c := by
  intro c member
  rcases decimal_mem member with digit | rfl
  · exact digit_visible digit
  · decide

theorem fixedPoint_visible (x : ℚ) : ∀ c ∈ fixedPoint 6 x, Visible c := by
  intro c member
  rcases fixedPoint_mem member with digit | rfl | rfl
  · exact digit_visible digit
  · decide
  · decide

theorem text_visible {text : List Char} (plain : text.all fun c => Visible c) :
    ∀ b ∈ encode text, 0x20 ≤ b.toNat :=
  visible_bytes (List.all_iff_forall_prop.mp plain)

theorem voice_visible {label : CString} {timeslot : ℤ} {lc : LcResult}
    (named : ∀ b ∈ label.bytes, 0x20 ≤ b.toNat) : ∀ b ∈ voiceJson tm label timeslot lc, 0x20 ≤ b.toNat := by
  have grouped : ∀ b ∈ (groupText lc.group).bytes, 0x20 ≤ b.toNat := by
    cases lc.group <;> exact text_visible rfl
  have digits (n : ℕ) : ∀ b ∈ encode (Nat.toDigits 10 n), 0x20 ≤ b.toNat :=
    visible_bytes fun c member => digit_visible (isDigit_of_mem member)
  have whole : ∀ b ∈ Printf.format voiceFormat (voiceArgs tm label timeslot lc), 0x20 ≤ b.toNat := by
    rw [format_pieces]
    simp only [List.forall_mem_append]
    exact ⟨text_visible rfl, visible_bytes iso8601_visible, text_visible rfl, named, text_visible rfl,
      visible_bytes (decimal_visible _), text_visible rfl, digits _, text_visible rfl, digits _,
      text_visible rfl, grouped, text_visible rfl⟩
  exact fun b member => whole b (List.mem_of_mem_take member)

theorem gps_visible {label : CString} {timeslot : ℤ} {lat lon : ℚ}
    (named : ∀ b ∈ label.bytes, 0x20 ≤ b.toNat) :
    ∀ b ∈ gpsJson tm label timeslot lat lon, 0x20 ≤ b.toNat := by
  have whole : ∀ b ∈ FixedPoint.format gpsFormat (gpsArgs tm label timeslot lat lon), 0x20 ≤ b.toNat := by
    rw [gps_pieces]
    simp only [List.forall_mem_append]
    exact ⟨text_visible rfl, visible_bytes iso8601_visible, text_visible rfl, named, text_visible rfl,
      visible_bytes (decimal_visible _), text_visible rfl, visible_bytes (fixedPoint_visible _),
      text_visible rfl, visible_bytes (fixedPoint_visible _), text_visible rfl⟩
  exact fun b member => whole b (List.mem_of_mem_take member)

/-- No line has a control character in it, not even where it is cut off. -/
theorem eventLine_visible (legible : Legible (eventChannel e)) : ∀ b ∈ eventLine tm e, 0x20 ≤ b.toNat := by
  have named := visible_bytes legible.chars.2
  rw [← cString_bytes legible] at named
  cases e with
  | voice => exact voice_visible named
  | gps => exact gps_visible named

/-! ### Reading a line -/

theorem eventLine_reads (stamp : (iso8601 tm).length = 20) (legible : Legible (eventChannel e))
    (sound : Sound e) : Reads (eventLine tm e) (.object (eventMembers tm e)) := by
  have spelled := (cString_bytes legible).symm
  have short := cString_length legible
  cases e with
  | voice ch slot src dst group =>
    obtain ⟨slotted, source, destination⟩ := sound
    have fits : Fits (cString ch) { group, srcId := src, dstId := dst } := fits_of_short short source destination
    have whole := (whole_iff stamp slotted).mpr fits
    rw [eventLine, whole, format_voice]
    exact pasted_reads spelled legible.chars.1 (fun _ => run_tail slotted) (voiceMembers_denoted _ _)
  | gps ch slot lat lon =>
    obtain ⟨slotted, north, east⟩ := sound
    exact gpsJson_reads slotted spelled legible.chars.1
      (gps_room stamp slotted (short.trans (by decide)) north east)

/-! ### Standard output -/

/-- Lines without newlines are found again by splitting at newlines. -/
theorem split_lines {lines : List (List UInt8)} (visible : ∀ line ∈ lines, 0x0A ∉ line) :
    (lines.flatMap fun line => line ++ [0x0A]).splitOn 0x0A = lines ++ [[]] := by
  induction lines with
  | nil => rfl
  | cons line lines ih =>
    obtain ⟨here, later⟩ := List.forall_mem_cons.mp visible
    rw [List.flatMap_cons, List.append_assoc, List.singleton_append,
      List.splitOn_append_cons_self_of_not_mem here, ih later, List.cons_append]

/-- What a reader gets from the lines of events, each at its time. -/
theorem stdout_split {stamps : ℕ → Tm} (clock : ∀ n, (iso8601 (stamps n)).length = 20)
    {events : List (Event Double)} (legible : ∀ e ∈ events, Legible (eventChannel e))
    (sound : ∀ e ∈ events, Sound e) :
    ∃ lines, (stdout stamps events).splitOn 0x0A = lines ++ [[]] ∧
      List.Forall₂ (fun line e => Reads line (.object (eventMembers (stamps e.2) e.1))) lines events.zipIdx := by
  have listed : ∀ e ∈ events.zipIdx, e.1 ∈ events := fun e member => List.fst_mem_of_mem_zipIdx member
  refine ⟨events.zipIdx.map fun e => eventLine (stamps e.2) e.1, ?_, ?_⟩
  · rw [← split_lines, List.flatMap_map]
    · rfl
    · intro line member newline
      obtain ⟨e, here, rfl⟩ := List.mem_map.mp member
      exact absurd (eventLine_visible (legible e.1 (listed e here)) 0x0A newline) (by decide)
  · rw [List.forall₂_map_left_iff, List.forall₂_same]
    exact fun e here => eventLine_reads (clock e.2) (legible e.1 (listed e here)) (sound e.1 (listed e here))

/-! ### What channels emit -/

/-- The timeslot of a burst. -/
def Slotted (burst : Burst) : Prop := burst.timeslot = 1 ∨ burst.timeslot = 2

theorem pushDibit_slotted (s : BurstSync) (dibit : UInt8) (held : Slotted s.current) :
    Slotted (pushDibit s dibit).1.current ∧ ∀ burst ∈ (pushDibit s dibit).2, Slotted burst := by
  cases phase : s.state with
  | hunting =>
    have next : pushDibit s dibit = ((s.record (dibit &&& 0x03)).hunt, none) := by
      simp only [pushDibit, phase]
    rw [next]
    refine ⟨?_, fun burst handed => absurd handed (Option.not_mem_none burst)⟩
    simp only [hunt]
    split
    · exact BurstSyncFraming.timeslotOf_valid s.tsToggle
    · exact held
  | collecting =>
    have next : pushDibit s dibit = (s.record (dibit &&& 0x03)).collect (dibit &&& 0x03) := by
      simp only [pushDibit, phase]
    rw [next]
    simp only [collect]
    split_ifs
    · exact ⟨held, fun burst handed => Option.some.inj handed ▸ held⟩
    · exact ⟨held, fun burst handed => Option.some.inj handed ▸ held⟩
    · exact ⟨held, fun burst handed => absurd handed (Option.not_mem_none burst)⟩
    · exact ⟨held, fun burst handed => absurd handed (Option.not_mem_none burst)⟩

theorem mem_of_mapM_ok {α β : Type} {f : α → Except String β} {xs : List α} {ys : List β} {y : β}
    (made : xs.mapM f = .ok ys) (member : y ∈ ys) : ∃ x ∈ xs, f x = .ok y := by
  induction xs generalizing ys with
  | nil =>
    cases made
    cases member
  | cons x xs ih =>
    rw [List.mapM_cons] at made
    cases first : f x with
    | error _ =>
      rw [first] at made
      cases made
    | ok b =>
      cases others : xs.mapM f with
      | error _ =>
        rw [first, others] at made
        cases made
      | ok bs =>
        rw [first, others] at made
        cases made
        rcases List.mem_cons.mp member with rfl | later
        · exact ⟨x, List.mem_cons_self, first⟩
        · obtain ⟨x', listed, done⟩ := ih others later
          exact ⟨x', List.mem_cons_of_mem _ listed, done⟩

theorem init_slotted {F : Type} [OfScientific F] [Add F] [Sub F] [Mul F] [Div F] [Neg F] [IntCast F]
    [FloatLib F] {cfg : DemodChain.Config F} {chain : DemodChain F} (made : DemodChain.init cfg = .ok chain) :
    Slotted chain.burstSync.current := by
  rw [DemodChain.init] at made
  cases filter : ChannelFilter.init cfg.filterConfig with
  | error _ =>
    rw [filter] at made
    cases made
  | ok _ =>
    rw [filter] at made
    cases made
    exact .inl rfl

theorem channelTable_legible {F : Type} [OfScientific F] {c : ChannelDef F} (listed : c ∈ channelTable) :
    Legible c.label := by
  have labels : ∀ label ∈ ["446.006", "446.019", "446.031", "446.044", "446.056", "446.069", "446.081", "446.094",
      "446.106", "446.119", "446.131", "446.144", "446.156", "446.169", "446.181", "446.194"], Legible label :=
    List.all_iff_forall_prop.mp rfl
  exact labels c.label (List.mem_map_of_mem (f := ChannelDef.label) listed)

variable {F : Type} [OfScientific F] [Add F] [Sub F] [Mul F] [Div F] [Neg F] [IntCast F] [LT F] [LE F]
  [DecidableLT F] [DecidableLE F] [CastToInt F] [FloatLib F] {chain : DemodChain F}

omit [Neg F] in
/-- Whatever pairs a chain is given, its bursts are in one of the two timeslots. -/
theorem outputs_slotted (new : Slotted chain.burstSync.current) {pairs : List (UInt8 × UInt8)} {ev : SlotEvent}
    (member : ev ∈ Stage.outputs pairStep chain.carried pairs) : Slotted ev.burst := by
  simp only [carried, wired, pairStep, wiredStep, Stage.outputs_cascade] at member
  have framed (dibits : List UInt8) : ∀ burst ∈ Stage.outputs pushDibit chain.burstSync dibits, Slotted burst :=
    (Stage.run_keeps pushDibit (I := fun s => Slotted s.current) (Q := fun _ => True)
      (fun s dibit held _ => pushDibit_slotted s dibit held) new fun _ _ => trivial).2
  exact (Stage.run_keeps notify (I := fun _ => True) (Q := Slotted) (P := fun ev => Slotted ev.burst)
    (fun m burst _ slotted => ⟨trivial, fun ev handed => Option.some.inj handed ▸ slotted⟩) trivial
    (framed _)).2 ev member

omit [LT F] [LE F] [DecidableLT F] [DecidableLE F] [CastToInt F] in
/-- No chain of `main` has begun a burst. -/
theorem newChains_slotted {chains : List (DemodChain F)} (built : newChains = .ok chains) :
    ∀ chain ∈ chains, Slotted chain.burstSync.current := by
  intro chain listed
  obtain ⟨c, -, made⟩ := mem_of_mapM_ok built listed
  exact init_slotted made

omit [Neg F] in
/-- Every event comes from a chain, for pairs that it was given. -/
theorem emitted_origin {chains : List (DemodChain F)} {s : Monitor F Double} (tracks : Tracks chains s)
    (member : e ∈ s.emitted) : ∃ chain ∈ chains, eventChannel e = chain.cfg.label ∧
      ∃ pairs, e ∈ (directEvents chain pairs : List (Event Double)) := by
  obtain ⟨chain, listed, named⟩ := tracks.named e member
  obtain ⟨i, here⟩ := List.mem_iff_getElem?.mp listed
  obtain ⟨now, inbox, -, -, demodulated⟩ := tracks.demodulated i chain here
  have own : e ∈ s.emitted.filter (eventChannel · = chain.cfg.label) :=
    List.mem_filter.mpr ⟨member, decide_eq_true named⟩
  exact ⟨chain, listed, named, inboxPairs inbox, demodulated.events ▸ own⟩

/-- In every order of the threads' memory accesses, deliveries and signals, what
the program has written to standard output is one line for each event, in the
order of the events, and every line is read as the object of its event. -/
theorem stdout_reads {chains : List (DemodChain F)} (built : newChains = .ok chains) (r : RingBuffer)
    (turns : List Monitor.Turn) {s : Monitor F Double} (reached : turns.foldl Monitor.step (start r chains) = s)
    {stamps : ℕ → Tm} (clock : ∀ n, (iso8601 (stamps n)).length = 20) :
    ∃ lines, (stdout stamps s.emitted).splitOn 0x0A = lines ++ [[]] ∧
      List.Forall₂ (fun line e => Reads line (.object (eventMembers (stamps e.2) e.1))) lines
        s.emitted.zipIdx := by
  obtain ⟨chains', built', labels, distinct⟩ := newChains_built (F := F)
  obtain rfl : chains = chains' := Except.ok.inj (built.symm.trans built')
  have tracks : Tracks chains s := reached ▸ (start_tracks r chains).run distinct turns
  refine stdout_split clock (fun e member => ?_) fun e member => ?_
  · obtain ⟨chain, listed, named, -⟩ := emitted_origin tracks member
    have label : chain.cfg.label ∈ (channelTable : List (ChannelDef F)).map ChannelDef.label :=
      labels ▸ List.mem_map_of_mem listed
    obtain ⟨c, tabled, same⟩ := List.mem_map.mp label
    rw [named, ← same]
    exact channelTable_legible tabled
  · obtain ⟨chain, listed, -, pairs, direct⟩ := emitted_origin tracks member
    rw [directEvents_eq] at direct
    obtain ⟨ev, reported, emits⟩ := List.mem_filterMap.mp direct
    exact sound_burstEvent (outputs_slotted (newChains_slotted built chain listed) reported) emits

theorem stdout_reads_main : ∃ chains : List (DemodChain Float32), newChains = .ok chains ∧
    ∃ s : Monitor Float32 Double, (firstTurns chains.length).foldl Monitor.step (start blockRing chains) = s ∧
      s.system.chains = List.replicate chains.length [PairedStream.interleave ((List.range blockPairs).map ramp)] ∧
      ∃ lines, (stdout (fun _ => noon) s.emitted).splitOn 0x0A = lines ++ [[]] ∧
        List.Forall₂ (fun line e => Reads line (.object (eventMembers noon e.1))) lines s.emitted.zipIdx := by
  obtain ⟨chains, built, -, -⟩ := newChains_built (F := Float32)
  have clock : ∀ n : ℕ, (iso8601 ((fun _ => noon) n)).length = 20 :=
    fun _ => show (iso8601 noon).length = 20 from rfl
  obtain ⟨-, -, inboxes, -⟩ := firstTurns_system (D := Double) chains
  exact ⟨chains, built, _, rfl, inboxes,
    stdout_reads built blockRing (firstTurns chains.length) rfl clock⟩

end DmrWatchkeeper.MonitorOutput
