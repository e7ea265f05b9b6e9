import DmrWatchkeeper.BptcNoise
import DmrWatchkeeper.BurstSyncFraming

/-! What a channel makes of noise: how many of all dibit streams there are behind
any start that bring a voice event at a position, and so how many voice events
noise brings on average. -/
namespace DmrWatchkeeper.ChannelNoise
open Bptc19696 BptcNoise BurstSync BurstSyncTracking BurstSyncFraming SyncWords StreamWindow Counting LcParser

/-- A dibit as it is pushed. -/
def byte (d : Fin 4) : UInt8 := UInt8.ofNat d

def dibitsOf {N : ℕ} (noise : Fin N → Fin 4) : List UInt8 := List.ofFn fun i => byte (noise i)

theorem byte_toNat (d : Fin 4) : (byte d).toNat = d := by
  revert d
  decide

theorem byte_small (d : Fin 4) : (byte d).toNat < 4 := by
  rw [byte_toNat]
  exact d.isLt

theorem byte_masked (d : Fin 4) : byte d &&& 0x03 = byte d := and_three_of_lt (byte_small d)

theorem dibitsOf_small {N : ℕ} (noise : Fin N → Fin 4) : ∀ d ∈ dibitsOf noise, d.toNat < 4 := by
  intro d member
  obtain ⟨i, rfl⟩ := (List.mem_ofFn' _ _).mp member
  exact byte_small _

theorem length_dibitsOf {N : ℕ} (noise : Fin N → Fin 4) : (dibitsOf noise).length = N := List.length_ofFn

/-! ### Sync words -/

theorem packNat_inj {xs ys : List UInt8} (length : xs.length = ys.length) (small : ∀ d ∈ xs, d.toNat < 4)
    (small' : ∀ d ∈ ys, d.toNat < 4) (same : packNat xs = packNat ys) : xs = ys := by
  induction xs generalizing ys with
  | nil => exact (List.length_eq_zero_iff.mp length.symm).symm
  | cons d xs ih =>
    obtain _ | ⟨e, ys⟩ := ys
    · cases length
    have length' : xs.length = ys.length := Nat.succ.inj length
    have rest : ∀ d ∈ xs, d.toNat < 4 := fun d member => small d (List.mem_cons_of_mem _ member)
    have rest' : ∀ d ∈ ys, d.toNat < 4 := fun d member => small' d (List.mem_cons_of_mem _ member)
    have low := packNat_lt xs rest
    have low' := packNat_lt ys rest'
    rw [packNat_cons, packNat_cons, length'] at same
    rw [length'] at low
    have first : d.toNat = e.toNat := by
      have quotient := congrArg (· / 4 ^ ys.length) same
      simpa [Nat.mul_add_div, Nat.div_eq_of_lt low, Nat.div_eq_of_lt low', Nat.mul_comm _ (4 ^ ys.length)]
        using quotient
    rw [first, Nat.add_left_cancel_iff] at same
    rw [UInt8.toNat_inj.mp first, ih length' rest rest' same]

/-- The sync register behind 24 dibits. -/
def syncOf (sync : Fin 24 → Fin 4) : UInt64 := packWord (dibitsOf sync)

theorem syncOf_toNat (sync : Fin 24 → Fin 4) : (syncOf sync).toNat = packNat (dibitsOf sync) ∧
    packNat (dibitsOf sync) < 2 ^ 48 := by
  have bound := packNat_lt _ (dibitsOf_small sync)
  rw [length_dibitsOf] at bound
  have small : packNat (dibitsOf sync) < 2 ^ 48 := bound
  exact ⟨Nat.mod_eq_of_lt (small.trans (by decide)), small⟩

theorem low48_syncOf_bijective : Function.Bijective fun sync => low48 (syncOf sync) := by
  refine (Nat.bijective_iff_injective_and_card _).mpr ⟨fun sync sync' same => ?_, ?_⟩
  · obtain ⟨value, small⟩ := syncOf_toNat sync
    obtain ⟨value', small'⟩ := syncOf_toNat sync'
    have numbers : packNat (dibitsOf sync) = packNat (dibitsOf sync') := by
      refine Nat.eq_of_testBit_eq fun i => ?_
      by_cases low : i < 48
      · have bit : low48 (syncOf sync) ⟨i, low⟩ = low48 (syncOf sync') ⟨i, low⟩ := congrFun same _
        rwa [low48, low48, value, value'] at bit
      · have high : 2 ^ 48 ≤ 2 ^ i := Nat.pow_le_pow_right (by decide) (by omega)
        rw [Nat.testBit_lt_two_pow (small.trans_le high), Nat.testBit_lt_two_pow (small'.trans_le high)]
    have lists := packNat_inj ((length_dibitsOf sync).trans (length_dibitsOf sync').symm) (dibitsOf_small sync)
      (dibitsOf_small sync') numbers
    funext i
    have entry := congrFun (List.ofFn_injective lists) i
    rw [← Fin.val_inj, ← byte_toNat, entry, byte_toNat]
  · rw [Nat.card_fun, Nat.card_fun]
    simp

/-- A sync word is taken for each from this many of the `4 ^ 24` dibit sequences. -/
theorem card_near (pattern : UInt64) : Nat.card {sync // Near (syncOf sync) pattern} = 213053 := by
  have words : {sync // Near (syncOf sync) pattern} ≃ {w // hammingDist w (low48 pattern) ≤ kMaxErrors} :=
    (Equiv.ofBijective _ low48_syncOf_bijective).subtypeEquiv fun sync => Iff.rfl
  rw [Nat.card_congr words, card_ball, Fintype.card_fin, kMaxErrors]
  norm_num [Finset.sum_range_succ, Nat.choose]

def IsVoice (type : BurstType) : Prop := type = .bsVoice ∨ type = .msVoice

theorem card_voice_sync : Nat.card {sync // IsVoice (matchSync (syncOf sync))} = 426106 := by
  have base : (kSyncBsVoice, BurstType.bsVoice) ∈ syncTable := by decide
  have mobile : (kSyncMsVoice, BurstType.msVoice) ∈ syncTable := by decide
  have parts : {sync | IsVoice (matchSync (syncOf sync))} =
      {sync | Near (syncOf sync) kSyncBsVoice} ∪ {sync | Near (syncOf sync) kSyncMsVoice} := by
    ext sync
    exact or_congr (matchSync_iff_near base _) (matchSync_iff_near mobile _)
  have apart : Disjoint {sync | Near (syncOf sync) kSyncBsVoice} {sync | Near (syncOf sync) kSyncMsVoice} :=
    Set.disjoint_left.mpr fun sync near close => absurd (near_unique base near mobile close) (by decide)
  have total := congrArg Set.ncard parts
  rw [Set.ncard_union_eq apart, ← Nat.card_coe_set_eq, ← Nat.card_coe_set_eq, ← Nat.card_coe_set_eq] at total
  exact total.trans (congrArg₂ (· + ·) (card_near _) (card_near _))

/-! ### Bursts -/

/-- A call is read from the payload. -/
def CarriesCall (dibits : Vector UInt8 98) : Prop :=
  (decode dibits).2 = true ∧ (parseVoiceLc (decode dibits).1).valid = true

/-- The layer-2 callback makes a voice event of the burst. -/
def ReportsVoice (burst : Burst) : Prop := IsVoice burst.type ∧ CarriesCall burst.dibits

/-- A payload of 98 dibits. -/
def payloadOf (dibits : Fin 98 → Fin 4) : Payload :=
  ⟨Vector.ofFn fun i => byte (dibits i), fun i => by
    rw [Fin.getElem_fin, Vector.getElem_ofFn]
    exact byte_small _⟩

theorem payloadOf_bijective : Function.Bijective payloadOf := by
  constructor
  · intro dibits dibits' same
    funext i
    have entry := congrArg (fun p : Payload => (getElem p.1 i (dibit_lt i)).toNat) same
    simp only [payloadOf, Fin.getElem_fin, Vector.getElem_ofFn, byte_toNat] at entry
    exact Fin.ext entry
  · intro p
    refine ⟨fun i => ⟨(getElem p.1 i (dibit_lt i)).toNat, p.2 i⟩, Subtype.ext (Vector.ext fun i bound => ?_)⟩
    rw [payloadOf, Vector.getElem_ofFn, ← UInt8.toNat_inj, byte_toNat]
    rfl

/-- A stretch of 122 dibits, taken apart into payload and sync word. -/
abbrev Stretch := Fin 98 ⊕ Fin 24 → Fin 4

/-- The burst of a stretch gives a voice event. -/
def StretchReports (g : Stretch) : Prop :=
  IsVoice (matchSync (syncOf (g ∘ Sum.inr))) ∧ CarriesCall (payloadOf (g ∘ Sum.inl)).1

theorem card_stretch : Nat.card {g // StretchReports g} = 426106 * (2 ^ 83 * (2 ^ 48 - 1) * 14 ^ 15) := by
  have swapped : {g // StretchReports g} ≃ {x : (Fin 24 → Fin 4) × (Fin 98 → Fin 4) //
      IsVoice (matchSync (syncOf x.1)) ∧ CarriesCall (payloadOf x.2).1} :=
    ((Equiv.sumArrowEquivProdArrow _ _ _).trans (Equiv.prodComm _ _)).subtypeEquiv fun g => Iff.rfl
  have apart := swapped.trans (Equiv.subtypeProdEquivProd (p := fun sync => IsVoice (matchSync (syncOf sync)))
    (q := fun dibits => CarriesCall (payloadOf dibits).1))
  have payloads : {dibits // CarriesCall (payloadOf dibits).1} ≃ {p : Payload // CarriesCall p.1} :=
    (Equiv.ofBijective _ payloadOf_bijective).subtypeEquiv fun dibits => Iff.rfl
  have read : Nat.card {p : Payload // CarriesCall p.1} = _ := card_read fun m => (parseVoiceLc m).valid = true
  rw [card_valid] at read
  rw [Nat.card_congr apart, Nat.card_prod, card_voice_sync, Nat.card_congr payloads, read]
  norm_num

/-! ### Positions in a stream -/

section Stream
variable {N q : ℕ}

/-- The places of payload and sync word in the noise. -/
def stretchAt (inside : q + 122 ≤ N) : Fin 98 ⊕ Fin 24 → Fin N
  | .inl i => if i.val < 49 then ⟨q + i, by omega⟩ else ⟨q + i + 24, by omega⟩
  | .inr k => ⟨q + 49 + k, by omega⟩

theorem stretchAt_injective (inside : q + 122 ≤ N) : Function.Injective (stretchAt inside) := by
  have value : ∀ j, (stretchAt inside j).val = match j with
      | .inl i => if i.val < 49 then q + i else q + i + 24
      | .inr k => q + 49 + k := by
    rintro (i | k)
    · simp only [stretchAt]
      split <;> rfl
    · rfl
  rintro (i | k) (j | l) same <;> have places := congrArg Fin.val same <;> simp only [value] at places
  · congr 1
    ext
    split_ifs at places <;> omega
  · split_ifs at places <;> omega
  · split_ifs at places <;> omega
  · congr 1
    ext
    omega

/-- The stream of noise behind a start. -/
def streamOf (before : List UInt8) (noise : Fin N → Fin 4) : ℤ → UInt8 := dibitAt (before ++ dibitsOf noise)

theorem streamOf_noise (before : List UInt8) (noise : Fin N → Fin 4) (j : Fin N) :
    streamOf before noise (before.length + 1 + j) = byte (noise j) := by
  have feeds := feeds_dibitAt before (dibitsOf noise) [] (by rw [List.append_nil] : before ++ dibitsOf noise = _)
  have entry := feeds j (by rw [List.length_map, length_dibitsOf]; exact j.isLt)
  rw [streamOf, entry, List.getElem_map]
  simp only [dibitsOf, List.getElem_ofFn, byte_masked, Fin.eta]

/-- The burst whose 122 dibits start behind `q` dibits of noise. -/
theorem burstAt_stretch (before : List UInt8) (noise : Fin N → Fin 4) (inside : q + 122 ≤ N) (channel toggle : ℤ) :
    ReportsVoice (burstAt (streamOf before noise) (before.length + q + 73) channel toggle) ↔
      StretchReports (noise ∘ stretchAt inside) := by
  have word : syncWord (streamOf before noise) (before.length + q + 73) =
      syncOf ((noise ∘ stretchAt inside) ∘ Sum.inr) := by
    rw [syncWord, syncOf]
    congr 1
    refine List.ext_getElem (by rw [length_window, length_dibitsOf]) fun k bound _ => ?_
    rw [length_window] at bound
    have place : (before.length : ℤ) + q + 73 - (24 : ℕ) + 1 + k = before.length + 1 + (q + 49 + k : ℕ) := by omega
    rw [getElem_window, place, streamOf_noise before noise ⟨q + 49 + k, by omega⟩]
    simp only [dibitsOf, List.getElem_ofFn]
    rfl
  have payload : (burstAt (streamOf before noise) (before.length + q + 73) channel toggle).dibits =
      (payloadOf ((noise ∘ stretchAt inside) ∘ Sum.inl)).1 := by
    refine Vector.ext fun i bound => ?_
    rw [burstAt, payloadOf, Vector.getElem_ofFn, Vector.getElem_ofFn]
    by_cases first : i < 49
    · have place : (before.length : ℤ) + q + 73 - 72 + i = before.length + 1 + (q + i : ℕ) := by omega
      have early : (⟨i, bound⟩ : Fin 98) < 49 := first
      simp only [if_pos early, place, Function.comp_apply, stretchAt, if_pos first]
      exact streamOf_noise before noise ⟨q + i, by omega⟩
    · have place : (before.length : ℤ) + q + 73 + 1 + (i - 49) = before.length + 1 + (q + i + 24 : ℕ) := by omega
      have late : ¬ (⟨i, bound⟩ : Fin 98) < 49 := first
      simp only [if_neg late, place, Function.comp_apply, stretchAt, if_neg first]
      exact streamOf_noise before noise ⟨q + i + 24, by omega⟩
  rw [ReportsVoice, StretchReports, payload, ← word]
  rfl

/-- Whatever came before, the same number of noises bring a call at a position. -/
theorem card_reports (before : List UInt8) (inside : q + 122 ≤ N) (channel toggle : ℤ) :
    Nat.card {noise : Fin N → Fin 4 //
        ReportsVoice (burstAt (streamOf before noise) (before.length + q + 73) channel toggle)} =
      426106 * (2 ^ 83 * (2 ^ 48 - 1) * 14 ^ 15) * 4 ^ (N - 122) := by
  have read := card_reading (D := Fin 4) (stretchAt_injective inside) StretchReports
  rw [card_stretch, Fintype.card_sum, Fintype.card_fin, Fintype.card_fin, Fintype.card_fin, Nat.card_eq_fintype_card
    (α := Fin 4), Fintype.card_fin] at read
  rw [← read]
  exact Nat.card_congr (Equiv.subtypeEquivRight fun noise => burstAt_stretch before noise inside channel toggle)

end Stream

/-! ### Runs -/

section Runs
open Channel
variable {F : Type} [IntCast F] [Mul F] [Div F] [Neg F] [LT F] [DecidableLT F] [BEq F]
variable {x : ℤ → UInt8} {n channel : ℤ} {s : BurstSync} {b : UInt8} {burst : Burst} {N : ℕ}

def isVoiceEvent : Event F → Bool
  | .voice .. => true
  | .gps .. => false

/-- What a synchroniser hands over is in the stream, 59 dibits back. -/
theorem handed_burst (small : ∀ i, (x i).toNat < 4) (held : Tracked x channel n s) (next : x (n + 1) = b &&& 0x03)
    (out : (pushDibit s b).2 = some burst) : ∃ m, burst = burstAt x (n + 1 - 59) channel m := by
  rcases held with ⟨m, hunting⟩ | ⟨p, c, m, rfl, collecting⟩
  · by_cases silent : matchSync (syncWord x (n + 1)) = .unknown
    · exact absurd ((hunting.quiet small next silent).1.symm.trans out) (by simp)
    · exact absurd ((hunting.matched small next silent).1.symm.trans out) (by simp)
  · have unfinished := collecting.unfinished
    by_cases room : c + 1 < 59
    · exact absurd ((collecting.more small next room).1.symm.trans out) (by simp)
    · have last := (collecting.last small next (by omega)).1
      have place : p + c + 1 - 59 = p := by omega
      rw [out, Option.some.injEq] at last
      exact ⟨m, by rw [place, last]⟩

theorem reports_of_voice {chLabel : String} {e : Event F} (reported : burstEvent chLabel burst = some e)
    (voice : isVoiceEvent e = true) : ReportsVoice burst := by
  by_cases kind : burst.type = .bsVoice ∨ burst.type = .msVoice
  · obtain ⟨accepted, valid, -⟩ := (burstEvent_voice_iff chLabel kind e).mp reported
    exact ⟨kind, accepted, valid⟩
  · simp only [burstEvent, if_neg kind] at reported
    split_ifs at reported
    rw [← Option.some.inj reported] at voice
    cases voice

/-- Each voice event comes from a burst of the stream. -/
theorem emitted_reports (chLabel : String) (channel : ℤ) (before : List UInt8) (noise : Fin N → Fin 4) {n : ℕ}
    {e : Event F} (member : (n, e) ∈ Stage.emitted (step chLabel) before.length
      (Stage.after (step (F := F) chLabel) (Channel.init channel) before) (dibitsOf noise)) (voice : isVoiceEvent e = true) :
    ReportsVoice (burstAt (streamOf before noise) (n - 59) channel 0) := by
  obtain ⟨front, d, back, parts, position, emits⟩ := Stage.exists_step_of_mem_emitted _ member
  rw [← Stage.after_append, step, Channel.init, Stage.after_cascade] at emits
  have stream : streamOf before noise = dibitAt (before ++ front ++ d :: back) := by
    rw [streamOf, parts, List.append_assoc]
  have tracked := tracked_after channel (before ++ front) (d :: back)
  have next := (feeds_cons.mp (feeds_dibitAt (before ++ front) (d :: back) [] (by rw [List.append_nil]))).1
  rw [← stream] at tracked next
  cases out : (pushDibit (Stage.after pushDibit (BurstSync.init channel) (before ++ front)) d).2 with
  | none =>
    rw [Stage.cascade_quiet _ out] at emits
    cases emits
  | some burst =>
    rw [Stage.cascade_called _ out] at emits
    have reported : burstEvent chLabel burst = some e := (slotStage_event chLabel _ burst).symm.trans emits
    obtain ⟨m, rfl⟩ := handed_burst (dibitAt_lt _) tracked next out
    have place : ((before ++ front).length : ℤ) + 1 - 59 = n - 59 := by
      rw [List.length_append]
      omega
    rw [place] at reported
    obtain ⟨type, call⟩ := reports_of_voice reported voice
    exact ⟨type, call⟩

/-- The events that a channel makes of noise behind a start, with their positions. -/
def noiseEvents (F : Type) [IntCast F] [Mul F] [Div F] [Neg F] [LT F] [DecidableLT F] [BEq F] (chLabel : String)
    (channel : ℤ) (before : List UInt8) (noise : Fin N → Fin 4) : List (ℕ × Event F) :=
  Stage.emitted (step chLabel) before.length (Stage.after (step (F := F) chLabel) (Channel.init channel) before)
    (dibitsOf noise)

/-- A voice event with its whole burst behind the start. -/
def falseVoice (start : ℕ) (call : ℕ × Event F) : Bool := start + 131 < call.1 && isVoiceEvent call.2

open Classical in
/-- Each of the voice events counted is at a position of its own. -/
theorem count_le_positions (chLabel : String) (channel : ℤ) (before : List UInt8) (noise : Fin N → Fin 4) :
    (noiseEvents F chLabel channel before noise).countP (falseVoice before.length) ≤
      ((Finset.Ioc (before.length + 131) (before.length + N)).filter fun n : ℕ =>
        ReportsVoice (burstAt (streamOf before noise) (n - 59) channel 0)).card := by
  have positions : ((noiseEvents F chLabel channel before noise).map Prod.fst).Sublist
      (List.range' (before.length + 1) (dibitsOf noise).length) := Stage.emitted_positions _ _ _ _
  rw [length_dibitsOf] at positions
  have chosen : (((noiseEvents F chLabel channel before noise).filter (falseVoice before.length)).map
      Prod.fst).Sublist (List.range' (before.length + 1) N) := (List.filter_sublist.map Prod.fst).trans positions
  rw [List.countP_eq_length_filter, ← List.length_map (f := Prod.fst),
    ← List.toFinset_card_of_nodup (chosen.nodup List.nodup_range')]
  refine Finset.card_le_card fun n member => ?_
  rw [List.mem_toFinset] at member
  obtain ⟨-, last⟩ := List.mem_range'_1.mp (chosen.subset member)
  obtain ⟨⟨_, e⟩, kept, rfl⟩ := List.mem_map.mp member
  obtain ⟨emits, counted⟩ := List.mem_filter.mp kept
  obtain ⟨late, voice⟩ := (Bool.and_eq_true _ _).mp counted
  exact Finset.mem_filter.mpr ⟨Finset.mem_Ioc.mpr ⟨of_decide_eq_true late, by omega⟩,
    emitted_reports chLabel channel before noise emits voice⟩

/-- Summed over all noise of `N` dibits behind any start, the voice events whose
whole burst is noise number at most one position's share for each position: the
part `213053 * 2 ^ 84 * (2 ^ 48 - 1) * 14 ^ 15` of `4 ^ 122`. -/
theorem false_voice_events (chLabel : String) (channel : ℤ) (before : List UInt8) (N : ℕ) :
    ∑ noise : Fin N → Fin 4, (noiseEvents F chLabel channel before noise).countP (falseVoice before.length) ≤
      (N - 131) * (213053 * 2 ^ 84 * (2 ^ 48 - 1) * 14 ^ 15 * 4 ^ (N - 122)) := by
  classical
  have share : ∀ n ∈ Finset.Ioc (before.length + 131) (before.length + N),
      (Finset.univ.filter fun noise : Fin N → Fin 4 =>
        ReportsVoice (burstAt (streamOf before noise) (n - 59) channel 0)).card =
        213053 * 2 ^ 84 * (2 ^ 48 - 1) * 14 ^ 15 * 4 ^ (N - 122) := by
    intro n member
    obtain ⟨late, last⟩ := Finset.mem_Ioc.mp member
    obtain ⟨q, rfl⟩ : ∃ q, n = before.length + 132 + q := ⟨n - before.length - 132, by omega⟩
    have place : ((before.length + 132 + q : ℕ) : ℤ) - 59 = before.length + q + 73 := by omega
    have counted := card_reports (N := N) (q := q) before (by omega) channel 0
    rw [Nat.card_eq_fintype_card, Fintype.card_subtype] at counted
    rw [place, counted]
    norm_num
  refine (Finset.sum_le_sum fun noise _ => count_le_positions (F := F) chLabel channel before noise).trans ?_
  rw [sum_card_comm, Finset.sum_congr rfl share, Finset.sum_const, Nat.card_Ioc, smul_eq_mul, Nat.add_sub_add_left]

end Runs

end DmrWatchkeeper.ChannelNoise
