import DmrWatchkeeper.BptcAcceptance
import DmrWatchkeeper.BptcLinearity
import DmrWatchkeeper.Channel
import DmrWatchkeeper.LcParserVoice
import DmrWatchkeeper.Library.AcceptedGrids
import DmrWatchkeeper.Library.Counting
import Mathlib.Tactic.IntervalCases

/-! What the decoder makes of noise. Of all payloads that can follow a sync
word, a fixed part is accepted, and the accepted ones are spread evenly over the
messages: the verdict is a weak filter, and the opcode is most of the rest. -/
namespace DmrWatchkeeper.BptcNoise
open Bptc19696 BptcRefinement BptcTransmit BptcLinearity BptcCorrection SyndromeCode ProductCode Counting
open BurstSync LcParser LcParserVoice

theorem dibit_lt (i : Fin 98) : i.val < 98 := i.isLt

/-- A payload as the synchroniser hands it over: 98 dibits. -/
abbrev Payload := {dibits : Vector UInt8 98 // ∀ i, (getElem dibits i (dibit_lt i)).toNat < 4}

/-- Vectors of bits are words. -/
def bitsEquiv (n : ℕ) : Vector Bool n ≃ (Fin n → Bool) where
  toFun v := fun i => getElem v i i.isLt
  invFun w := Vector.ofFn w
  left_inv v := by
    ext i bound
    simp
  right_inv w := by
    funext i
    simp

theorem card_bits (n : ℕ) : Nat.card (Vector Bool n) = 2 ^ n := by
  rw [Nat.card_congr (bitsEquiv n), Nat.card_fun, Nat.card_eq_fintype_card, Nat.card_eq_fintype_card,
    Fintype.card_fin, Fintype.card_bool]

/-! ### Payloads and matrices -/

theorem repacked (d : UInt8) (small : d.toNat < 4) :
    ((d >>> 1) &&& 1 == 1).toUInt8 <<< 1 ||| (d &&& 1 == 1).toUInt8 = d := by
  have value : d = UInt8.ofNat d.toNat := (UInt8.ofNat_toNat).symm
  rw [value]
  generalize d.toNat = n at small
  interval_cases n <;> rfl

theorem pack_unpack (p : Payload) : packDibits (unpackDibits p.1) = p.1 := by
  refine Vector.ext fun k bound => ?_
  have high : 2 * k / 2 = k := by omega
  have low : (2 * k + 1) / 2 = k := by omega
  have odd : ¬ (2 * k + 1) % 2 = 0 := by omega
  simp only [packDibits, unpackDibits, Vector.getElem_ofFn, Nat.mul_mod_right, if_true, high, low, if_neg odd]
  exact repacked _ (p.2 ⟨k, bound⟩)

theorem ownPosition_interleavePosition (i : Fin 196) : ownPosition (interleavePosition i) = i := by
  simp only [ownPosition, interleavePosition, Fin.ext_iff]
  omega

theorem scatter_deinterleave (bits : Vector Bool 196) : scatter ownPosition (deinterleave bits) = bits := by
  have cells : ∀ i j : Fin 196, ownPosition (interleavePosition i) = j →
      (scatter ownPosition (deinterleave bits))[j] = bits[j] := by
    rintro i _ rfl
    rw [scatter_at ownPosition_injective, deinterleave_apply]
  exact Vector.ext fun i bound => cells ⟨i, bound⟩ ⟨i, bound⟩ (ownPosition_interleavePosition _)

theorem packDibits_small (bits : Vector Bool 196) (i : Fin 98) :
    (getElem (packDibits bits) i (dibit_lt i)).toNat < 4 := by
  have pair : ∀ a b : Bool, (a.toUInt8 <<< 1 ||| b.toUInt8).toNat < 4 := by decide
  rw [packDibits, Fin.getElem_fin, Vector.getElem_ofFn]
  exact pair _ _

theorem sentDibits_received (p : Payload) : sentDibits (deinterleave (unpackDibits p.1)) = p.1 := by
  rw [sentDibits, scatter_deinterleave, pack_unpack]

/-- Payloads are matrices, by way of the receiver's layout. -/
def payloadEquiv : Payload ≃ Vector Bool 196 where
  toFun p := deinterleave (unpackDibits p.1)
  invFun m := ⟨sentDibits m, packDibits_small _⟩
  left_inv p := Subtype.ext (sentDibits_received p)
  right_inv m := received_sentDibits m

theorem payloadEquiv_apply (p : Payload) : payloadEquiv p = deinterleave (unpackDibits p.1) := rfl

/-- A matrix is its grid and the unused bit. -/
def cells (m : Vector Bool 196) : Grid (Fin 13) (Fin 15) × Bool := (grid m, m.getD 195 false)

theorem cells_injective : Function.Injective cells := by
  intro m m' same
  have grids := congrArg Prod.fst same
  have last : m.getD 195 false = m'.getD 195 false := congrArg Prod.snd same
  refine Vector.ext fun k bound => ?_
  by_cases inside : k < 195
  · have cell := congrFun (congrFun grids ⟨k / 15, by omega⟩) ⟨k % 15, by omega⟩
    have position : k / 15 * 15 + k % 15 = k := by omega
    have equal := bit_injective cell
    simp only [mat, position] at equal
    exact equal
  · obtain rfl : k = 195 := by omega
    simpa [Vector.getD] using last

theorem cells_bijective : Function.Bijective cells := by
  refine (Nat.bijective_iff_injective_and_card _).mpr ⟨cells_injective, ?_⟩
  rw [card_bits, Nat.card_prod, Nat.card_fun, Nat.card_fun, Nat.card_zmod, Nat.card_eq_fintype_card,
    Nat.card_eq_fintype_card, Nat.card_eq_fintype_card, Fintype.card_fin, Fintype.card_fin, Fintype.card_bool,
    ← pow_mul, ← pow_succ]

/-! ### The verdict -/

theorem card_guarded : layout.guarded.card = 9 := by decide

theorem card_syndrome : Nat.card Syndrome = 2 ^ (Fintype.card (Fin 13) - layout.guarded.card) := by
  rw [Nat.card_fun, Nat.card_zmod, Nat.card_eq_fintype_card, Fintype.card_fin, Fintype.card_fin, card_guarded]

/-- Of the `4 ^ 98` payloads, the decoder accepts exactly the part `(7/8) ^ 15`. -/
theorem card_accepted : Nat.card {p : Payload // (decode p.1).2 = true} = 2 ^ 136 * 14 ^ 15 := by
  have split : {p : Payload // (decode p.1).2 = true} ≃
      {x : Grid (Fin 13) (Fin 15) × Bool // layout.Accepts x.1} :=
    (payloadEquiv.trans (Equiv.ofBijective _ cells_bijective)).subtypeEquiv fun p => by
      rw [(decode_refines p.1).1, Equiv.trans_apply, Equiv.ofBijective_apply, cells, payloadEquiv_apply]
  have apart := split.trans (Equiv.prodSubtypeFstEquivSubtypeProd (p := layout.Accepts))
  have grids := Layout.card_accepted (L := layout) BptcAcceptance.spareIndependent card_syndrome
  rw [card_guarded, Fintype.card_fin, Fintype.card_fin] at grids
  rw [Nat.card_congr apart, Nat.card_prod, grids, Nat.card_eq_fintype_card, Fintype.card_bool]
  norm_num

/-! ### The messages -/

theorem finite_bits (n : ℕ) : Finite (Vector Bool n) := Finite.of_equiv _ (bitsEquiv n).symm

theorem finite_payload : Finite Payload :=
  have := finite_bits 196
  Finite.of_equiv _ payloadEquiv.symm

theorem xorBits_involutive {n : ℕ} (m : Vector Bool n) : Function.Involutive (xorBits m) := by
  refine fun a => Vector.ext fun k bound => ?_
  simp [xorBits]

/-- Adding the matrix of a message, with an unused bit of zero. -/
def translate (message : Vector Bool 96) : Payload ≃ Payload :=
  (payloadEquiv.trans (xorBits_involutive (productMatrix message false)).toPerm).trans payloadEquiv.symm

theorem received_translate (message : Vector Bool 96) (p : Payload) :
    deinterleave (unpackDibits (translate message p).1) =
      xorBits (productMatrix message false) (deinterleave (unpackDibits p.1)) := by
  rw [← payloadEquiv_apply, ← payloadEquiv_apply, translate, Equiv.trans_apply, Equiv.apply_symm_apply,
    Equiv.trans_apply, Function.Involutive.coe_toPerm]

/-- The verdict stays, and the message is added to the output. -/
theorem decode_translate (message : Vector Bool 96) (p : Payload) :
    decode (translate message p).1 = (xorBits message (decode p.1).1, (decode p.1).2) := by
  obtain ⟨verdict, output⟩ := decode_refines p.1
  have shifted := received_translate message p
  obtain ⟨verdict', output'⟩ := decode_shifted ((congrArg grid shifted).trans (grid_xorBits _ _))
  refine Prod.ext ?_ (Bool.eq_iff_iff.mpr (verdict'.trans verdict.symm))
  refine Vector.ext fun k bound => bit_injective ?_
  have out := output' ⟨k, bound⟩
  rw [← output] at out
  simpa [xorBits] using out

theorem xorBits_eq_left {n : ℕ} {m a : Vector Bool n} : xorBits m a = m ↔ a = Vector.replicate n false := by
  have bit : ∀ x y : Bool, (x ^^ y) = x → y = false := by decide
  constructor
  · intro same
    refine Vector.ext fun k bound => ?_
    have cell : (xorBits m a)[k] = m[k] := by rw [same]
    rw [xorBits, Vector.getElem_ofFn] at cell
    rw [Vector.getElem_replicate]
    exact bit _ _ cell
  · rintro rfl
    refine Vector.ext fun k bound => ?_
    simp [xorBits]

theorem card_same (message : Vector Bool 96) :
    Nat.card {p : Payload // decode p.1 = (message, true)} =
      Nat.card {p : Payload // decode p.1 = (Vector.replicate 96 false, true)} := by
  refine Nat.card_congr ((translate message).subtypeEquiv fun p => ?_).symm
  rw [decode_translate, Prod.mk.injEq, Prod.ext_iff, xorBits_eq_left]

/-- Every message is read, with acceptance, from equally many payloads. -/
theorem card_message (message : Vector Bool 96) :
    Nat.card {p : Payload // decode p.1 = (message, true)} = 2 ^ 40 * 14 ^ 15 := by
  have verdicts : {b : Vector Bool 96 × Bool // b.2 = true} ≃ Vector Bool 96 :=
    { toFun := fun b => b.1.1
      invFun := fun m => ⟨(m, true), rfl⟩
      left_inv := fun b => Subtype.ext (Prod.ext rfl b.2.symm)
      right_inv := fun _ => rfl }
  have := finite_payload
  have := finite_bits 96
  have total := card_preimage (fun p : Payload => decode p.1) (P := fun b => b.2 = true)
    (n := Nat.card {p : Payload // decode p.1 = (Vector.replicate 96 false, true)}) (by
      rintro ⟨m, ok⟩ rfl
      exact card_same m)
  rw [card_accepted, Nat.card_congr verdicts, card_bits] at total
  rw [card_same]
  omega

/-- The accepted payloads are the part `(7/8) ^ 15` of all `4 ^ 98`, and every
message is read, with acceptance, from equally many of them. -/
theorem acceptance_spread : Nat.card {p : Payload // (decode p.1).2 = true} = 2 ^ 136 * 14 ^ 15 ∧
    ∀ message, Nat.card {p : Payload // decode p.1 = (message, true)} = 2 ^ 40 * 14 ^ 15 :=
  ⟨card_accepted, card_message⟩

/-- Messages of a kind are read, with acceptance, from as many payloads each. -/
theorem card_read (kind : Vector Bool 96 → Prop) :
    Nat.card {p : Payload // (decode p.1).2 = true ∧ kind (decode p.1).1} =
      Nat.card {m // kind m} * (2 ^ 40 * 14 ^ 15) := by
  have := finite_payload
  have := finite_bits 96
  have messages : {b : Vector Bool 96 × Bool // b.2 = true ∧ kind b.1} ≃ {m // kind m} :=
    { toFun := fun b => ⟨b.1.1, b.2.2⟩
      invFun := fun m => ⟨(m.1, true), rfl, m.2⟩
      left_inv := fun b => Subtype.ext (Prod.ext rfl b.2.1.symm)
      right_inv := fun _ => rfl }
  rw [← Nat.card_congr messages]
  refine card_preimage (fun p : Payload => decode p.1) (P := fun b => b.2 = true ∧ kind b.1) ?_
  rintro ⟨m, ok⟩ ⟨rfl, -⟩
  exact card_message m

/-! ### The voice parser -/

/-- The message has the bits given at the positions given. -/
def Written (S : Finset (Fin 96)) (v : Fin 96 → Bool) : Set (Vector Bool 96) :=
  {m | ∀ i ∈ S, getElem m i i.isLt = v i}

theorem ncard_written (S : Finset (Fin 96)) (v : Fin 96 → Bool) : (Written S v).ncard = 2 ^ (96 - S.card) := by
  have words := card_prescribed S v
  rw [Fintype.card_fin, Nat.card_eq_fintype_card (α := Bool), Fintype.card_bool] at words
  rw [← words, ← Nat.card_coe_set_eq]
  exact Nat.card_congr ((bitsEquiv 96).subtypeEquiv fun m => Iff.rfl)

/-- A field has a given value when each of its bits is as written. -/
theorem payloadField_eq_iff (bits : Vector Bool 96) (offset : ℕ) (target : List Bool)
    (inside : offset + target.length ≤ 96) :
    payloadField bits offset target.length = BigEndian.number target ↔
      ∀ i : Fin 96, offset ≤ i → i < offset + target.length →
        getElem bits i i.isLt = target.getD (i - offset) false := by
  have reading : payloadField bits offset target.length = BigEndian.number target ↔
      BigEndian.field (bitAt bits) offset target.length = target := by
    constructor
    · intro same
      have written := BigEndian.digits_field (bitAt bits) offset target.length
      rw [payloadField] at same
      rw [← written, same, BigEndian.digits_number]
    · intro same
      rw [payloadField, same]
  rw [reading]
  constructor
  · intro same i low high
    have entry : (BigEndian.field (bitAt bits) offset target.length).getD (i - offset) false =
        target.getD (i - offset) false := by rw [same]
    have index : offset + (i.val - offset) = i := by omega
    have inner : i.val - offset < target.length := by omega
    rw [← entry]
    simp [BigEndian.field, bitAt, index, inner, Vector.getD]
  · intro agree
    refine List.ext_getElem (BigEndian.length_field ..) fun k low high => ?_
    have bit := agree ⟨offset + k, by omega⟩ (Nat.le_add_right _ _) (Nat.add_lt_add_left high _)
    have bound : offset + k < 96 := by omega
    have reads : bitAt bits (offset + k) = bits[offset + k] := by simp [bitAt, Vector.getD, bound]
    have entry : (BigEndian.field (bitAt bits) offset target.length)[k] = bitAt bits (offset + k) := by
      simp [BigEndian.field]
    have wanted : target.getD (offset + k - offset) false = target[k] := by
      simp [List.getD_eq_getElem?_getD, high]
    rw [entry, reads, ← wanted]
    exact bit

/-- The bits of a call: opcode, destination and source, as numbers. -/
def callBit (opcode dst src : ℕ) (i : Fin 96) : Bool :=
  if i.val < 8 then (BigEndian.digits 6 opcode).getD (i - 2) false
  else if i.val < 48 then (BigEndian.digits 24 dst).getD (i - 24) false
  else (BigEndian.digits 24 src).getD (i - 48) false

def opcodeBits : Finset (Fin 96) := Finset.univ.filter fun i => 2 ≤ i.val ∧ i.val < 8

def callBits : Finset (Fin 96) :=
  Finset.univ.filter fun i => 2 ≤ i.val ∧ i.val < 8 ∨ 24 ≤ i.val ∧ i.val < 72

theorem card_opcodeBits : opcodeBits.card = 6 := by decide

theorem card_callBits : callBits.card = 54 := by decide

theorem field_iff (m : Vector Bool 96) (offset count value : ℕ) (small : value < 2 ^ count)
    (inside : offset + count ≤ 96) : payloadField m offset count = value ↔
      ∀ i : Fin 96, offset ≤ i → i < offset + count →
        getElem m i i.isLt = (BigEndian.digits count value).getD (i - offset) false := by
  have field := payloadField_eq_iff m offset (BigEndian.digits count value)
    (by rwa [BigEndian.length_digits])
  rwa [BigEndian.length_digits, BigEndian.number_digits small] at field

section Call
variable {opcode dst src : ℕ} (opcode_small : opcode < 2 ^ 6) {m : Vector Bool 96}
include opcode_small

theorem written_opcode : m ∈ Written opcodeBits (callBit opcode dst src) ↔ payloadField m 2 6 = opcode := by
  rw [field_iff m 2 6 opcode opcode_small (by omega)]
  constructor
  · intro written i low high
    rw [written i (by simp [opcodeBits, low, high]), callBit, if_pos high]
  · intro agree i member
    simp only [opcodeBits, Finset.mem_filter, Finset.mem_univ, true_and] at member
    rw [agree i member.1 member.2, callBit, if_pos member.2]

theorem written_call (dst_small : dst < 2 ^ 24) (src_small : src < 2 ^ 24) :
    m ∈ Written callBits (callBit opcode dst src) ↔
      payloadField m 2 6 = opcode ∧ dstField m = dst ∧ srcField m = src := by
  rw [dstField, srcField, field_iff m 2 6 opcode opcode_small (by omega),
    field_iff m 24 24 dst dst_small (by omega), field_iff m 48 24 src src_small (by omega)]
  constructor
  · intro written
    refine ⟨fun i low high => ?_, fun i low high => ?_, fun i low high => ?_⟩
    · rw [written i (by simp [callBits, low, high]), callBit, if_pos high]
    · have member : i ∈ callBits := by
        simp only [callBits, Finset.mem_filter, Finset.mem_univ, true_and]
        omega
      rw [written i member, callBit, if_neg (by omega), if_pos high]
    · have member : i ∈ callBits := by
        simp only [callBits, Finset.mem_filter, Finset.mem_univ, true_and]
        omega
      rw [written i member, callBit, if_neg (by omega), if_neg (by omega)]
  · rintro ⟨first, second, third⟩ i member
    simp only [callBits, Finset.mem_filter, Finset.mem_univ, true_and] at member
    rw [callBit]
    by_cases early : i.val < 8
    · rw [if_pos early, first i (by omega) early]
    · rw [if_neg early]
      by_cases middle : i.val < 48
      · rw [if_pos middle, second i (by omega) (by omega)]
      · rw [if_neg middle, third i (by omega) (by omega)]

end Call

/-- The opcode of a call. -/
def opcodeOf (group : Bool) : ℕ := if group then 0 else 3

theorem opcodeOf_lt (group : Bool) : opcodeOf group < 2 ^ 6 := by cases group <;> decide

/-- The parser reports a call exactly when its three fields are there. -/
theorem parseVoiceLc_call_iff {m : Vector Bool 96} {src dst : UInt32} {group : Bool}
    (named : ¬(src = 0 ∧ dst = 0)) : ((parseVoiceLc m).valid = true ∧ (parseVoiceLc m).srcId = src ∧
      (parseVoiceLc m).dstId = dst ∧ (parseVoiceLc m).group = group) ↔
      payloadField m 2 6 = opcodeOf group ∧ dstField m = dst.toNat ∧ srcField m = src.toNat := by
  have src_lt : srcField m < UInt32.size := (payloadField_lt m 48 24).trans (by decide)
  have dst_lt : dstField m < UInt32.size := (payloadField_lt m 24 24).trans (by decide)
  constructor
  · rintro ⟨valid, source, destination, kind⟩
    obtain ⟨listed, some_id⟩ := parseVoiceLc_valid_iff.mp valid
    rw [parseVoiceLc_accepts m listed fun none_ => some_id none_.symm] at source destination kind
    refine ⟨?_, ?_, ?_⟩
    · rcases listed with zero | three
      · simp only [zero] at kind
        rw [zero, ← kind]
        rfl
      · simp only [three] at kind
        rw [three, ← kind]
        rfl
    · exact (UInt32.toNat_ofNat_of_lt' dst_lt).symm.trans (congrArg UInt32.toNat destination)
    · exact (UInt32.toNat_ofNat_of_lt' src_lt).symm.trans (congrArg UInt32.toNat source)
  · rintro ⟨opcode, destination, source⟩
    have listed : payloadField m 2 6 = 0 ∨ payloadField m 2 6 = 3 := by
      cases group
      · exact .inr opcode
      · exact .inl opcode
    have some_id : ¬(payloadField m 48 24 = 0 ∧ payloadField m 24 24 = 0) := by
      rintro ⟨no_src, no_dst⟩
      exact named ⟨UInt32.toNat_inj.mp (source.symm.trans no_src),
        UInt32.toNat_inj.mp (destination.symm.trans no_dst)⟩
    rw [parseVoiceLc_accepts m listed some_id]
    refine ⟨rfl, ?_, ?_, ?_⟩
    · exact (congrArg UInt32.ofNat source).trans UInt32.ofNat_toNat
    · exact (congrArg UInt32.ofNat destination).trans UInt32.ofNat_toNat
    · cases group <;> simp [opcode, opcodeOf]

/-- Messages that the parser reports as one call. -/
theorem card_call {src dst : UInt32} {group : Bool} (src_small : src.toNat < 2 ^ 24)
    (dst_small : dst.toNat < 2 ^ 24) (named : ¬(src = 0 ∧ dst = 0)) :
    Nat.card {m // (parseVoiceLc m).valid = true ∧ (parseVoiceLc m).srcId = src ∧
      (parseVoiceLc m).dstId = dst ∧ (parseVoiceLc m).group = group} = 2 ^ 42 := by
  have written := ncard_written callBits (callBit (opcodeOf group) dst.toNat src.toNat)
  rw [card_callBits, ← Nat.card_coe_set_eq] at written
  rw [← written]
  refine Nat.card_congr (Equiv.subtypeEquivRight fun m => ?_)
  rw [parseVoiceLc_call_iff named, written_call (opcodeOf_lt group) dst_small src_small]

/-- Messages with one opcode and an ID. -/
theorem ncard_named (group : Bool) :
    (Written opcodeBits (callBit (opcodeOf group) 0 0) \
      Written callBits (callBit (opcodeOf group) 0 0)).ncard = 2 ^ 90 - 2 ^ 42 := by
  have := finite_bits 96
  have fewer : opcodeBits ⊆ callBits := by decide
  have within : Written callBits (callBit (opcodeOf group) 0 0) ⊆ Written opcodeBits (callBit (opcodeOf group) 0 0) :=
    fun m written i member => written i (fewer member)
  rw [Set.ncard_sdiff within, ncard_written, ncard_written, card_opcodeBits, card_callBits]

theorem valid_iff_written {m : Vector Bool 96} (group : Bool) :
    m ∈ Written opcodeBits (callBit (opcodeOf group) 0 0) \ Written callBits (callBit (opcodeOf group) 0 0) ↔
      payloadField m 2 6 = opcodeOf group ∧ ¬(dstField m = 0 ∧ srcField m = 0) := by
  rw [Set.mem_sdiff, written_opcode (opcodeOf_lt group),
    written_call (opcodeOf_lt group) (by decide) (by decide)]
  tauto

/-- Messages that the voice parser accepts. -/
theorem card_valid : Nat.card {m // (parseVoiceLc m).valid = true} = 2 * (2 ^ 90 - 2 ^ 42) := by
  have := finite_bits 96
  have parts : {m | (parseVoiceLc m).valid = true} =
      (Written opcodeBits (callBit (opcodeOf true) 0 0) \ Written callBits (callBit (opcodeOf true) 0 0)) ∪
        (Written opcodeBits (callBit (opcodeOf false) 0 0) \ Written callBits (callBit (opcodeOf false) 0 0)) := by
    ext m
    rw [Set.mem_union, valid_iff_written, valid_iff_written, ← or_and_right]
    exact parseVoiceLc_valid_iff
  have apart : Disjoint
      (Written opcodeBits (callBit (opcodeOf true) 0 0) \ Written callBits (callBit (opcodeOf true) 0 0))
      (Written opcodeBits (callBit (opcodeOf false) 0 0) \ Written callBits (callBit (opcodeOf false) 0 0)) := by
    refine Set.disjoint_left.mpr fun m group individual => ?_
    rw [valid_iff_written] at group individual
    exact absurd (group.1.symm.trans individual.1) (by decide)
  have total := congrArg Set.ncard parts
  rw [Set.ncard_union_eq apart, ncard_named, ncard_named, ← two_mul, ← Nat.card_coe_set_eq] at total
  exact total

/-! ### Events -/

section Events
open Channel
variable {F : Type} [IntCast F] [Mul F] [Div F] [Neg F] [LT F] [DecidableLT F] [BEq F]

/-- What is reported behind a voice sync. -/
theorem burstEvent_voice_iff (chLabel : String) {burst : Burst}
    (voice : burst.type = .bsVoice ∨ burst.type = .msVoice) (e : Event F) :
    burstEvent chLabel burst = some e ↔
      (decode burst.dibits).2 = true ∧ (parseVoiceLc (decode burst.dibits).1).valid = true ∧
        .voice chLabel burst.timeslot (parseVoiceLc (decode burst.dibits).1).srcId
          (parseVoiceLc (decode burst.dibits).1).dstId (parseVoiceLc (decode burst.dibits).1).group = e := by
  by_cases accepted : (decode burst.dibits).2 = true
  · by_cases valid : (parseVoiceLc (decode burst.dibits).1).valid = true
    · have read : decode burst.dibits = ((decode burst.dibits).1, true) := Prod.ext rfl accepted
      rw [burstEvent_voice chLabel read voice rfl valid]
      simp only [accepted, valid, true_and, Option.some.injEq]
    · simp [burstEvent, accepted, voice, valid]
  · simp [burstEvent, accepted]

/-- Random payloads behind a voice sync: each call is reported from equally many
of them, and all calls together from the part `(7/8) ^ 15 / 32` of `4 ^ 98`, but
for the calls between two IDs of zero. -/
theorem noise_reported (chLabel : String) (burst : Burst)
    (voice : burst.type = .bsVoice ∨ burst.type = .msVoice) :
    (∀ (src dst : UInt32) (group : Bool), src.toNat < 2 ^ 24 → dst.toNat < 2 ^ 24 → ¬(src = 0 ∧ dst = 0) →
      Nat.card {p : Payload // (burstEvent chLabel {burst with dibits := p.1} : Option (Event F)) =
        some (.voice chLabel burst.timeslot src dst group)} = 2 ^ 82 * 14 ^ 15) ∧
      Nat.card {p : Payload // (burstEvent chLabel {burst with dibits := p.1} : Option (Event F)).isSome = true} =
        2 ^ 83 * (2 ^ 48 - 1) * 14 ^ 15 := by
  refine ⟨fun src dst group src_small dst_small named => ?_, ?_⟩
  · have counted := card_read fun m => (parseVoiceLc m).valid = true ∧ (parseVoiceLc m).srcId = src ∧
      (parseVoiceLc m).dstId = dst ∧ (parseVoiceLc m).group = group
    rw [card_call src_small dst_small named] at counted
    rw [show 2 ^ 82 * 14 ^ 15 = 2 ^ 42 * (2 ^ 40 * 14 ^ 15) by norm_num, ← counted]
    refine Nat.card_congr (Equiv.subtypeEquivRight fun p => ?_)
    have same_type : ({burst with dibits := p.1} : Burst).type = .bsVoice ∨
        ({burst with dibits := p.1} : Burst).type = .msVoice := voice
    rw [burstEvent_voice_iff chLabel same_type, Event.voice.injEq]
    simp only [true_and]
  · have counted := card_read fun m => (parseVoiceLc m).valid = true
    rw [card_valid] at counted
    rw [show 2 ^ 83 * (2 ^ 48 - 1) * 14 ^ 15 = 2 * (2 ^ 90 - 2 ^ 42) * (2 ^ 40 * 14 ^ 15) by norm_num, ← counted]
    refine Nat.card_congr (Equiv.subtypeEquivRight fun p => ?_)
    have same_type : ({burst with dibits := p.1} : Burst).type = .bsVoice ∨
        ({burst with dibits := p.1} : Burst).type = .msVoice := voice
    have reports := burstEvent_voice_iff (F := F) chLabel same_type
    rw [Option.isSome_iff_exists]
    constructor
    · rintro ⟨e, reported⟩
      obtain ⟨accepted, valid, -⟩ := (reports e).mp reported
      exact ⟨accepted, valid⟩
    · rintro ⟨accepted, valid⟩
      exact ⟨_, (reports _).mpr ⟨accepted, valid, rfl⟩⟩

/-- Behind a base-station voice sync. -/
theorem noise_reported_base_station :
    Nat.card {p : Payload // (burstEvent "A1" { type := .bsVoice, dibits := p.1 } : Option (Event ℚ)).isSome = true} =
      2 ^ 83 * (2 ^ 48 - 1) * 14 ^ 15 :=
  (noise_reported "A1" { type := .bsVoice } (.inl rfl)).2

end Events

end DmrWatchkeeper.BptcNoise
