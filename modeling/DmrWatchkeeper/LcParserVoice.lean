import DmrWatchkeeper.LcParser

/-! Which voice payloads are accepted. The sanity check on the IDs is written
for each of them, but refuses a payload only where both are zero. -/
namespace DmrWatchkeeper.LcParserVoice
open LcParser BigEndian

/-- The opcode is one that the parser handles. -/
def Listed (bits : Vector Bool 96) : Prop :=
  payloadField bits 2 6 = 0x00 ∨ payloadField bits 2 6 = 0x03

def dstField (bits : Vector Bool 96) : ℕ := payloadField bits 24 24

def srcField (bits : Vector Bool 96) : ℕ := payloadField bits 48 24

/-- The result holds the payload's own fields. -/
structure Faithful (bits : Vector Bool 96) (r : LcResult) : Prop where
  flco : digits 6 r.flco.toNat = field (bitAt bits) 2 6
  dst : digits 24 r.dstId.toNat = field (bitAt bits) 24 24
  src : digits 24 r.srcId.toNat = field (bitAt bits) 48 24
  group : r.group = true ↔ payloadField bits 2 6 = 0

/-- Acceptance names two parties, and what is accepted is read faithfully. -/
def NamesParties (bits : Vector Bool 96) : Prop :=
  ((parseVoiceLc bits).valid = true ↔ Listed bits ∧ dstField bits ≠ 0 ∧ srcField bits ≠ 0) ∧
    ((parseVoiceLc bits).valid = true → Faithful bits (parseVoiceLc bits))

variable {bits : Vector Bool 96}

/-- An unlisted opcode is refused, and so is a payload without any ID. -/
theorem parseVoiceLc_refuses (refused : ¬Listed bits ∨ dstField bits = 0 ∧ srcField bits = 0) :
    (parseVoiceLc bits).valid = false := by
  have flco := shiftIn8_toNat bits 2 (show 6 ≤ 8 by decide)
  have src := extractU24_toNat bits 48
  have dst := extractU24_toNat bits 24
  simp only [parseVoiceLc]
  by_cases unlisted : shiftIn8 bits 2 6 ≠ 0x00 ∧ shiftIn8 bits 2 6 ≠ 0x03
  · rw [if_pos unlisted]
  · rw [if_neg unlisted]
    rcases refused with other | ⟨no_dst, no_src⟩
    · refine absurd ⟨fun zero => other (.inl ?_), fun three => other (.inr ?_)⟩ unlisted
      · rw [← flco, zero]
        rfl
      · rw [← flco, three]
        rfl
    · have src_zero : extractU24 bits 48 = 0 := UInt32.toNat_inj.mp (src.trans no_src)
      have dst_zero : extractU24 bits 24 = 0 := UInt32.toNat_inj.mp (dst.trans no_dst)
      rw [if_pos ⟨src_zero, dst_zero⟩]

theorem parseVoiceLc_valid_iff : (parseVoiceLc bits).valid = true ↔
    Listed bits ∧ ¬(dstField bits = 0 ∧ srcField bits = 0) := by
  constructor
  · intro valid
    by_contra refused
    rw [parseVoiceLc_refuses (not_and_or.mp refused |>.imp id not_not.mp)] at valid
    cases valid
  · rintro ⟨listed, named⟩
    rw [parseVoiceLc_accepts bits listed (fun none_ => named none_.symm)]

/-- What is accepted is read faithfully. -/
theorem parseVoiceLc_faithful (valid : (parseVoiceLc bits).valid = true) :
    Faithful bits (parseVoiceLc bits) := by
  obtain ⟨listed, named⟩ := parseVoiceLc_valid_iff.mp valid
  have flco := payloadField_lt bits 2 6
  have dst := payloadField_lt bits 24 24
  have src := payloadField_lt bits 48 24
  rw [parseVoiceLc_accepts bits listed (fun none_ => named none_.symm)]
  refine ⟨?_, ?_, ?_, by simp⟩
  · rw [UInt8.toNat_ofNat_of_lt' (flco.trans (by decide))]
    exact digits_field ..
  · rw [UInt32.toNat_ofNat_of_lt' (dst.trans (by decide))]
    exact digits_field ..
  · rw [UInt32.toNat_ofNat_of_lt' (src.trans (by decide))]
    exact digits_field ..

/-- The IDs of an accepted payload have 24 bits. -/
theorem parseVoiceLc_ids (valid : (parseVoiceLc bits).valid = true) :
    (parseVoiceLc bits).srcId.toNat < 2 ^ 24 ∧ (parseVoiceLc bits).dstId.toNat < 2 ^ 24 := by
  obtain ⟨listed, named⟩ := parseVoiceLc_valid_iff.mp valid
  have src := payloadField_lt bits 48 24
  have dst := payloadField_lt bits 24 24
  rw [parseVoiceLc_accepts bits listed (fun none_ => named none_.symm)]
  constructor
  · rwa [UInt32.toNat_ofNat_of_lt' (src.trans (by decide))]
  · rwa [UInt32.toNat_ofNat_of_lt' (dst.trans (by decide))]

/-- Acceptance names two parties unless a handled opcode comes with one ID that
is zero and one that is not. -/
theorem namesParties_iff (bits : Vector Bool 96) : NamesParties bits ↔
    ¬(Listed bits ∧ (dstField bits = 0 ↔ srcField bits ≠ 0)) := by
  unfold NamesParties
  rw [parseVoiceLc_valid_iff]
  constructor
  · rintro ⟨exactly, -⟩ ⟨listed, half⟩
    by_cases no_dst : dstField bits = 0
    · exact (exactly.mp ⟨listed, fun none_ => half.mp no_dst none_.2⟩).2.1 no_dst
    · have no_src : srcField bits = 0 := by
        by_contra some_src
        exact no_dst (half.mpr some_src)
      exact (exactly.mp ⟨listed, fun none_ => no_dst none_.1⟩).2.2 no_src
  · intro whole
    refine ⟨⟨?_, fun ⟨listed, some_dst, _⟩ => ⟨listed, fun none_ => some_dst none_.1⟩⟩, ?_⟩
    · rintro ⟨listed, named⟩
      have same : ¬(dstField bits = 0 ↔ srcField bits ≠ 0) := fun half => whole ⟨listed, half⟩
      by_cases no_dst : dstField bits = 0
      · exact absurd ⟨fun _ no_src => named ⟨no_dst, no_src⟩, fun _ => no_dst⟩ same
      · refine ⟨listed, no_dst, fun no_src => same ?_⟩
        exact ⟨fun zero => absurd zero no_dst, fun some_ => absurd no_src some_⟩
    · intro accepted
      exact parseVoiceLc_faithful (parseVoiceLc_valid_iff.mpr accepted)

/-- A group call from radio 1 to nobody is accepted. -/
theorem half_zero_accepted :
    (parseVoiceLc (Vector.ofFn fun i => i.val == 71)).valid = true ∧
      dstField (Vector.ofFn fun i => i.val == 71) = 0 ∧
      ¬NamesParties (Vector.ofFn fun i => i.val == 71) := by
  have accepted : (parseVoiceLc (Vector.ofFn fun i => i.val == 71)).valid = true := by decide +kernel
  have nobody : dstField (Vector.ofFn fun i => i.val == 71) = 0 := by decide +kernel
  exact ⟨accepted, nobody, fun names => (names.1.mp accepted).2.1 nobody⟩

end DmrWatchkeeper.LcParserVoice
