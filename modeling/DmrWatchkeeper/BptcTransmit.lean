import DmrWatchkeeper.BptcRefinement

/-! The transmit side that the decoder is meant for: the product-code matrix
of a message, its two candidate interleavings, and packing into dibits. This
is the specification the decoder is compared with; only the parity equations
are shared with the decoder's model. -/
namespace DmrWatchkeeper.BptcTransmit
open Bptc19696 BptcRefinement SyndromeCode ProductCode

/-- Systematic encoding: data positions keep their bits, parity position `j`
receives the exclusive or of the bits it covers. -/
def hammingEncode {n : ℕ} (check : HammingCheck n) (data : Vector Bool n) : Vector Bool n :=
  Vector.ofFn fun i => match (List.finRange 4).find? (check.parity · = i) with
    | some j => HammingCheck.xorOf data (check.covers j)
    | none => getElem data i i.isLt

/-- Row `r` of the data area: message bits `11r` to `11r + 10`, with zeros for
the three dummy positions behind bit 95, and the row parity. -/
def rowWord (message : Vector Bool 96) (r : ℕ) : Vector Bool 15 :=
  hammingEncode rowCheck (Vector.ofFn fun c =>
    if c < 11 then message[11 * r + c]?.getD false else false)

theorem rowWord_lt (c : Fin 15) : c.val < 15 := c.isLt

/-- Column `c` of rows 0 to 8 with its column parity. -/
def colWord (message : Vector Bool 96) (c : Fin 15) : Vector Bool 13 :=
  hammingEncode colCheck (Vector.ofFn fun r => if r < 9 then getElem (rowWord message r) c (rowWord_lt c) else false)

/-- The 13 by 15 matrix, row-major, followed by one padding bit. -/
def productMatrix (message : Vector Bool 96) (padding : Bool) : Vector Bool 196 :=
  Vector.ofFn fun k => if h : k.val < 195 then
      (colWord message ⟨k % 15, by omega⟩)[k.val / 15]
    else padding

/-- Send bit `k` at position `position k`. -/
def scatter (position : Fin 196 → Fin 196) (bits : Vector Bool 196) : Vector Bool 196 :=
  Fin.foldl 196 (fun sent k => sent.set (position k) bits[k]) (Vector.replicate 196 false)

theorem ownPosition_lt (k : Fin 196) : k.val * 13 % 196 < 196 := by omega

/-- The decoder's own layout: matrix bit `k` at position `13k mod 196`. -/
def ownPosition (k : Fin 196) : Fin 196 := ⟨k * 13 % 196, ownPosition_lt k⟩

/-- The documented interleaver `i(n) = (n * 181) mod 196`. -/
def interleavePosition (n : Fin 196) : Fin 196 := ⟨n * 181 % 196, by omega⟩

/-- Two bits to a dibit, high bit first. -/
def packDibits (bits : Vector Bool 196) : Vector UInt8 98 :=
  Vector.ofFn fun k => (bits[2 * k.val].toUInt8 <<< 1) ||| bits[2 * k.val + 1].toUInt8

/-- Channel errors: the listed positions are received inverted. -/
def flipBits (bits : Vector Bool 196) (errors : Finset (Fin 196)) : Vector Bool 196 :=
  Vector.ofFn fun i => bits[i] ^^ decide (i ∈ errors)

/-- The dibits received for a message sent in the decoder's own layout. -/
def receivedDibits (message : Vector Bool 96) (padding : Bool) (errors : Finset (Fin 196)) :
    Vector UInt8 98 :=
  packDibits (flipBits (scatter ownPosition (productMatrix message padding)) errors)

/-! ### Packing and interleaving are inverted by the receiver -/

theorem unpack_pack (bits : Vector Bool 196) : unpackDibits (packDibits bits) = bits := by
  have high : ∀ a b : Bool, (((a.toUInt8 <<< 1 ||| b.toUInt8) >>> 1) &&& 1 == 1) = a := by decide
  have low : ∀ a b : Bool, ((a.toUInt8 <<< 1 ||| b.toUInt8) &&& 1 == 1) = b := by decide
  ext i bound
  simp only [unpackDibits, packDibits, Vector.getElem_ofFn]
  split
  · rename_i even
    rw [high]
    congr 1
    omega
  · rename_i odd
    rw [low]
    congr 1
    omega

theorem ownPosition_injective : Function.Injective ownPosition := by
  intro j k same
  have val : j.val * 13 % 196 = k.val * 13 % 196 := congrArg Fin.val same
  ext
  omega

theorem scatter_at {position : Fin 196 → Fin 196} (injective : Function.Injective position)
    (bits : Vector Bool 196) (k : Fin 196) : (scatter position bits)[position k] = bits[k] :=
  Loop.foldl_set_hit injective _ _ k

/-- Read from the receiving end, the decoder's own layout takes position `i`
from matrix bit `181i mod 196`. -/
theorem scatter_ownPosition (bits : Vector Bool 196) :
    scatter ownPosition bits = Vector.ofFn fun i => bits[interleavePosition i] := by
  ext i bound
  have returns : ownPosition (interleavePosition ⟨i, bound⟩) = ⟨i, bound⟩ := by
    simp only [ownPosition, interleavePosition, Fin.mk.injEq]
    omega
  have sent : ∀ j : Fin 196, ownPosition (interleavePosition ⟨i, bound⟩) = j →
      (scatter ownPosition bits)[j] = bits[interleavePosition ⟨i, bound⟩] := by
    rintro _ rfl
    exact scatter_at ownPosition_injective bits _
  rw [Vector.getElem_ofFn]
  exact sent ⟨i, bound⟩ returns

/-- The received bit at position `i`. -/
def receivedBit (message : Vector Bool 96) (padding : Bool) (errors : Finset (Fin 196))
    (i : Fin 196) : Bool :=
  let k := interleavePosition i
  (if h : k.val < 195 then (colWord message ⟨k % 15, by omega⟩)[k.val / 15] else padding) ^^
    decide (i ∈ errors)

theorem receivedDibits_apply (message : Vector Bool 96) (padding : Bool)
    (errors : Finset (Fin 196)) (k : ℕ) (bound : k < 98) :
    (receivedDibits message padding errors)[k] =
      ((receivedBit message padding errors ⟨2 * k, by omega⟩).toUInt8 <<< 1) |||
        (receivedBit message padding errors ⟨2 * k + 1, by omega⟩).toUInt8 := by
  simp only [receivedDibits, packDibits, flipBits, scatter_ownPosition, productMatrix,
    Vector.getElem_ofFn, receivedBit, Fin.getElem_fin]

theorem deinterleave_apply (bits : Vector Bool 196) (k : Fin 196) :
    (deinterleave bits)[k] = bits[ownPosition k] := by
  simp [deinterleave, ownPosition]

theorem flipBits_apply (bits : Vector Bool 196) (errors : Finset (Fin 196)) (i : Fin 196) :
    (flipBits bits errors)[i] = (bits[i] ^^ decide (i ∈ errors)) := by
  simp [flipBits]

/-- The error pattern as the decoder's matrix sees it. -/
def errorGrid (errors : Finset (Fin 196)) : Grid (Fin 13) (Fin 15) :=
  fun r c => if ownPosition (mat r c) ∈ errors then 1 else 0

/-- What reaches the three passes is the sent matrix plus the errors. -/
theorem grid_received (message : Vector Bool 96) (padding : Bool) (errors : Finset (Fin 196)) :
    grid (deinterleave (unpackDibits (receivedDibits message padding errors))) =
      grid (productMatrix message padding) + errorGrid errors := by
  funext r c
  rw [receivedDibits, unpack_pack, grid, deinterleave_apply, flipBits_apply,
    scatter_at ownPosition_injective, bit_xor]
  simp only [Pi.add_apply, grid, errorGrid]
  by_cases hit : ownPosition (mat r c) ∈ errors <;> simp [hit]

theorem weight_errorGrid_le (errors : Finset (Fin 196)) :
    weight (errorGrid errors) ≤ errors.card := by
  rw [weight_eq_card]
  refine Finset.card_le_card_of_injOn (fun p => ownPosition (mat p.1 p.2)) ?_ ?_
  · intro p member
    simpa [errorGrid] using member
  · intro p _ q _ same
    have cell := mat_inj.mp (ownPosition_injective same)
    exact Prod.ext cell.1 cell.2

/-! ### The sent matrix is a codeword carrying the message -/

/-- Parity positions are covered by nothing and are distinct. -/
structure Systematic {n : ℕ} (check : HammingCheck n) : Prop where
  separate : ∀ j k, check.parity k ∉ check.covers j
  distinct : Function.Injective check.parity

theorem row_systematic : Systematic rowCheck := by constructor <;> decide

theorem col_systematic : Systematic colCheck := by constructor <;> decide

section Encode
variable {n : ℕ} {check : HammingCheck n} {data : Vector Bool n}

theorem hammingEncode_data {i : Fin n} (free : ∀ j, check.parity j ≠ i) :
    getElem (hammingEncode check data) i i.isLt = getElem data i i.isLt := by
  have none : (List.finRange 4).find? (check.parity · = i) = none := by
    simpa [List.find?_eq_none] using free
  simp [hammingEncode, none]

theorem hammingEncode_parity (sys : Systematic check) (j : Fin 4) :
    getElem (hammingEncode check data) (check.parity j) (check.parity_lt j) =
      HammingCheck.xorOf data (check.covers j) := by
  cases found : (List.finRange 4).find? (check.parity · = check.parity j) with
  | none =>
    have absent := List.find?_eq_none.mp found j (List.mem_finRange j)
    simp at absent
  | some k =>
    have same : check.parity k = check.parity j := by simpa using List.find?_some found
    obtain rfl := sys.distinct same
    simp [hammingEncode, found]

theorem hammingEncode_codeword (ok : Hamming.WellFormed check) (sys : Systematic check) :
    (Hamming.code check ok).Codeword (word (hammingEncode check data)) := by
  funext j
  have covered : HammingCheck.xorOf (hammingEncode check data) (check.covers j) =
      HammingCheck.xorOf data (check.covers j) := by
    unfold HammingCheck.xorOf
    congr 1
    refine List.map_congr_left fun i member => hammingEncode_data fun k same => ?_
    exact sys.separate j k (same ▸ member)
  rw [Hamming.syndrome_apply, HammingCheck.syndromeBit, covered, hammingEncode_parity sys]
  simp

end Encode

theorem grid_productMatrix (message : Vector Bool 96) (padding : Bool) (r : Fin 13) (c : Fin 15) :
    grid (productMatrix message padding) r c = bit (getElem (colWord message c) r r.isLt) := by
  have inside : r.val * 15 + c.val < 195 := by omega
  have row : (r.val * 15 + c.val) / 15 = r := by omega
  have col : (r.val * 15 + c.val) % 15 = c := by omega
  simp [grid, productMatrix, mat, inside, row, col]

/-- In the data rows a cell is the row word's cell. -/
theorem colWord_data (message : Vector Bool 96) {r : Fin 13} (data : r < 9) (c : Fin 15) :
    (colWord message c)[r] = (rowWord message r)[c] := by
  have free : ∀ j, colCheck.parity j ≠ r := by
    revert r
    decide
  rw [colWord, hammingEncode_data free]
  simp [data]

theorem productMatrix_codeword (message : Vector Bool 96) (padding : Bool) :
    layout.Codeword (grid (productMatrix message padding)) where
  rows r guarded := by
    have row : grid (productMatrix message padding) r = word (rowWord message r) := by
      funext c
      rw [grid_productMatrix, colWord_data message (mem_guarded.mp guarded), word_apply]
    rw [row]
    exact hammingEncode_codeword row_wellFormed row_systematic
  columns c := by
    have col : ProductCode.column (grid (productMatrix message padding)) c =
        word (colWord message c) := by
      funext r
      rw [ProductCode.column_apply, grid_productMatrix, word_apply]
    rw [col]
    exact hammingEncode_codeword col_wellFormed col_systematic

theorem outputCell_row_lt (k : Fin 96) : k.val / 11 < 13 := by omega

theorem outputCell_col_lt (k : Fin 96) : k.val % 11 < 15 := by omega

/-- The cell from which output bit `k` is taken. -/
def outputCell (k : Fin 96) : Fin 13 × Fin 15 :=
  (⟨k / 11, outputCell_row_lt k⟩, ⟨k % 11, outputCell_col_lt k⟩)

theorem bit_extract (m : Vector Bool 196) (k : Fin 96) :
    bit (extract m)[k] = grid m (outputCell k).1 (outputCell k).2 := by
  simp [extract, grid, outputCell]

/-- The decoder in terms of the received grid: its verdict and its output bits. -/
theorem decode_refines (dibits : Vector UInt8 98) :
    ((decode dibits).2 = true ↔ layout.Accepts (grid (deinterleave (unpackDibits dibits)))) ∧
      ∀ k : Fin 96, bit (decode dibits).1[k] =
        layout.decode (grid (deinterleave (unpackDibits dibits))) (outputCell k).1 (outputCell k).2 := by
  have refined := decodeMatrix_refines (unpackDibits dibits)
  rw [(decode_parts dibits).1, (decode_parts dibits).2, ← refined.1]
  exact ⟨refined.2, bit_extract _⟩

theorem extract_productMatrix (message : Vector Bool 96) (padding : Bool) :
    extract (productMatrix message padding) = message := by
  ext k bound
  refine bit_injective ?_
  have out := bit_extract (productMatrix message padding) ⟨k, bound⟩
  have data : (outputCell ⟨k, bound⟩).1 < 9 := by
    simp only [outputCell, Fin.lt_def]
    omega
  have free : ∀ j, rowCheck.parity j ≠ (outputCell ⟨k, bound⟩).2 := by
    have left : (outputCell ⟨k, bound⟩).2 < 11 := by
      simp only [outputCell, Fin.lt_def]
      omega
    revert left
    generalize (outputCell ⟨k, bound⟩).2 = c
    revert c
    decide
  have index : 11 * (k / 11) + k % 11 = k := Nat.div_add_mod k 11
  rw [grid_productMatrix, colWord_data message data, rowWord, hammingEncode_data free] at out
  have inside : k % 11 < 11 := Nat.mod_lt _ (by decide)
  simpa [outputCell, Fin.lt_def, index, bound, inside] using out

end DmrWatchkeeper.BptcTransmit
