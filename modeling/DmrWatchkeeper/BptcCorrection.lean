import DmrWatchkeeper.BptcTransmit

/-! How many channel errors the decoder removes, wherever they fall. The
message and the padding bit drop out by linearity; what is left is a count of
errors against the geometry of rows and columns. -/
namespace DmrWatchkeeper.BptcCorrection
open Bptc19696 BptcRefinement BptcTransmit SyndromeCode ProductCode

section Shift
variable {message : Vector Bool 96} {padding : Bool} {dibits : Vector UInt8 98}
variable {errors : Grid (Fin 13) (Fin 15)}

/-- Dibits whose matrix is a sent matrix plus an error pattern are decoded
like the pattern alone, with the message added back. -/
theorem decode_shifted (shifted : grid (deinterleave (unpackDibits dibits)) =
      grid (productMatrix message padding) + errors) :
    ((decode dibits).2 = true ↔ layout.Accepts errors) ∧
      ∀ k : Fin 96, bit (getElem (decode dibits).1 k k.isLt) =
        bit (getElem message k k.isLt) + layout.decode errors (outputCell k).1 (outputCell k).2 := by
  have refined := decode_refines dibits
  have good := productMatrix_codeword message padding
  rw [shifted, Layout.decode_add_codeword good, Layout.accepts_add_codeword good] at refined
  refine ⟨refined.1, fun k => ?_⟩
  have sent := bit_extract (productMatrix message padding) k
  rw [extract_productMatrix] at sent
  rw [refined.2, Pi.add_apply, Pi.add_apply, ← sent]

/-- The output is the message exactly when no output cell keeps an error. -/
theorem decode_eq_message_iff (shifted : grid (deinterleave (unpackDibits dibits)) =
      grid (productMatrix message padding) + errors) :
    (decode dibits).1 = message ↔
      ∀ k, layout.decode errors (outputCell k).1 (outputCell k).2 = 0 := by
  have out := (decode_shifted shifted).2
  constructor
  · intro same k
    have sum := out k
    rw [same] at sum
    exact left_eq_add.mp sum
  · intro clean
    ext k bound
    refine bit_injective ?_
    have sum := out ⟨k, bound⟩
    rw [clean, add_zero] at sum
    exact sum

end Shift

theorem outputCell_guarded (k : Fin 96) : (outputCell k).1 ∈ layout.guarded := by
  rw [mem_guarded]
  simp only [outputCell, Fin.lt_def]
  omega

/-- Two parity-row errors in one column never produce an unlisted syndrome. -/
theorem parity_pair_accepted (w : Word (Fin 13)) (spare : ∀ r ∈ layout.guarded, w r = 0)
    (light : hammingNorm w ≤ 2) : (layout.colCode.correct w).2 = true := by
  rcases Code.two_flip_cases light with single | ⟨i, j, distinct, rfl⟩
  · rw [Code.correct_of_norm_le_one single]
  · have parity : ∀ k : Fin 13, (Pi.single i 1 + Pi.single j 1 : Word (Fin 13)) k ≠ 0 → 9 ≤ k := by
      intro k set
      by_contra data
      exact set (spare k (mem_guarded.mpr (by omega)))
    have left := parity i (by simp [distinct])
    have right := parity j (by simp [distinct.symm])
    have listed : ∀ i j : Fin 13, 9 ≤ i → 9 ≤ j → ∃ k,
        Hamming.column colCheck k = Hamming.column colCheck i + Hamming.column colCheck j ∨ i = j := by
      decide +kernel
    obtain ⟨k, produced | same⟩ := listed i j left right
    · by_contra refused
      have missing := (Code.correct_fails_iff.mp (Bool.eq_false_iff.mpr refused)).2 k
      rw [Code.syndrome_add, Code.syndrome_single, Code.syndrome_single] at missing
      exact missing produced
    · exact absurd same distinct

section Errors
variable (message : Vector Bool 96) (padding : Bool) {errors : Finset (Fin 196)}

theorem decode_message_of_three (few : errors.card ≤ 3) :
    (decode (receivedDibits message padding errors)).1 = message := by
  have light := weight_errorGrid_le errors
  rw [decode_eq_message_iff (grid_received message padding errors)]
  intro k
  rw [Layout.decode_of_weight_le_three (by omega) (outputCell_guarded k), Pi.zero_apply]

theorem decode_accepts_of_two (few : errors.card ≤ 2) :
    (decode (receivedDibits message padding errors)).2 = true := by
  have light := weight_errorGrid_le errors
  exact (decode_shifted (grid_received message padding errors)).1.mpr
    (Layout.accepts_of_weight_le_two parity_pair_accepted (by omega))

theorem decode_of_two (few : errors.card ≤ 2) :
    decode (receivedDibits message padding errors) = (message, true) :=
  Prod.ext (decode_message_of_three message padding (by omega))
    (decode_accepts_of_two message padding few)

end Errors

/-- Any three errors leave the message intact, and any two are accepted. -/
theorem decode_corrects_three_errors (message : Vector Bool 96) (padding : Bool)
    (errors : Finset (Fin 196)) (few : errors.card ≤ 3) :
    (decode (receivedDibits message padding errors)).1 = message ∧
      (errors.card ≤ 2 → (decode (receivedDibits message padding errors)).2 = true) :=
  ⟨decode_message_of_three message padding few, decode_accepts_of_two message padding⟩

theorem decode_corrects_three_errors_row_zero :
    ({0, 13, 26} : Finset (Fin 196)).card ≤ 3 ∧
      (decode (receivedDibits (Vector.replicate 96 true) false {0, 13, 26})).1 =
        Vector.replicate 96 true :=
  ⟨by decide, (decode_corrects_three_errors _ _ _ (by decide)).1⟩

end DmrWatchkeeper.BptcCorrection
