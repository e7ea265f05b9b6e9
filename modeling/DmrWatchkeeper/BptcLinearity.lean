import DmrWatchkeeper.BptcCorrection

/-! What the decoder does depends on the error and not on the matrix it was
added to. Words are given in matrix order here, with the padding bit last. -/
namespace DmrWatchkeeper.BptcLinearity
open Bptc19696 BptcRefinement BptcTransmit BptcCorrection SyndromeCode ProductCode

/-- The dibits on the air for a matrix, in the decoder's own layout. -/
def sentDibits (m : Vector Bool 196) : Vector UInt8 98 := packDibits (scatter ownPosition m)

def xorBits {n : ℕ} (a b : Vector Bool n) : Vector Bool n :=
  Vector.ofFn fun i => getElem a i i.isLt ^^ getElem b i i.isLt

/-- All nine row checks and all fifteen column checks of the source hold. -/
structure Consistent (m : Vector Bool 196) : Prop where
  rows : ∀ r : Fin 13, r < 9 → rowCheck.syndrome (loadRow m r) = 0
  columns : ∀ c, colCheck.syndrome (loadCol m c) = 0

variable {c e m : Vector Bool 196}

theorem consistent_iff : Consistent m ↔ layout.Codeword (grid m) := by
  constructor
  · intro checked
    exact {
      rows := fun r member => (row_codeword_iff m r).mpr (checked.rows r (mem_guarded.mp member))
      columns := fun k => (col_codeword_iff m k).mpr (checked.columns k) }
  · intro good
    exact {
      rows := fun r data => (row_codeword_iff m r).mp (good.rows r (mem_guarded.mpr data))
      columns := fun k => (col_codeword_iff m k).mp (good.columns k) }

theorem grid_xorBits (a b : Vector Bool 196) : grid (xorBits a b) = grid a + grid b := by
  funext r k
  simp [grid, xorBits]

/-- The receiver finds the matrix that was sent. -/
theorem received_sentDibits (m : Vector Bool 196) : deinterleave (unpackDibits (sentDibits m)) = m := by
  have cells : ∀ k : Fin 196, (deinterleave (unpackDibits (sentDibits m)))[k] = m[k] := fun k => by
    rw [deinterleave_apply, sentDibits, unpack_pack, scatter_at ownPosition_injective]
  exact Vector.ext fun k bound => cells ⟨k, bound⟩

/-- Decoding a consistent matrix with an error added gives the verdict on the
error alone, and the output for the error alone added to the data bits. -/
theorem decode_depends_on_error (c e : Vector Bool 196) (consistent : Consistent c) :
    (decode (sentDibits (xorBits c e))).2 = (decode (sentDibits e)).2 ∧
      (decode (sentDibits (xorBits c e))).1 = xorBits (extract c) (decode (sentDibits e)).1 := by
  have good := consistent_iff.mp consistent
  obtain ⟨verdict, output⟩ := decode_refines (sentDibits (xorBits c e))
  obtain ⟨verdictE, outputE⟩ := decode_refines (sentDibits e)
  rw [received_sentDibits] at verdict output verdictE outputE
  rw [grid_xorBits, Layout.accepts_add_codeword good] at verdict
  rw [grid_xorBits, Layout.decode_add_codeword good] at output
  refine ⟨Bool.eq_iff_iff.mpr (verdict.trans verdictE.symm), ?_⟩
  ext k bound
  refine bit_injective ?_
  have data := bit_extract c ⟨k, bound⟩
  have out := output ⟨k, bound⟩
  rw [Pi.add_apply, Pi.add_apply, ← outputE, ← data] at out
  simpa [xorBits] using out

/-- One wrong bit in the matrix of the message of ones. -/
theorem decode_depends_on_error_one_bit :
    (decode (sentDibits (xorBits (productMatrix (Vector.replicate 96 true) false)
      (Vector.ofFn fun k => k = 0)))).2 = (decode (sentDibits (Vector.ofFn fun k => k = 0))).2 :=
  (decode_depends_on_error _ _ (consistent_iff.mpr (productMatrix_codeword _ _))).1

end DmrWatchkeeper.BptcLinearity
