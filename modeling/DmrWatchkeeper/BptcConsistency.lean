import DmrWatchkeeper.BptcLinearity

/-! What an accepting verdict says of the matrix from which the output is
taken. The verdict is fixed before the second row pass; that pass makes every
data row a codeword, and may take a column out of its code again. -/
namespace DmrWatchkeeper.BptcConsistency
open Bptc19696 BptcRefinement BptcTransmit BptcLinearity SyndromeCode ProductCode

section Passes
variable (received : Vector Bool 196)

theorem grid_final : grid (decodeMatrix received).1 =
    layout.rowPass (grid (colPass (rowPass (deinterleave received, true))).1) := by
  rw [(decodeMatrix_parts received).1]
  generalize colPass (rowPass (deinterleave received, true)) = corrected
  exact (rowPass_refines corrected).1

/-- The row checks hold whatever was received. -/
theorem final_rows (r : Fin 13) (data : r < 9) :
    rowCheck.syndrome (loadRow (decodeMatrix received).1 r) = 0 := by
  rw [← row_codeword_iff, grid_final, Layout.rowPass_guarded (mem_guarded.mpr data)]
  exact Code.correct_accepts (Code.correct_of_perfect layout.rowPerfect _)

/-- On acceptance the column checks hold before the second row pass. -/
theorem accepted_columns (accepted : (decodeMatrix received).2 = true) (c : Fin 15) :
    colCheck.syndrome (loadCol (colPass (rowPass (deinterleave received, true))).1 c) = 0 := by
  rw [(decodeMatrix_parts received).2] at accepted
  generalize rowPass (deinterleave received, true) = start at accepted ⊢
  obtain ⟨columns, verdict⟩ := colPass_refines start
  rw [← col_codeword_iff, columns, Layout.column_colPass]
  exact Code.correct_accepts ((verdict.mp accepted).2 c)

/-- The bits that the second row pass flips. -/
def secondFlips (received : Vector Bool 196) : Vector Bool 196 :=
  xorBits (colPass (rowPass (deinterleave received, true))).1 (decodeMatrix received).1

/-- The number of set bits in a column. -/
def columnCount (m : Vector Bool 196) (c : Fin 15) : ℕ :=
  (Finset.univ.filter fun r : Fin 13 => getElem m (mat r c) (mat_lt r c) = true).card

theorem norm_column (m : Vector Bool 196) (c : Fin 15) :
    hammingNorm (ProductCode.column (grid m) c) = columnCount m c := by
  simp [hammingNorm, columnCount, grid]

/-- After acceptance a column of the final matrix is good if its flips are. -/
theorem final_column_iff (accepted : (decodeMatrix received).2 = true) (c : Fin 15) :
    colCheck.syndrome (loadCol (decodeMatrix received).1 c) = 0 ↔
      colCheck.syndrome (loadCol (secondFlips received) c) = 0 := by
  have good := (col_codeword_iff _ c).mpr (accepted_columns received accepted c)
  rw [← col_codeword_iff, ← col_codeword_iff, secondFlips, grid_xorBits, column_add,
    Code.codeword_add_iff good]

end Passes

/-- Two wrong bits, in rows 9 and 10 of column 0. -/
def parityPair : Vector Bool 196 := Vector.ofFn fun k => k = 135 ∨ k = 150

theorem grid_parityPair (r : Fin 13) (c : Fin 15) :
    grid parityPair r c ≠ 0 ↔ (r = 9 ∨ r = 10) ∧ c = 0 := by
  have cell : grid parityPair r c ≠ 0 ↔ mat r c = 135 ∨ mat r c = 150 := by
    simp [grid, parityPair, or_iff_not_imp_left]
  rw [cell]
  simp only [mat, Fin.ext_iff]
  omega

theorem column_parityPair : ProductCode.column (grid parityPair) 0 = Code.mark {9, 10} :=
  Code.eq_mark fun r => by simp [grid_parityPair]

theorem parityPair_elsewhere (c : Fin 15) (other : c ≠ 0) : ProductCode.column (grid parityPair) c = 0 := by
  funext r
  rw [ProductCode.column_apply, Pi.zero_apply]
  by_contra set
  exact other ((grid_parityPair r c).mp set).2

theorem parityPair_rows : layout.rowPass (grid parityPair) = grid parityPair := by
  funext r
  by_cases member : r ∈ layout.guarded
  · have zero : grid parityPair r = 0 := by
      funext c
      rw [Pi.zero_apply]
      by_contra set
      have rows := ((grid_parityPair r c).mp set).1
      have data := mem_guarded.mp member
      omega
    rw [Layout.rowPass_light member (by rw [zero, hammingNorm_zero]; decide), zero]
  · exact Layout.rowPass_unguarded member

/-- The column pass takes the pair for a wrong bit in row 0. -/
theorem parityPair_completed :
    layout.colCode.correct (ProductCode.column (grid parityPair) 0) = (Code.mark {0, 9, 10}, true) := by
  have triple : layout.colCode.Triple {0, 9, 10} := ⟨by decide, by decide +kernel⟩
  rw [column_parityPair]
  exact triple.correct (by decide) (by decide)

theorem parityPair_accepted : (decode (sentDibits parityPair)).2 = true := by
  rw [(decode_refines _).1, received_sentDibits, Layout.Accepts, parityPair_rows]
  intro c
  by_cases here : c = 0
  · rw [here, parityPair_completed]
  · rw [parityPair_elsewhere c here, Code.correct_zero]

/-- The second row pass undoes row 0, and the column is left as received. -/
theorem parityPair_final :
    ProductCode.column (grid (decodeMatrix (unpackDibits (sentDibits parityPair))).1) 0 =
      Code.mark {9, 10} := by
  rw [(decodeMatrix_refines _).1, received_sentDibits]
  funext r
  rw [ProductCode.column_apply]
  by_cases member : r ∈ layout.guarded
  · have only : ∀ x, 2 ≤ hammingNorm (ProductCode.column (layout.rowPass (grid parityPair)) x) →
        x = 0 := by
      intro x heavy
      by_contra other
      rw [parityPair_rows, parityPair_elsewhere x other, hammingNorm_zero] at heavy
      omega
    rw [Layout.decode_clears (fun x y hx hy => (only x hx).trans (only y hy).symm) member,
      Pi.zero_apply, Code.mark_of_not_mem]
    revert r
    decide
  · rw [Layout.decode, Layout.rowPass_unguarded member, parityPair_rows, Layout.colPass,
      parityPair_completed]
    revert r
    decide

/-- What acceptance means: every row check holds of the final matrix, every
column check holds of the matrix before the second row pass, and a column check
holds of the final matrix exactly when the flips of that pass satisfy it. One
or two flips in a column never do. -/
theorem accepted_matrix (dibits : Vector UInt8 98) (accepted : (decode dibits).2 = true) :
    (∀ r : Fin 13, r < 9 →
      rowCheck.syndrome (loadRow (decodeMatrix (unpackDibits dibits)).1 r) = 0) ∧
    (∀ c, colCheck.syndrome
      (loadCol (colPass (rowPass (deinterleave (unpackDibits dibits), true))).1 c) = 0) ∧
    ∀ c,
      (colCheck.syndrome (loadCol (decodeMatrix (unpackDibits dibits)).1 c) = 0 ↔
        colCheck.syndrome (loadCol (secondFlips (unpackDibits dibits)) c) = 0) ∧
      (columnCount (secondFlips (unpackDibits dibits)) c = 0 →
        colCheck.syndrome (loadCol (decodeMatrix (unpackDibits dibits)).1 c) = 0) ∧
      (columnCount (secondFlips (unpackDibits dibits)) c = 1 ∨
        columnCount (secondFlips (unpackDibits dibits)) c = 2 →
        colCheck.syndrome (loadCol (decodeMatrix (unpackDibits dibits)).1 c) ≠ 0) := by
  rw [(decode_parts dibits).2] at accepted
  generalize unpackDibits dibits = received at accepted ⊢
  refine ⟨final_rows received, accepted_columns received accepted, fun c => ?_⟩
  have same := final_column_iff received accepted c
  refine ⟨same, fun none => ?_, fun few good => ?_⟩
  · have zero : ProductCode.column (grid (secondFlips received)) c = 0 := by
      rwa [← norm_column, hammingNorm_eq_zero] at none
    rw [same, ← col_codeword_iff, zero]
    exact Code.zero_codeword _
  · rw [same, ← col_codeword_iff] at good
    have count := norm_column (secondFlips received) c
    by_cases zero : ProductCode.column (grid (secondFlips received)) c = 0
    · rw [zero, hammingNorm_zero] at count
      omega
    · have heavy := Code.three_le_norm good zero
      omega

theorem accepted_matrix_parity_pair :
    rowCheck.syndrome
      (loadRow (decodeMatrix (unpackDibits (sentDibits parityPair))).1 0) = 0 :=
  (accepted_matrix (sentDibits parityPair) parityPair_accepted).1 0 (by decide)

/-- A frame with two wrong parity bits in one column is accepted, and its final
matrix fails the check of that column. -/
theorem accepted_inconsistent :
    (decode (sentDibits parityPair)).2 = true ∧
      colCheck.syndrome
        (loadCol (decodeMatrix (unpackDibits (sentDibits parityPair))).1 0) ≠ 0 := by
  refine ⟨parityPair_accepted, fun good => ?_⟩
  rw [← col_codeword_iff, parityPair_final] at good
  have heavy := Code.three_le_norm good fun zero => by
    have set := congrFun zero 9
    rw [Code.mark_of_mem (by decide)] at set
    exact one_ne_zero set
  rw [Code.norm_mark] at heavy
  exact absurd heavy (by decide)

end DmrWatchkeeper.BptcConsistency
