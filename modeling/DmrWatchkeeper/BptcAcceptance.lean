import DmrWatchkeeper.BptcCorrection
import DmrWatchkeeper.Library.FourErrors

/-! Which patterns of up to four channel errors the decoder accepts with a
wrong message. The row code answers every syndrome, so two errors in a data row
become three; only the column syndromes 14 and 15 can still refuse. -/
namespace DmrWatchkeeper.BptcAcceptance
open Bptc19696 BptcRefinement BptcTransmit BptcCorrection SyndromeCode SyndromeCode.Code ProductCode

/-- The cell is one of the 96 output cells. -/
def Output (r : Fin 13) (c : Fin 15) : Prop := ∃ k, outputCell k = (r, c)

/-- The arrangements of four errors that pass for a correctable pattern. -/
inductive Disguised (errors : Finset (Fin 196)) : Prop
  | dataRows {cols : Finset (Fin 15)} {r r' : Fin 13} {P P' : Finset (Fin 15)}
      (arranged : layout.TwoRows (errorGrid errors) cols r r' P P')
  | dataRow {cols : Finset (Fin 15)} {r p q : Fin 13} {P : Finset (Fin 15)} {x y : Fin 15}
      (arranged : layout.RowAndSpares (errorGrid errors) cols r p q P x y)
      (shown : p = q ∨ ∃ c ∈ cols, Output r c)
  | parityRows {p q : Fin 13} {x y : Fin 15}
      (arranged : layout.SpareSquare (errorGrid errors) p q x y)

/-! ### The parity positions of a check -/

/-- A codeword that is zero outside the parity positions is zero. -/
theorem parity_independent {n : ℕ} {check : HammingCheck n} (ok : Hamming.WellFormed check)
    (sys : Systematic check) {w : Word (Fin n)} (data : ∀ i, (∀ j, check.parity j ≠ i) → w i = 0)
    (good : (Hamming.code check ok).Codeword w) : w = 0 := by
  funext i
  by_cases free : ∀ j, check.parity j ≠ i
  · exact data i free
  push Not at free
  obtain ⟨j, rfl⟩ := free
  have zero : ∑ i, w i * Hamming.column check i j = 0 := by
    have entry := congrFun good j
    rw [Code.syndrome, Finset.sum_apply] at entry
    exact entry
  rw [Finset.sum_eq_single (check.parity j)] at zero
  · simpa [Hamming.column] using zero
  · intro i _ other
    by_cases free : ∀ k, check.parity k ≠ i
    · rw [data i free, zero_mul]
    · push Not at free
      obtain ⟨k, rfl⟩ := free
      simp [Hamming.column, sys.separate j k, other]
  · simp

theorem spareIndependent : layout.SpareIndependent := by
  intro w data good
  refine parity_independent col_wellFormed col_systematic (fun i free => data i ?_) good
  rw [mem_guarded]
  revert i
  decide

/-- Every row triple reaches into the eleven data columns. -/
theorem triple_has_data {cols : Finset (Fin 15)} (triple : layout.rowCode.Triple cols) :
    ∃ c ∈ cols, c < 11 := by
  by_contra none
  push Not at none
  have free : ∀ i : Fin 15, (∀ j, rowCheck.parity j ≠ i) → i < 11 := by decide
  have zero := parity_independent row_wellFormed row_systematic (w := mark cols)
    (fun i data => mark_of_not_mem fun member => absurd (free i data) (not_lt.mpr (none i member)))
    triple.codeword
  have three := triple.three
  rw [← norm_mark, zero, hammingNorm_zero] at three
  omega

theorem output_of_data {r : Fin 13} {c : Fin 15} (row : r < 8) (column : c < 11) : Output r c := by
  refine ⟨⟨r * 11 + c, by omega⟩, ?_⟩
  simp only [outputCell, Prod.mk.injEq, Fin.ext_iff]
  omega

/-- Two parity rows are joined by one of rows 0 to 7. -/
theorem parity_rows_joined : ∀ p q : Fin 13, 9 ≤ p → 9 ≤ q → p ≠ q →
    ∃ t : Fin 13, t < 8 ∧ t ≠ p ∧ t ≠ q ∧ Hamming.column colCheck t +
      (Hamming.column colCheck p + Hamming.column colCheck q) = 0 := by
  decide +kernel

/-- Row 8 and a parity row are joined by one of rows 0 to 7, if at all. -/
theorem last_row_joined : ∀ p t : Fin 13, 9 ≤ p → Hamming.column colCheck t +
    (Hamming.column colCheck 8 + Hamming.column colCheck p) = 0 → t < 8 := by
  decide +kernel

/-! ### Disguised patterns -/

section Disguised
variable (message : Vector Bool 96) (padding : Bool) {errors : Finset (Fin 196)}

/-- An accepted grid with an output cell of a wrong row in a triple of columns
gives a wrong message. -/
theorem silent_of_row {t : Fin 13} {c : Fin 15} {cols : Finset (Fin 15)}
    (settled : layout.Accepts (errorGrid errors) ∧ layout.decode (errorGrid errors) t = mark cols)
    (member : c ∈ cols) (output : Output t c) :
    (decode (receivedDibits message padding errors)).2 = true ∧
      (decode (receivedDibits message padding errors)).1 ≠ message := by
  have shifted := grid_received message padding errors
  refine ⟨(decode_shifted shifted).1.mpr settled.1, fun same => ?_⟩
  obtain ⟨k, cell⟩ := output
  have clean := (decode_eq_message_iff shifted).mp same k
  rw [cell, settled.2, mark_of_mem member] at clean
  exact one_ne_zero clean

theorem TwoRows.silent {cols : Finset (Fin 15)} {r r' : Fin 13} {P P' : Finset (Fin 15)}
    (arranged : layout.TwoRows (errorGrid errors) cols r r' P P') (few : errors.card ≤ 4) :
    (decode (receivedDibits message padding errors)).2 = true ∧
      (decode (receivedDibits message padding errors)).1 ≠ message := by
  obtain ⟨accepts, first, second⟩ := arranged.settles ((weight_errorGrid_le errors).trans few)
  obtain ⟨c, member, data⟩ := triple_has_data arranged.triple
  have inside := mem_guarded.mp arranged.inside
  have inside' := mem_guarded.mp arranged.inside'
  have apart := arranged.distinct
  by_cases upper : r < 8
  · exact silent_of_row message padding ⟨accepts, first⟩ member (output_of_data upper data)
  · exact silent_of_row message padding ⟨accepts, second⟩ member (output_of_data (by omega) data)

theorem RowAndSpares.silent {cols : Finset (Fin 15)} {r p q : Fin 13} {P : Finset (Fin 15)}
    {x y : Fin 15} (arranged : layout.RowAndSpares (errorGrid errors) cols r p q P x y)
    (shown : p = q ∨ ∃ c ∈ cols, Output r c) (few : errors.card ≤ 4) :
    (decode (receivedDibits message padding errors)).2 = true ∧
      (decode (receivedDibits message padding errors)).1 ≠ message := by
  have light := (weight_errorGrid_le errors).trans few
  obtain ⟨rows, triple, inR, inP⟩ := arranged.joined
  obtain ⟨rows', triple', inR', inQ⟩ := arranged.joined'
  have held : {r, p} ⊆ rows := by simp [Finset.insert_subset_iff, inR, inP]
  have held' : {r, q} ⊆ rows' := by simp [Finset.insert_subset_iff, inR', inQ]
  have own := arranged.settles light triple triple' held held' arranged.inside inR inR'
  rcases shown with same | ⟨c, member, output⟩
  · subst same
    obtain ⟨c, member, data⟩ := triple_has_data arranged.triple
    by_cases upper : r < 8
    · exact silent_of_row message padding own member (output_of_data upper data)
    -- Row 8 may keep its errors out of sight, but then row `t` shows them.
    · have inside := mem_guarded.mp arranged.inside
      have last : r = 8 := by omega
      obtain ⟨t, inT, -, -, cancels⟩ := triple.third inR inP arranged.ne_spare
      rw [last] at cancels
      have outside : 9 ≤ p := not_lt.mp fun data => arranged.outside (mem_guarded.mpr data)
      have above := last_row_joined p t outside cancels
      have third := arranged.settles light triple triple held held
        (mem_guarded.mpr (by omega)) inT inT
      exact silent_of_row message padding third member (output_of_data above data)
  · exact silent_of_row message padding own member output

theorem SpareSquare.silent {p q : Fin 13} {x y : Fin 15}
    (square : layout.SpareSquare (errorGrid errors) p q x y) (few : errors.card ≤ 4) :
    (decode (receivedDibits message padding errors)).2 = true ∧
      (decode (receivedDibits message padding errors)).1 ≠ message := by
  have outside : 9 ≤ p := not_lt.mp fun data => square.outside (mem_guarded.mpr data)
  have outside' : 9 ≤ q := not_lt.mp fun data => square.outside' (mem_guarded.mpr data)
  obtain ⟨t, above, notP, notQ, cancels⟩ := parity_rows_joined p q outside outside' square.rows
  obtain ⟨cols, triple, within⟩ := triple_of_pair layout.rowCode
    (Finset.card_pair square.columns) (correct_of_perfect layout.rowPerfect _)
  obtain ⟨c, member, data⟩ := triple_has_data triple
  have settled := square.settles ((weight_errorGrid_le errors).trans few)
    (triple_of_sum notP notQ square.rows cancels) (by simp) triple within
    (mem_guarded.mpr (show t < 9 by omega)) (by simp)
  exact silent_of_row message padding settled member (output_of_data above data)

end Disguised

/-- Up to four errors are accepted with a wrong message exactly when they are
arranged in one of the three disguised ways. -/
theorem decode_not_silent_iff (message : Vector Bool 96) (padding : Bool)
    (errors : Finset (Fin 196)) (few : errors.card ≤ 4) :
    ((decode (receivedDibits message padding errors)).2 = true →
      (decode (receivedDibits message padding errors)).1 = message) ↔ ¬Disguised errors := by
  have shifted := grid_received message padding errors
  constructor
  · rintro honest (arranged | ⟨arranged, shown⟩ | arranged)
    · have silent := TwoRows.silent message padding arranged few
      exact silent.2 (honest silent.1)
    · have silent := RowAndSpares.silent message padding arranged shown few
      exact silent.2 (honest silent.1)
    · have silent := SpareSquare.silent message padding arranged few
      exact silent.2 (honest silent.1)
  · intro plain accepted
    by_contra different
    rw [decode_eq_message_iff shifted] at different
    push Not at different
    obtain ⟨k, wrong⟩ := different
    have row : layout.decode (errorGrid errors) (outputCell k).1 ≠ 0 :=
      fun clean => wrong (congrFun clean _)
    rcases Layout.wrong_row_cases spareIndependent ((weight_errorGrid_le errors).trans few)
      ((decode_shifted shifted).1.mp accepted) (outputCell_guarded k) row with
      ⟨cols, r, r', P, P', arranged⟩ | ⟨cols, r, p, q, P, x, y, arranged, left⟩ | ⟨p, q, x, y, square⟩
    · exact plain (.dataRows arranged)
    · refine plain (.dataRow arranged (left.imp_right ?_))
      rintro ⟨here, settled⟩
      rw [settled, mark_ne_zero] at wrong
      exact ⟨_, wrong, k, by rw [← here]⟩
    · exact plain (.parityRows square)

/-- A square of errors in parity rows 9 and 10. -/
theorem decode_not_silent_iff_parity_square :
    ({3, 4, 186, 187} : Finset (Fin 196)).card ≤ 4 ∧
      ¬((decode (receivedDibits (Vector.replicate 96 true) false {3, 4, 186, 187})).2 = true →
        (decode (receivedDibits (Vector.replicate 96 true) false {3, 4, 186, 187})).1 =
          Vector.replicate 96 true) := by
  refine ⟨by decide, fun honest => ?_⟩
  refine (decode_not_silent_iff _ _ _ (by decide)).mp honest (.parityRows (p := 9) (q := 10)
    (x := 0) (y := 1) ?_)
  constructor <;> decide

/-- A square of errors in data rows 0 and 1 is accepted with a wrong message. -/
theorem four_errors_accepted_wrong :
    ({0, 12, 13, 195} : Finset (Fin 196)).card ≤ 4 ∧
      (decode (receivedDibits (Vector.replicate 96 false) false {0, 12, 13, 195})).2 = true ∧
      (decode (receivedDibits (Vector.replicate 96 false) false {0, 12, 13, 195})).1 ≠
        Vector.replicate 96 false := by
  have triple : layout.rowCode.Triple {0, 1, 2} := ⟨by decide, by decide +kernel⟩
  have rows : layout.colCode.Triple {0, 1, 2} := ⟨by decide, by decide +kernel⟩
  have arranged : layout.TwoRows (errorGrid {0, 12, 13, 195}) {0, 1, 2} 0 1 {0, 1} {0, 1} :=
    { triple
      distinct := by decide
      inside := by decide
      inside' := by decide
      within := by decide
      within' := by decide
      two := by decide
      two' := by decide
      wrong := by decide
      wrong' := by decide
      joined := ⟨_, rows, by decide, by decide⟩ }
  exact ⟨by decide, TwoRows.silent _ _ arranged (by decide)⟩

end DmrWatchkeeper.BptcAcceptance
