import DmrWatchkeeper.BptcLinearity

/-! Patterns of many errors that the decoder removes because of how they lie:
the first row pass confines what it cannot correct to one bit for each column,
the column pass removes that, and the second row pass finds nothing to do. -/
namespace DmrWatchkeeper.BptcStructured
open Bptc19696 BptcRefinement BptcTransmit BptcCorrection BptcLinearity SyndromeCode ProductCode

/-- The wrong bits in one row of the matrix. -/
def rowErrors (e : Vector Bool 196) (r : Fin 13) : ℕ :=
  (Finset.univ.filter fun c : Fin 15 => getElem e (mat r c) (mat_lt r c) = true).card

/-- The wrong bits of one column in rows 9 to 12. -/
def parityErrors (e : Vector Bool 196) (c : Fin 15) : ℕ :=
  (Finset.univ.filter fun r : Fin 13 => 9 ≤ r ∧ getElem e (mat r c) (mat_lt r c) = true).card

/-- Errors on the matrix, in either of two shapes; the padding bit is free. -/
inductive Structured (e : Vector Bool 196) : Prop
  | scattered (rows : ∀ r : Fin 13, r < 9 → rowErrors e r ≤ 1) (columns : ∀ c, parityErrors e c ≤ 1)
  | oneRow (clean : ∀ c, parityErrors e c = 0)
      (single : ∀ r r' : Fin 13, r < 9 → r' < 9 → 2 ≤ rowErrors e r → 2 ≤ rowErrors e r' → r = r')

variable {e : Vector Bool 196}

theorem norm_grid (e : Vector Bool 196) (r : Fin 13) : hammingNorm (grid e r) = rowErrors e r := by
  simp [hammingNorm, rowErrors, grid]

theorem unguarded_grid (e : Vector Bool 196) (c : Fin 15) :
    layout.unguarded (grid e) c = parityErrors e c := by
  simp [Layout.unguarded, parityErrors, grid]

/-- Either shape leaves at most one error to each column. -/
theorem Structured.light (structured : Structured e) (c : Fin 15) :
    (layout.overloaded (grid e)).card + layout.unguarded (grid e) c ≤ 1 := by
  rw [unguarded_grid]
  cases structured with
  | scattered rows columns =>
    have none : layout.overloaded (grid e) = ∅ := by
      refine Finset.eq_empty_of_forall_notMem fun r member => ?_
      obtain ⟨guarded, heavy⟩ := Layout.mem_overloaded.mp member
      have light := rows r (mem_guarded.mp guarded)
      rw [norm_grid] at heavy
      omega
    rw [none, Finset.card_empty, Nat.zero_add]
    exact columns c
  | oneRow clean single =>
    rw [clean c, Nat.add_zero, Finset.card_le_one]
    intro r member r' member'
    obtain ⟨guarded, heavy⟩ := Layout.mem_overloaded.mp member
    obtain ⟨guarded', heavy'⟩ := Layout.mem_overloaded.mp member'
    rw [norm_grid] at heavy heavy'
    exact single r r' (mem_guarded.mp guarded) (mem_guarded.mp guarded') heavy heavy'

/-- Every message survives every structured error pattern. -/
theorem decode_corrects_structured (message : Vector Bool 96) (padding : Bool) (e : Vector Bool 196)
    (structured : Structured e) :
    decode (sentDibits (xorBits (productMatrix message padding) e)) = (message, true) := by
  have shifted : grid (deinterleave (unpackDibits
      (sentDibits (xorBits (productMatrix message padding) e)))) =
        grid (productMatrix message padding) + grid e := by
    rw [received_sentDibits, grid_xorBits]
  obtain ⟨accepts, cleared⟩ := Layout.settles_of_light structured.light
  refine Prod.ext ((decode_eq_message_iff shifted).mpr fun k => ?_)
    ((decode_shifted shifted).1.mpr accepts)
  rw [cleared _ (outputCell_guarded k), Pi.zero_apply]

/-- Every bit of row 4 wrong, and one bit of row 0. -/
theorem decode_corrects_structured_row_four :
    decode (sentDibits (xorBits (productMatrix (Vector.replicate 96 true) false)
      (Vector.ofFn fun k => k = 3 ∨ 60 ≤ k ∧ k < 75))) = (Vector.replicate 96 true, true) :=
  decode_corrects_structured _ _ _ (.oneRow (by decide +kernel) (by decide +kernel))

end DmrWatchkeeper.BptcStructured
