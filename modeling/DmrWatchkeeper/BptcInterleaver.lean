import DmrWatchkeeper.BptcCorrection

/-! The decoder against the documented transmit interleaver. The source takes
`out[k] = in[13k mod 196]` for the inverse of sending bit `n` at position
`181n mod 196`; since `13 · 181 = 1 mod 196` the inverse is
`out[k] = in[181k mod 196]`, and what the source computes is the interleaver
applied twice more: bit `k` of its matrix is bit `169k mod 196` of the sent
one. -/
namespace DmrWatchkeeper.BptcInterleaver
open Bptc19696 BptcRefinement BptcTransmit BptcCorrection SyndromeCode ProductCode

/-- The dibits of a message sent through the documented interleaver: bit `n`
of the matrix at position `i(n) = 181n mod 196`. -/
def interleavedDibits (message : Vector Bool 96) (padding : Bool) : Vector UInt8 98 :=
  packDibits (scatter interleavePosition (productMatrix message padding))

/-- The index that the receiver mistakes for `k`. -/
def mistaken (k : Fin 196) : Fin 196 := ⟨k * 169 % 196, by omega⟩

/-- The cells at which the receiver's matrix differs from the sent one. -/
def displacement (message : Vector Bool 96) (padding : Bool) : Grid (Fin 13) (Fin 15) :=
  fun r c => bit (productMatrix message padding)[mistaken (mat r c)] +
    bit (getElem (productMatrix message padding) (mat r c) (mat_lt r c))

theorem interleavePosition_injective : Function.Injective interleavePosition := by
  intro j k same
  have val : j.val * 181 % 196 = k.val * 181 % 196 := congrArg Fin.val same
  ext
  omega

theorem ownPosition_eq_interleave (k : Fin 196) :
    ownPosition k = interleavePosition (mistaken k) := by
  ext
  simp only [ownPosition, interleavePosition, mistaken]
  omega

theorem grid_interleaved (message : Vector Bool 96) (padding : Bool) :
    grid (deinterleave (unpackDibits (interleavedDibits message padding))) =
      grid (productMatrix message padding) + displacement message padding := by
  funext r c
  rw [interleavedDibits, unpack_pack, grid, deinterleave_apply]
  simp only [ownPosition_eq_interleave, scatter_at interleavePosition_injective]
  rw [Pi.add_apply, Pi.add_apply, displacement, grid, add_comm, add_assoc,
    CharTwo.add_self_eq_zero, add_zero]

/-- The displaced parity cells of a column are those whose checks cover the row. -/
def Names (errors : Grid (Fin 13) (Fin 15)) (c : Fin 15) (r : Fin 13) : Prop :=
  ∀ j, errors (colCheck.parity j) c ≠ 0 ↔ r ∈ colCheck.covers j

/-- At most one parity cell of a column is displaced, or those of a data row. -/
def Explained (errors : Grid (Fin 13) (Fin 15)) (c : Fin 15) : Prop :=
  (∀ j j', errors (colCheck.parity j) c ≠ 0 → errors (colCheck.parity j') c ≠ 0 → j = j') ∨
    ∃ r < 9, Names errors c r

/-- No data row has two displaced cells. -/
def Light (errors : Grid (Fin 13) (Fin 15)) : Prop :=
  ∀ r < 9, ∀ c c', errors r c ≠ 0 → errors r c' ≠ 0 → c = c'

/-- No two displaced cells share a data row, and no two columns are explained by
the same data row. -/
structure Scattered (errors : Grid (Fin 13) (Fin 15)) : Prop where
  rows : Light errors
  columns : ∀ c, Explained errors c
  once : ∀ r < 9, ∀ c c', Names errors c r → Names errors c' r → c = c'

section Passes
variable {errors : Grid (Fin 13) (Fin 15)}

theorem parity_or_data (r : Fin 13) : r < 9 ∨ ∃ j, colCheck.parity j = r := by
  revert r
  decide

theorem parity_unguarded (j : Fin 4) : colCheck.parity j ∉ layout.guarded := by
  rw [mem_guarded]
  revert j
  decide

/-- A parity position takes part in its own check only. -/
theorem column_parity (j k : Fin 4) : Hamming.column colCheck (colCheck.parity k) j = if k = j then 1 else 0 := by
  revert j k
  decide

variable (light : Light errors)
include light

theorem norm_of_light {r : Fin 13} (data : r < 9) : hammingNorm (errors r) ≤ 1 :=
  Layout.norm_row_le_one (light r data)

/-- Behind the first row pass only the parity cells of a column count. -/
theorem column_syndrome (c : Fin 15) : layout.colCode.syndrome (ProductCode.column (layout.rowPass errors) c) =
    fun j => errors (colCheck.parity j) c := by
  funext j
  have apply : layout.colCode.syndrome (ProductCode.column (layout.rowPass errors) c) j =
      ∑ r, layout.rowPass errors r c * Hamming.column colCheck r j := by
    simp only [Code.syndrome, Finset.sum_apply]
    rfl
  rw [apply, Finset.sum_eq_single (colCheck.parity j)]
  · rw [column_parity, if_pos rfl, mul_one, Layout.rowPass_unguarded (parity_unguarded j)]
  · intro r _ other
    rcases parity_or_data r with data | ⟨k, rfl⟩
    · rw [Layout.rowPass_light (mem_guarded.mpr data) (norm_of_light light data), Pi.zero_apply, zero_mul]
    · rw [column_parity, if_neg (fun same => other (congrArg _ same)), mul_zero]
  · exact fun absent => absurd (Finset.mem_univ _) absent

theorem names_iff {r : Fin 13} (data : r < 9) (c : Fin 15) : Names errors c r ↔
    layout.colCode.check r = layout.colCode.syndrome (ProductCode.column (layout.rowPass errors) c) := by
  have covers : ∀ r < 9, ∀ j, Hamming.column colCheck r j = if r ∈ colCheck.covers j then 1 else 0 := by decide
  have two : ∀ (a : ZMod 2) (b : Bool), (a ≠ 0 ↔ b = true) ↔ (if b = true then 1 else 0) = a := by decide
  rw [column_syndrome light, funext_iff]
  refine forall_congr' fun j => ?_
  rw [show layout.colCode.check r j = _ from covers r data j]
  simpa using two (errors (colCheck.parity j) c) (decide (r ∈ colCheck.covers j))

/-- The column pass accepts columns that look clean, or like a flip of one cell. -/
theorem accepts_light : layout.Accepts errors ↔ ∀ c, Explained errors c := by
  refine forall_congr' fun c => ?_
  rw [Code.correct_accepts_iff]
  constructor
  · rintro (zero | ⟨r, flip⟩)
    · rw [column_syndrome light] at zero
      exact .inl fun j _ set _ => absurd (congrFun zero j) set
    · rcases parity_or_data r with data | ⟨k, rfl⟩
      · exact .inr ⟨r, data, (names_iff light data c).mpr flip⟩
      · rw [column_syndrome light] at flip
        have only : ∀ j, errors (colCheck.parity j) c ≠ 0 → j = k := by
          intro j set
          by_contra other
          refine set ((congrFun flip j).symm.trans ?_)
          exact (column_parity j k).trans (if_neg (Ne.symm other))
        exact .inl fun j j' set set' => (only j set).trans (only j' set').symm
  · rintro (few | ⟨r, data, names⟩)
    · rw [column_syndrome light]
      by_cases zero : ∀ j, errors (colCheck.parity j) c = 0
      · exact .inl (funext zero)
      · obtain ⟨k, set⟩ := not_forall.mp zero
        refine .inr ⟨colCheck.parity k, funext fun j => ?_⟩
        refine (column_parity j k).trans ?_
        have two : ∀ a : ZMod 2, a ≠ 0 → a = 1 := by decide
        by_cases here : k = j
        · subst here
          rw [if_pos rfl, two _ set]
        · rw [if_neg here]
          by_contra other
          exact here (few k j set (Ne.symm other))
    · exact .inr ⟨r, (names_iff light data c).mp names⟩

theorem colPass_names {r : Fin 13} (data : r < 9) (c : Fin 15) :
    layout.colPass (layout.rowPass errors) r c ≠ 0 ↔ Names errors c r := by
  rw [names_iff light data,
    Layout.colPass_rowPass_light (mem_guarded.mpr data) (norm_of_light light data)]

end Passes

/-- A row word without data is zero. -/
theorem row_codeword_zero {w : Word (Fin 15)} (good : layout.rowCode.Codeword w) (data : ∀ c < 11, w c = 0) : w = 0 := by
  have split : ∀ c : Fin 15, c < 11 ∨ ∃ j, rowCheck.parity j = c := by decide
  have own : ∀ j k, Hamming.column rowCheck (rowCheck.parity k) j = if k = j then 1 else 0 := by decide
  funext c
  rcases split c with low | ⟨j, rfl⟩
  · exact data c low
  · have check := congrFun good j
    have apply : layout.rowCode.syndrome w j = ∑ c, w c * Hamming.column rowCheck c j := by
      simp only [Code.syndrome, Finset.sum_apply]
      rfl
    rw [apply, Finset.sum_eq_single (rowCheck.parity j), own, if_pos rfl, mul_one] at check
    · exact check
    · intro c _ other
      rcases split c with low | ⟨k, rfl⟩
      · rw [data c low, zero_mul]
      · rw [own, if_neg (fun same => other (congrArg _ same)), mul_zero]
    · exact fun absent => absurd (Finset.mem_univ _) absent

/-- A message whose displaced cells are scattered survives the documented
interleaver. Of the messages without two displaced cells in a data row no others
survive, up to columns that are explained by data row 8, whose last three data
cells carry no message bits. -/
theorem decode_interleaved_scattered (message : Vector Bool 96) (padding : Bool) :
    (Scattered (displacement message padding) →
      decode (interleavedDibits message padding) = (message, true)) ∧
    (Light (displacement message padding) → decode (interleavedDibits message padding) = (message, true) →
      (∀ c, Explained (displacement message padding) c) ∧
        ∀ r < 8, ∀ c c', Names (displacement message padding) c r →
          Names (displacement message padding) c' r → c = c') := by
  have shifted := grid_interleaved message padding
  generalize displacement message padding = errors at shifted ⊢
  rw [Prod.ext_iff, decode_eq_message_iff shifted, (decode_shifted shifted).1]
  constructor
  · intro scattered
    refine ⟨fun k => ?_, (accepts_light scattered.rows).mpr scattered.columns⟩
    have guarded := outputCell_guarded k
    have data := mem_guarded.mp guarded
    have named : hammingNorm (layout.colPass (layout.rowPass errors) (outputCell k).1) ≤ 1 :=
      Layout.norm_row_le_one fun c c' set set' => scattered.once _ data c c'
        ((colPass_names scattered.rows data c).mp set) ((colPass_names scattered.rows data c').mp set')
    exact congrFun (Layout.rowPass_light guarded named) _
  · rintro light ⟨clean, accepts⟩
    refine ⟨(accepts_light light).mp accepts, fun r early c c' names names' => ?_⟩
    have data : r < 9 := early.trans (by decide)
    have layer := Layout.rowPass_eq_iff.mp (rfl : layout.rowPass (layout.colPass (layout.rowPass errors)) = _) r
    rw [if_pos (mem_guarded.mpr data)] at layer
    obtain ⟨good, near⟩ := layer
    -- Every data cell of the row is an output cell, so the third pass has left nothing.
    have gone : layout.decode errors r = 0 := by
      refine row_codeword_zero good fun c low => ?_
      have bound : 11 * r.val + c.val < 96 := by
        have row : r.val < 8 := early
        have col : c.val < 11 := low
        omega
      have cell : outputCell ⟨11 * r + c, bound⟩ = (r, c) := by
        have col : c.val < 11 := low
        simp only [outputCell, Prod.mk.injEq, Fin.ext_iff]
        omega
      have out := clean ⟨11 * r + c, bound⟩
      rwa [cell] at out
    rw [← Layout.decode, gone, hammingDist_zero_right] at near
    exact Finset.card_le_one.mp near c (by simpa using (colPass_names light data c).mpr names) c'
      (by simpa using (colPass_names light data c').mpr names')

/-- Columns from known rows. -/
theorem colWord_of_rows {message : Vector Bool 96} {cells : List (Fin 13 × Fin 15)}
    (rows : ∀ (r : Fin 13) (c : Fin 15),
      (if r < 9 then getElem (rowWord message r) c (rowWord_lt c) else false) = decide ((r, c) ∈ cells)) (c : Fin 15) :
    colWord message c = hammingEncode colCheck (Vector.ofFn fun r => decide ((r, c) ∈ cells)) := by
  simp only [colWord, rows]

/-- A message whose bits 2, 5, 7, 15, 19, 37 and 41 are set. -/
def sevenBits : Vector Bool 96 := Vector.ofFn fun k => decide (k ∈ ([2, 5, 7, 15, 19, 37, 41] : List (Fin 96)))

/-- The cells of its matrix that the receiver sees displaced. -/
def displacedCells : List (Fin 13 × Fin 15) :=
  [(0, 5), (1, 4), (3, 0), (4, 14), (5, 4), (6, 6), (7, 9), (9, 2), (9, 7), (9, 10), (10, 2), (10, 5), (10, 7),
    (10, 8), (10, 9), (10, 13), (11, 0), (11, 2), (12, 3)]

private theorem sevenBits_columns (c : Fin 15) : colWord sevenBits c = hammingEncode colCheck
    (Vector.ofFn fun r => decide ((r, c) ∈ ([(0, 2), (0, 5), (0, 7), (1, 4), (1, 8), (1, 13), (3, 4), (3, 8),
      (3, 13)] : List (Fin 13 × Fin 15)))) :=
  colWord_of_rows (by decide +kernel) c

private theorem sevenBits_displaced : ∀ r c,
    displacement sevenBits true r c = if (r, c) ∈ displacedCells then 1 else 0 := by
  simp only [displacement, productMatrix, sevenBits_columns, hammingEncode, HammingCheck.xorOf, Fin.getElem_fin, Vector.getElem_ofFn]
  decide +kernel

theorem decode_interleaved_scattered_seven_bits : Scattered (displacement sevenBits true) ∧
    decode (interleavedDibits sevenBits true) = (sevenBits, true) := by
  have scattered : Scattered (displacement sevenBits true) := by
    constructor <;> simp only [Light, Explained, Names, sevenBits_displaced] <;> decide
  exact ⟨scattered, (decode_interleaved_scattered sevenBits true).1 scattered⟩

/-- The message whose only set bit is the first. -/
def firstBit : Vector Bool 96 := Vector.ofFn fun k => k = 0

/-- The nine stray bits that the receiver sees for that message. -/
def strayCells : List (Fin 13 × Fin 15) :=
  [(0, 0), (2, 8), (7, 13), (8, 3), (9, 12), (10, 2), (10, 11), (12, 10), (12, 11)]

private theorem firstBit_columns (c : Fin 15) : colWord firstBit c = hammingEncode colCheck
    (Vector.ofFn fun r => decide ((r, c) ∈ ([(0, 0), (0, 11), (0, 12)] : List (Fin 13 × Fin 15)))) :=
  colWord_of_rows (by decide +kernel) c

private theorem firstBit_received :
    ∀ r c, (productMatrix firstBit false)[mistaken (mat r c)] = decide ((r, c) ∈ strayCells) := by
  simp only [productMatrix, firstBit_columns, Fin.getElem_fin, Vector.getElem_ofFn]
  decide +kernel

/-- No data row keeps two stray bits and only column 11 holds two of them, so
every data row is cleared, the first message bit included. -/
theorem interleaver_not_undone :
    decode (interleavedDibits firstBit false) ≠ (firstBit, true) := by
  intro undone
  have refined := decode_refines (interleavedDibits firstBit false)
  have stray : ∀ r c, grid (deinterleave (unpackDibits (interleavedDibits firstBit false))) r c ≠ 0 ↔
      (r, c) ∈ strayCells := by
    intro r c
    rw [interleavedDibits, unpack_pack, grid, deinterleave_apply]
    simp only [ownPosition_eq_interleave, scatter_at interleavePosition_injective,
      firstBit_received, ne_eq, bit_eq_zero, decide_eq_false_iff_not, not_not]
  generalize grid (deinterleave (unpackDibits (interleavedDibits firstBit false))) = G at refined stray
  have spread : ∀ r < 9, ∀ c c', (r, c) ∈ strayCells → (r, c') ∈ strayCells → c = c' := by decide
  have light : layout.overloaded G = ∅ := by
    refine Finset.eq_empty_of_forall_notMem fun r member => ?_
    obtain ⟨guarded, heavy⟩ := Layout.mem_overloaded.mp member
    have one := Layout.norm_row_le_one fun c c' left right =>
      spread r (mem_guarded.mp guarded) c c' ((stray r c).mp left) ((stray r c').mp right)
    omega
  have pairs : ∀ p q c, p ≠ q → (p, c) ∈ strayCells → (q, c) ∈ strayCells → c = 11 := by decide
  have heavy : ∀ c, 2 ≤ hammingNorm (ProductCode.column (layout.rowPass G) c) → c = 11 := by
    intro c two
    have bound := Layout.norm_column_rowPass_le (L := layout) (E := G) c
    rw [light, Finset.card_empty, zero_add] at bound
    obtain ⟨p, left, q, right, apart⟩ := Finset.one_lt_card.mp (lt_of_lt_of_le two bound)
    have left := (stray p c).mp (Finset.mem_filter.mp left).2.2
    have right := (stray q c).mp (Finset.mem_filter.mp right).2.2
    exact pairs p q c apart left right
  have cleared : layout.decode G 0 = 0 :=
    Layout.decode_clears (fun x y hx hy => (heavy x hx).trans (heavy y hy).symm) (by decide)
  have sent : (decode (interleavedDibits firstBit false)).1 = firstBit := by rw [undone]
  have out := refined.2 0
  rw [sent] at out
  have zero := congrFun cleared (outputCell 0).2
  exact absurd (out.trans zero) (by decide)

end DmrWatchkeeper.BptcInterleaver
