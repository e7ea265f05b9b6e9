import DmrWatchkeeper.Bptc19696
import DmrWatchkeeper.Library.Loop
import DmrWatchkeeper.Library.ProductCode
import Mathlib.Tactic.FinCases

/-! The decoder's bit manipulation is syndrome decoding: `correct_row` and
`correct_col` are two instances of one code-directed correction, and the three
passes over the flat matrix are the three passes of a product code. Everything
later proved about decoding goes through this module. -/
namespace DmrWatchkeeper.BptcRefinement
open Bptc19696 SyndromeCode ProductCode

/-! ### Bits as elements of the two-element field -/

def bit (b : Bool) : ZMod 2 := if b then 1 else 0

@[simp] theorem bit_false : bit false = 0 := rfl

@[simp] theorem bit_true : bit true = 1 := rfl

@[simp] theorem bit_xor (a b : Bool) : bit (a ^^ b) = bit a + bit b := by
  cases a <;> cases b <;> decide

@[simp] theorem bit_not (a : Bool) : bit (!a) = bit a + 1 := by cases a <;> decide

@[simp] theorem bit_eq_zero {a : Bool} : bit a = 0 ↔ a = false := by cases a <;> decide

theorem bit_injective : Function.Injective bit := by decide

/-- A word of bits as a word of the code library. -/
def word {n : ℕ} (v : Vector Bool n) : Word (Fin n) := fun i => bit (getElem v i i.isLt)

@[simp] theorem word_apply {n : ℕ} (v : Vector Bool n) (i : Fin n) : word v i = bit (getElem v i i.isLt) := rfl

theorem word_flip {n : ℕ} (v : Vector Bool n) (i : Fin n) :
    word (v.setIfInBounds i (!v.getD i false)) = word v + Pi.single i 1 := by
  funext j
  by_cases here : j = i
  · subst j
    simp [Vector.getD]
  · have apart : (i : ℕ) ≠ j := fun same => here (Fin.ext same).symm
    simp [apart, here]

/-! ### The two Hamming checks as codes -/

/-- The four parity checks of a position. -/
abbrev Syndrome := Fin 4 → ZMod 2

namespace Hamming
variable {n : ℕ} {check : HammingCheck n}

def column (check : HammingCheck n) (i : Fin n) : Syndrome :=
  fun j => if i ∈ check.covers j ∨ i = check.parity j then 1 else 0

/-- The number that a syndrome is as the integer `s` of the source. -/
def number (s : Syndrome) : ℕ :=
  (s 0).val ||| ((s 1).val <<< 1) ||| ((s 2).val <<< 2) ||| ((s 3).val <<< 3)

/-- The table lookup, with out-of-table and out-of-word answers as `none`. -/
def located (check : HammingCheck n) (s : Syndrome) : Option (Fin n) :=
  let pos := check.errPos.getD (number s &&& 0xF) (-1)
  if h : 0 ≤ pos ∧ pos.toNat < n then some ⟨pos.toNat, h.2⟩ else none

/-- What makes a check a code: parity bits cover themselves only, and the
table lists exactly the columns. -/
structure WellFormed (check : HammingCheck n) : Prop where
  nodup : ∀ j, (check.covers j).Nodup
  apart : ∀ j, check.parity j ∉ check.covers j
  table : ∀ s i, located check s = some i ↔ column check i = s
  unlisted : ∀ s, s ≠ 0 → located check s = none →
    check.errPos.getD (number s &&& 0xF) (-1) < 0
  nonzero : ∀ i, column check i ≠ 0

def code (check : HammingCheck n) (ok : WellFormed check) : Code (Fin n) Syndrome where
  check := column check
  locate := located check
  locate_iff := ok.table
  check_ne_zero := ok.nonzero

theorem bit_xorOf (v : Vector Bool n) (positions : List (Fin n)) :
    bit (HammingCheck.xorOf v positions) = (positions.map (word v)).sum := by
  induction positions with
  | nil => rfl
  | cons i rest ih =>
    simp only [HammingCheck.xorOf, List.map_cons, List.foldr_cons, List.sum_cons, bit_xor] at ih ⊢
    rw [ih, word_apply]

/-- The four computed syndrome bits are the library's syndrome. -/
theorem syndrome_apply (ok : WellFormed check) (v : Vector Bool n) (j : Fin 4) :
    (code check ok).syndrome (word v) j = bit (check.syndromeBit v j) := by
  have split : ∀ i, (word v i • column check i) j =
      (if i ∈ (check.covers j).toFinset then word v i else 0) +
        if i = check.parity j then word v i else 0 := by
    intro i
    by_cases covered : i ∈ check.covers j
    · have other : i ≠ check.parity j := fun same => ok.apart j (same ▸ covered)
      simp [column, covered, other]
    · by_cases own : i = check.parity j
      · simp [column, own, ok.apart j]
      · simp [column, covered, own]
  have total : (code check ok).syndrome (word v) j = ∑ i, (word v i • column check i) j := by
    simp only [Code.syndrome, Finset.sum_apply]
    rfl
  rw [total, Finset.sum_congr rfl fun i _ => split i, Finset.sum_add_distrib,
    Finset.sum_ite_mem, Finset.univ_inter, Finset.sum_ite_eq' Finset.univ (check.parity j),
    if_pos (Finset.mem_univ _), List.sum_toFinset _ (ok.nodup j), ← bit_xorOf,
    HammingCheck.syndromeBit, bit_xor, word_apply]

theorem number_syndrome (ok : WellFormed check) (v : Vector Bool n) :
    number ((code check ok).syndrome (word v)) = check.syndrome v := by
  have val : ∀ b, (bit b).val = b.toNat := by decide
  simp only [number, HammingCheck.syndrome, syndrome_apply, val]

theorem number_eq_zero : ∀ s : Syndrome, number s = 0 ↔ s = 0 := by decide

/-- The source's correction step is syndrome decoding of the code. -/
theorem correct_refines (ok : WellFormed check) (v : Vector Bool n) :
    (word (check.correct v).1, (check.correct v).2) = (code check ok).correct (word v) := by
  have same := number_syndrome ok v
  generalize syn : (code check ok).syndrome (word v) = s at same
  unfold HammingCheck.correct Code.correct
  rw [syn, ← same]
  by_cases zero : s = 0
  · simp [zero, (number_eq_zero _).mpr]
  · rw [if_neg (fun none => zero ((number_eq_zero s).mp none)), if_neg zero]
    have lookup : (code check ok).locate s = located check s := rfl
    rw [lookup]
    cases found : located check s with
    | none =>
      have refused := ok.unlisted s zero found
      simp only [refused, ↓reduceIte]
    | some i =>
      simp only [located] at found
      split at found
      · rename_i listed
        obtain rfl := Option.some.inj found
        have kept : ¬ check.errPos.getD (number s &&& 0xF) (-1) < 0 := by omega
        simp only [kept, ↓reduceIte]
        exact Prod.ext (word_flip v ⟨_, listed.2⟩) rfl
      · cases found

/-- The source's syndrome is zero on the codewords and nowhere else. -/
theorem codeword_iff (ok : WellFormed check) (v : Vector Bool n) :
    (code check ok).Codeword (word v) ↔ check.syndrome v = 0 := by
  rw [← number_syndrome ok, number_eq_zero]
  rfl

end Hamming

theorem row_wellFormed : Hamming.WellFormed rowCheck := by
  constructor <;> decide +kernel

theorem col_wellFormed : Hamming.WellFormed colCheck := by
  constructor <;> decide +kernel

/-- The product code that the decoder works on: rows 0 to 8 carry row checks,
every column carries column checks. -/
def layout : Layout (Fin 13) (Fin 15) Syndrome Syndrome where
  rowCode := Hamming.code rowCheck row_wellFormed
  colCode := Hamming.code colCheck col_wellFormed
  guarded := Finset.univ.filter (· < 9)
  rowPerfect := by
    unfold Code.Perfect
    decide +kernel

@[simp] theorem mem_guarded {r : Fin 13} : r ∈ layout.guarded ↔ r < 9 := by
  simp [layout]

theorem correctRow_refines (row : Vector Bool 15) :
    word (correctRow row).1 = (layout.rowCode.correct (word row)).1 ∧
      (correctRow row).2 = (layout.rowCode.correct (word row)).2 :=
  Prod.ext_iff.mp (Hamming.correct_refines row_wellFormed row)

theorem correctCol_refines (col : Vector Bool 13) :
    word (correctCol col).1 = (layout.colCode.correct (word col)).1 ∧
      (correctCol col).2 = (layout.colCode.correct (word col)).2 :=
  Prod.ext_iff.mp (Hamming.correct_refines col_wellFormed col)

/-! ### Loading and storing rows and columns of the flat matrix -/

/-- The 13 by 15 grid inside the flat matrix; the padding bit is not in it. -/
def grid (m : Vector Bool 196) : Grid (Fin 13) (Fin 15) := fun r c => bit (getElem m (mat r c) (mat_lt r c))

theorem mat_inj {r r' : Fin 13} {c c' : Fin 15} : mat r c = mat r' c' ↔ r = r' ∧ c = c' := by
  simp only [mat, Fin.ext_iff]
  omega

theorem word_loadRow (m : Vector Bool 196) (r : Fin 13) : word (loadRow m r) = grid m r := by
  funext c
  simp [loadRow, grid]

theorem word_loadCol (m : Vector Bool 196) (c : Fin 15) :
    word (loadCol m c) = ProductCode.column (grid m) c := by
  funext r
  simp [loadCol, grid]

theorem row_codeword_iff (m : Vector Bool 196) (r : Fin 13) :
    layout.rowCode.Codeword (grid m r) ↔ rowCheck.syndrome (loadRow m r) = 0 := by
  rw [← word_loadRow]
  exact Hamming.codeword_iff row_wellFormed _

theorem col_codeword_iff (m : Vector Bool 196) (c : Fin 15) :
    layout.colCode.Codeword (ProductCode.column (grid m) c) ↔ colCheck.syndrome (loadCol m c) = 0 := by
  rw [← word_loadCol]
  exact Hamming.codeword_iff col_wellFormed _

theorem grid_storeRow (m : Vector Bool 196) (r : Fin 13) (row : Vector Bool 15) :
    grid (storeRow m r row) = Function.update (grid m) r (word row) := by
  have injective : Function.Injective (mat r) := fun c c' same => (mat_inj.mp same).2
  funext r' c
  simp only [grid, storeRow]
  by_cases here : r' = r
  · subst here
    rw [Loop.foldl_set_hit injective, Function.update_self, word_apply]
  · rw [Loop.foldl_set_miss injective _ _ fun c' same => here (mat_inj.mp same).1.symm,
      Function.update_of_ne here]
    rfl

theorem grid_storeCol (m : Vector Bool 196) (c : Fin 15) (col : Vector Bool 13) :
    grid (storeCol m c col) = fun r => Function.update (grid m r) c (word col r) := by
  have injective : Function.Injective (mat · c) := fun r r' same => (mat_inj.mp same).1
  funext r c'
  simp only [grid, storeCol]
  by_cases here : c' = c
  · subst here
    rw [Loop.foldl_set_hit injective, Function.update_self, word_apply]
  · rw [Loop.foldl_set_miss injective _ _ fun r' same => here (mat_inj.mp same).2.symm,
      Function.update_of_ne here]
    rfl

/-! ### The passes -/

theorem rowStep_refines (state : Vector Bool 196 × Bool) (i : Fin 9) :
    grid (rowStep state i).1 = Function.update (grid state.1) (i.castLE (by decide))
        (layout.rowCode.correct (grid state.1 (i.castLE (by decide)))).1 ∧
      (rowStep state i).2 = state.2 := by
  have decoded := correctRow_refines (loadRow state.1 (i.castLE (by decide)))
  rw [word_loadRow] at decoded
  simp only [rowStep, grid_storeRow, decoded, Code.correct_of_perfect layout.rowPerfect,
    Bool.and_true, and_self]

theorem rowPass_refines (start : Vector Bool 196 × Bool) :
    grid (rowPass start).1 = layout.rowPass (grid start.1) ∧ (rowPass start).2 = start.2 := by
  have loop := Loop.foldl_invariant rowStep start
    (fun done state => state.2 = start.2 ∧ ∀ r : Fin 13, grid state.1 r =
      if (r : ℕ) < done then layout.rowPass (grid start.1) r else grid start.1 r)
    ⟨rfl, fun r => by simp⟩ ?_
  · refine ⟨funext fun r => (loop.2 r).trans ?_, loop.1⟩
    by_cases guarded : r < 9
    · exact if_pos guarded
    · rw [if_neg (by simpa [Fin.lt_def] using guarded),
        Layout.rowPass_unguarded (by simpa using guarded)]
  · rintro i state ⟨flag, held⟩
    obtain ⟨rows, kept⟩ := rowStep_refines state i
    refine ⟨kept.trans flag, fun r => ?_⟩
    rw [rows, held, if_neg (by simp)]
    by_cases here : r = i.castLE (by decide)
    · subst here
      rw [Function.update_self, if_pos (by simp), Layout.rowPass_guarded (by simp [Fin.lt_def])]
    · have apart : (r : ℕ) ≠ i := fun same => here (Fin.ext same)
      rw [Function.update_of_ne here, held r]
      exact if_congr (by omega) rfl rfl

theorem colStep_refines (state : Vector Bool 196 × Bool) (c : Fin 15) :
    (∀ c', ProductCode.column (grid (colStep state c).1) c' = if c' = c then
        (layout.colCode.correct (ProductCode.column (grid state.1) c)).1
        else ProductCode.column (grid state.1) c') ∧
      (colStep state c).2 =
        (state.2 && (layout.colCode.correct (ProductCode.column (grid state.1) c)).2) := by
  have decoded := correctCol_refines (loadCol state.1 c)
  rw [word_loadCol] at decoded
  refine ⟨fun c' => funext fun r => ?_, by simp only [colStep, decoded]⟩
  simp only [colStep, grid_storeCol, decoded, ProductCode.column_apply]
  by_cases here : c' = c
  · subst here
    rw [Function.update_self, if_pos rfl]
  · rw [Function.update_of_ne here, if_neg here, ProductCode.column_apply]

theorem colPass_refines (start : Vector Bool 196 × Bool) :
    grid (colPass start).1 = layout.colPass (grid start.1) ∧
      ((colPass start).2 = true ↔ start.2 = true ∧ layout.ColumnsAccept (grid start.1)) := by
  have loop := Loop.foldl_invariant colStep start
    (fun done state => (state.2 = true ↔ start.2 = true ∧ ∀ c : Fin 15, (c : ℕ) < done →
        (layout.colCode.correct (ProductCode.column (grid start.1) c)).2 = true) ∧
      ∀ c : Fin 15, ProductCode.column (grid state.1) c =
        if (c : ℕ) < done then ProductCode.column (layout.colPass (grid start.1)) c
        else ProductCode.column (grid start.1) c)
    ⟨by simp, fun c => by simp⟩ ?_
  · change (_ ↔ _) ∧ ∀ c, ProductCode.column (grid (colPass start).1) c = _ at loop
    simp only [Fin.is_lt, true_implies, if_true] at loop
    refine ⟨funext fun r => funext fun c => ?_, loop.1⟩
    have col := congrFun (loop.2 c) r
    simpa only [ProductCode.column_apply] using col
  · rintro i state ⟨flag, held⟩
    obtain ⟨columns, kept⟩ := colStep_refines state i
    rw [held i, if_neg (by simp)] at columns kept
    refine ⟨?_, fun c => ?_⟩
    · rw [kept, Bool.and_eq_true, flag]
      constructor
      · rintro ⟨⟨before, all⟩, now⟩
        refine ⟨before, fun c bound => ?_⟩
        rcases Nat.lt_succ_iff_lt_or_eq.mp bound with earlier | last
        · exact all c earlier
        · exact Fin.ext last ▸ now
      · rintro ⟨before, all⟩
        exact ⟨⟨before, fun c bound => all c (by omega)⟩, all i (by omega)⟩
    · rw [columns c]
      by_cases here : c = i
      · subst here
        rw [if_pos rfl, if_pos (by simp), Layout.column_colPass]
      · have apart : (c : ℕ) ≠ i := fun same => here (Fin.ext same)
        rw [if_neg here, held c]
        exact if_congr (by omega) rfl rfl

/-- The three passes of the source are the three passes of the product code,
and the returned verdict is its verdict. -/
theorem decodeMatrix_refines (received : Vector Bool 196) :
    grid (decodeMatrix received).1 = layout.decode (grid (deinterleave received)) ∧
      ((decodeMatrix received).2 = true ↔ layout.Accepts (grid (deinterleave received))) := by
  have first := rowPass_refines (deinterleave received, true)
  have second := colPass_refines (rowPass (deinterleave received, true))
  have third := rowPass_refines (colPass (rowPass (deinterleave received, true)))
  rw [first.1, first.2] at second
  rw [second.1] at third
  rw [(decodeMatrix_parts received).1, (decodeMatrix_parts received).2]
  exact ⟨third.1, second.2.trans (by simp [Layout.Accepts])⟩

end DmrWatchkeeper.BptcRefinement
