import DmrWatchkeeper.Library.SyndromeCode

/-! Product codes decoded by three passes: guarded rows, all columns, guarded
rows again. The rows that the row code does not guard carry only column
checks. Results are for arbitrary index types and arbitrary component codes. -/
namespace ProductCode
open SyndromeCode
set_option linter.unusedSectionVars false

variable {ρ κ S T : Type*} [Fintype ρ] [DecidableEq ρ] [Fintype κ] [DecidableEq κ]
variable [AddCommGroup S] [DecidableEq S] [Module (ZMod 2) S]
variable [AddCommGroup T] [DecidableEq T] [Module (ZMod 2) T]

/-- The component codes and the rows that the row code guards. A perfect row
code never refuses a row, so refusals can only come from columns. -/
structure Layout (ρ κ S T : Type*) [AddCommGroup S] [AddCommGroup T] where
  rowCode : Code κ S
  colCode : Code ρ T
  guarded : Finset ρ
  rowPerfect : rowCode.Perfect

abbrev Grid (ρ κ : Type*) := ρ → κ → ZMod 2

variable {L : Layout ρ κ S T} {M E X : Grid ρ κ}

def column (M : Grid ρ κ) (c : κ) : Word ρ := fun r => M r c

@[simp] theorem column_apply (M : Grid ρ κ) (c : κ) (r : ρ) : column M c r = M r c := rfl

@[simp] theorem column_add (M E : Grid ρ κ) (c : κ) :
    column (M + E) c = column M c + column E c := rfl

/-- The number of wrong bits. -/
def weight (M : Grid ρ κ) : ℕ := ∑ r, hammingNorm (M r)

theorem weight_eq_card (M : Grid ρ κ) :
    weight M = (Finset.univ.filter fun p : ρ × κ => M p.1 p.2 ≠ 0).card := by
  simp only [weight, hammingNorm, Finset.card_filter, Fintype.sum_prod_type]

namespace Layout

def rowPass (L : Layout ρ κ S T) (M : Grid ρ κ) : Grid ρ κ :=
  fun r => if r ∈ L.guarded then (L.rowCode.correct (M r)).1 else M r

def colPass (L : Layout ρ κ S T) (M : Grid ρ κ) : Grid ρ κ :=
  fun r c => (L.colCode.correct (column M c)).1 r

/-- Every column was explained by at most one flip. -/
def ColumnsAccept (L : Layout ρ κ S T) (M : Grid ρ κ) : Prop :=
  ∀ c, (L.colCode.correct (column M c)).2 = true

/-- The grid left by the three passes. -/
def decode (L : Layout ρ κ S T) (M : Grid ρ κ) : Grid ρ κ :=
  L.rowPass (L.colPass (L.rowPass M))

/-- The verdict of the three passes, fixed by the column pass. -/
def Accepts (L : Layout ρ κ S T) (M : Grid ρ κ) : Prop := L.ColumnsAccept (L.rowPass M)

/-- Every guarded row and every column satisfies its checks. -/
structure Codeword (L : Layout ρ κ S T) (M : Grid ρ κ) : Prop where
  rows : ∀ r ∈ L.guarded, L.rowCode.Codeword (M r)
  columns : ∀ c, L.colCode.Codeword (column M c)

@[simp] theorem column_colPass (L : Layout ρ κ S T) (M : Grid ρ κ) (c : κ) :
    column (L.colPass M) c = (L.colCode.correct (column M c)).1 := rfl

theorem rowPass_guarded {r : ρ} (member : r ∈ L.guarded) :
    L.rowPass M r = (L.rowCode.correct (M r)).1 := if_pos member

theorem rowPass_unguarded {r : ρ} (outside : r ∉ L.guarded) : L.rowPass M r = M r :=
  if_neg outside

/-! ### Decoding depends on the error only -/

theorem rowPass_add_codeword (good : L.Codeword X) (E : Grid ρ κ) :
    L.rowPass (X + E) = X + L.rowPass E := by
  funext r
  by_cases member : r ∈ L.guarded
  · rw [Pi.add_apply, rowPass_guarded member, rowPass_guarded member, Pi.add_apply,
      Code.correct_add_codeword (good.rows r member)]
  · simp only [Pi.add_apply, rowPass_unguarded member]

theorem colPass_add_codeword (good : L.Codeword X) (E : Grid ρ κ) :
    L.colPass (X + E) = X + L.colPass E := by
  funext r c
  simp only [colPass, column_add, Code.correct_add_codeword (good.columns c), Pi.add_apply,
    column_apply]

theorem decode_add_codeword (good : L.Codeword X) (E : Grid ρ κ) :
    L.decode (X + E) = X + L.decode E := by
  simp only [decode, rowPass_add_codeword good, colPass_add_codeword good]

theorem accepts_add_codeword (good : L.Codeword X) (E : Grid ρ κ) :
    L.Accepts (X + E) ↔ L.Accepts E := by
  simp only [Accepts, ColumnsAccept, rowPass_add_codeword good, column_add,
    Code.correct_add_codeword (good.columns _)]

/-! ### What a row pass can do -/

/-- One pass over the guarded rows, as a relation: every guarded row moves by
at most one flip to a row codeword. -/
def RowLayer (L : Layout ρ κ S T) (M A : Grid ρ κ) : Prop :=
  ∀ r, if r ∈ L.guarded then L.rowCode.Codeword (A r) ∧ hammingDist (M r) (A r) ≤ 1
    else A r = M r

theorem rowPass_eq_iff : L.rowPass M = X ↔ L.RowLayer M X := by
  unfold RowLayer
  rw [funext_iff]
  refine forall_congr' fun r => ?_
  by_cases member : r ∈ L.guarded
  · rw [rowPass_guarded member, if_pos member, ← Code.correct_eq_iff, Prod.ext_iff]
    simp [Code.correct_of_perfect L.rowPerfect]
  · rw [rowPass_unguarded member, if_neg member, eq_comm]

/-! ### Error patterns that decoding removes -/

theorem rowPass_light {r : ρ} (member : r ∈ L.guarded) (light : hammingNorm (M r) ≤ 1) :
    L.rowPass M r = 0 := by
  rw [rowPass_guarded member, Code.correct_of_norm_le_one light]

theorem colPass_light {c : κ} (light : hammingNorm (column M c) ≤ 1) (r : ρ) :
    L.colPass M r c = 0 := by
  simp only [colPass, Code.correct_of_norm_le_one light, Pi.zero_apply]

theorem columnsAccept_of_light (light : ∀ c, hammingNorm (column M c) ≤ 1) :
    L.ColumnsAccept M := fun c => by rw [Code.correct_of_norm_le_one (light c)]

/-- A row with errors in at most one column is light. -/
theorem norm_row_le_one {r : ρ} (only : ∀ x y, M r x ≠ 0 → M r y ≠ 0 → x = y) :
    hammingNorm (M r) ≤ 1 :=
  Finset.card_le_one.mpr fun x hx y hy => only x y (by simpa using hx) (by simpa using hy)

/-- Behind light rows the column pass puts an error into a guarded row where
the rest of the column looks like a flip in that row. -/
theorem colPass_rowPass_light {r : ρ} (member : r ∈ L.guarded) (light : hammingNorm (E r) ≤ 1) (c : κ) :
    L.colPass (L.rowPass E) r c ≠ 0 ↔
      L.colCode.check r = L.colCode.syndrome (column (L.rowPass E) c) := by
  have clean : column (L.rowPass E) c r = 0 := congrFun (rowPass_light member light) c
  rw [← Code.correct_flips_iff, clean]
  rfl

/-- If after the first row pass no two columns hold two errors each, the
column pass confines the remaining errors to one column and the second row
pass clears every guarded row. -/
theorem decode_clears
    (heavy : ∀ x y, 2 ≤ hammingNorm (column (L.rowPass E) x) →
      2 ≤ hammingNorm (column (L.rowPass E) y) → x = y)
    {r : ρ} (member : r ∈ L.guarded) : L.decode E r = 0 := by
  have heavyAt : ∀ x, L.colPass (L.rowPass E) r x ≠ 0 →
      2 ≤ hammingNorm (column (L.rowPass E) x) := by
    intro x set
    by_contra light
    exact set (colPass_light (by omega) r)
  exact rowPass_light member
    (norm_row_le_one fun x y hx hy => heavy x y (heavyAt x hx) (heavyAt y hy))

/-! ### Counting errors -/

/-- Errors of one column in rows that the row code does not guard. -/
def unguarded (L : Layout ρ κ S T) (M : Grid ρ κ) (c : κ) : ℕ :=
  (Finset.univ.filter fun r => r ∉ L.guarded ∧ M r c ≠ 0).card

/-- Guarded rows with more errors than the row code corrects. -/
def overloaded (L : Layout ρ κ S T) (M : Grid ρ κ) : Finset ρ :=
  L.guarded.filter fun r => 2 ≤ hammingNorm (M r)

theorem mem_overloaded {r : ρ} :
    r ∈ L.overloaded M ↔ r ∈ L.guarded ∧ 2 ≤ hammingNorm (M r) := by
  simp [overloaded]

/-- After the first row pass the errors of a column are in overloaded rows or
in unguarded rows. -/
theorem column_rowPass_subset (c : κ) : (Finset.univ.filter (column (L.rowPass E) c · ≠ 0)) ⊆
    L.overloaded E ∪ Finset.univ.filter fun r => r ∉ L.guarded ∧ E r c ≠ 0 := by
  intro r member
  have set : L.rowPass E r c ≠ 0 := (Finset.mem_filter.mp member).2
  by_cases inside : r ∈ L.guarded
  · refine Finset.mem_union_left _ (mem_overloaded.mpr ⟨inside, ?_⟩)
    by_contra light
    exact set (by rw [rowPass_light inside (by omega), Pi.zero_apply])
  · rw [rowPass_unguarded inside] at set
    exact Finset.mem_union_right _ (by simpa using ⟨inside, set⟩)

theorem norm_column_rowPass_le (c : κ) :
    hammingNorm (column (L.rowPass E) c) ≤ (L.overloaded E).card + L.unguarded E c :=
  (Finset.card_le_card (column_rowPass_subset c)).trans (Finset.card_union_le _ _)

theorem sum_unguarded (L : Layout ρ κ S T) (M : Grid ρ κ) :
    ∑ c, L.unguarded M c = ∑ r ∈ L.guardedᶜ, hammingNorm (M r) := by
  simp only [unguarded, hammingNorm, Finset.card_filter]
  rw [Finset.sum_comm, ← Finset.sum_subset (Finset.subset_univ L.guardedᶜ)]
  · refine Finset.sum_congr rfl fun r outside => Finset.sum_congr rfl fun c _ => ?_
    simp [Finset.mem_compl.mp outside]
  · intro r _ inside
    have member : r ∈ L.guarded := by simpa using inside
    simp [member]

/-- Every error is in a guarded row or counted by its column. -/
theorem weight_split (L : Layout ρ κ S T) (M : Grid ρ κ) :
    weight M = ∑ r ∈ L.guarded, hammingNorm (M r) + ∑ c, L.unguarded M c := by
  rw [sum_unguarded, weight, Finset.sum_add_sum_compl]

theorem overloaded_le (L : Layout ρ κ S T) (M : Grid ρ κ) :
    2 * (L.overloaded M).card ≤ ∑ r ∈ L.guarded, hammingNorm (M r) := by
  calc 2 * (L.overloaded M).card = ∑ r ∈ L.overloaded M, 2 := by
        rw [Finset.sum_const, smul_eq_mul, mul_comm]
    _ ≤ ∑ r ∈ L.overloaded M, hammingNorm (M r) :=
        Finset.sum_le_sum fun r member => (mem_overloaded.mp member).2
    _ ≤ ∑ r ∈ L.guarded, hammingNorm (M r) :=
        Finset.sum_le_sum_of_subset (Finset.filter_subset _ _)

/-- Two columns left heavy by the first row pass account for four errors. -/
theorem four_le_weight_of_two_heavy {x y : κ} (distinct : x ≠ y)
    (heavyX : 2 ≤ hammingNorm (column (L.rowPass E) x))
    (heavyY : 2 ≤ hammingNorm (column (L.rowPass E) y)) : 4 ≤ weight E := by
  have boundX := norm_column_rowPass_le (L := L) (E := E) x
  have boundY := norm_column_rowPass_le (L := L) (E := E) y
  have pair : L.unguarded E x + L.unguarded E y ≤ ∑ c, L.unguarded E c := by
    rw [← Finset.sum_pair distinct]
    exact Finset.sum_le_sum_of_subset (Finset.subset_univ _)
  have rows := overloaded_le L E
  rw [weight_split L E]
  omega

/-- Three errors are always removed from the guarded rows. -/
theorem decode_of_weight_le_three (few : weight E ≤ 3) {r : ρ} (member : r ∈ L.guarded) :
    L.decode E r = 0 := by
  refine decode_clears (fun x y heavyX heavyY => ?_) member
  by_contra distinct
  have many := four_le_weight_of_two_heavy distinct heavyX heavyY
  omega

/-- If after the first row pass no column can hold two errors, the grid is
accepted and cleared from the guarded rows. -/
theorem settles_of_light (light : ∀ c, (L.overloaded E).card + L.unguarded E c ≤ 1) :
    L.Accepts E ∧ ∀ r ∈ L.guarded, L.decode E r = 0 := by
  have columns : ∀ c, hammingNorm (column (L.rowPass E) c) ≤ 1 :=
    fun c => (norm_column_rowPass_le c).trans (light c)
  refine ⟨columnsAccept_of_light columns, fun r member => decode_clears (fun x y heavy _ => ?_) member⟩
  have bound := columns x
  omega

/-- With two errors in all, every column holds at most one error or holds its
errors in unguarded rows only; so acceptance reduces to columns of the second
kind. -/
theorem accepts_of_weight_le_two
    (spare : ∀ w : Word ρ, (∀ r ∈ L.guarded, w r = 0) → hammingNorm w ≤ 2 →
      (L.colCode.correct w).2 = true)
    (few : weight E ≤ 2) : L.Accepts E := by
  intro c
  have bound := norm_column_rowPass_le (L := L) (E := E) c
  have rows := overloaded_le L E
  have one : L.unguarded E c ≤ ∑ c, L.unguarded E c :=
    Finset.single_le_sum (fun _ _ => Nat.zero_le _) (Finset.mem_univ c)
  have total := weight_split L E
  by_cases clean : L.overloaded E = ∅
  · refine spare _ (fun r member => ?_) ?_
    · have light : hammingNorm (E r) ≤ 1 := by
        by_contra heavy
        have member := mem_overloaded.mpr ⟨member, show 2 ≤ hammingNorm (E r) by omega⟩
        simp [clean] at member
      rw [column_apply, rowPass_light member light, Pi.zero_apply]
    · rw [clean, Finset.card_empty] at bound
      omega
  · have one := Finset.card_pos.mpr (Finset.nonempty_iff_ne_empty.mpr clean)
    rw [Code.correct_of_norm_le_one (by omega)]

end Layout
end ProductCode
