import DmrWatchkeeper.Library.FourErrors
import Mathlib.Data.Fintype.Pi
import Mathlib.SetTheory.Cardinal.Finite

/-! How many grids a product decoder accepts. The unguarded rows shift the
syndrome of each column independently of the guarded ones, so that over all
grids every combination of column syndromes occurs equally often. -/
namespace ProductCode.Layout
open SyndromeCode
set_option linter.unusedSectionVars false

variable {ρ κ S T : Type*} [Fintype ρ] [DecidableEq ρ] [Fintype κ] [DecidableEq κ]
variable [AddCommGroup S] [DecidableEq S] [Module (ZMod 2) S]
variable [AddCommGroup T] [DecidableEq T] [Module (ZMod 2) T]
variable {L : Layout ρ κ S T} {M : Grid ρ κ}

/-- Syndromes that at most one flip explains. -/
def Explained (code : Code ρ T) (s : T) : Prop := s = 0 ∨ ∃ i, code.check i = s

theorem correct_explained (code : Code ρ T) (w : Word ρ) :
    (code.correct w).2 = true ↔ Explained code (code.syndrome w) :=
  Code.correct_accepts_iff

/-- One syndrome for no flip, and one for each position. -/
theorem card_explained (code : Code ρ T) :
    Nat.card {s : T // Explained code s} = Fintype.card ρ + 1 := by
  have same : Function.Bijective fun i : Option ρ =>
      (⟨i.elim 0 code.check, by cases i <;> simp [Explained]⟩ : {s : T // Explained code s}) := by
    constructor
    · rintro (_ | i) (_ | j) equal
      · rfl
      · exact absurd (congrArg Subtype.val equal).symm (code.check_ne_zero j)
      · exact absurd (congrArg Subtype.val equal) (code.check_ne_zero i)
      · have located := (code.locate_iff _ i).mpr (congrArg Subtype.val equal)
        have own := (code.locate_iff _ j).mpr rfl
        exact (Option.some.inj (located.symm.trans own)) ▸ rfl
    · rintro ⟨s, rfl | ⟨i, rfl⟩⟩
      · exact ⟨none, rfl⟩
      · exact ⟨some i, rfl⟩
  rw [← Nat.card_eq_of_bijective _ same, Nat.card_eq_fintype_card, Fintype.card_option]

/-- The syndromes that the column pass sees, and the guarded rows as received. -/
def signature (L : Layout ρ κ S T) (M : Grid ρ κ) : (κ → T) × (L.guarded → κ → ZMod 2) :=
  (fun c => L.colCode.syndrome (column (L.rowPass M) c), fun r => M r)

/-- Where the unguarded positions of a column are independent, a grid is
determined by its signature. -/
theorem signature_injective (independent : L.SpareIndependent) : Function.Injective L.signature := by
  intro M M' same
  have rows : ∀ r ∈ L.guarded, M r = M' r := fun r member =>
    congrFun (congrArg Prod.snd same) ⟨r, member⟩
  have passed : ∀ r ∈ L.guarded, L.rowPass M r = L.rowPass M' r := by
    intro r member
    rw [rowPass_guarded member, rowPass_guarded member, rows r member]
  funext r c
  by_cases member : r ∈ L.guarded
  · rw [rows r member]
  · have syndromes := congrFun (congrArg Prod.fst same) c
    have zero : column (L.rowPass M) c + column (L.rowPass M') c = 0 := by
      refine independent _ (fun i inside => ?_) ?_
      · rw [Pi.add_apply, column_apply, column_apply, passed i inside, CharTwo.add_self_eq_zero]
      · have sum : L.colCode.syndrome (column (L.rowPass M) c) =
            L.colCode.syndrome (column (L.rowPass M') c) := syndromes
        rw [Code.Codeword, Code.syndrome_add, sum, ← Code.syndrome_add, Code.word_add_self,
          Code.syndrome_zero]
    have cell := congrFun zero r
    rw [Pi.add_apply, column_apply, column_apply, rowPass_unguarded member, rowPass_unguarded member,
      Pi.zero_apply] at cell
    exact CharTwo.add_eq_zero.mp cell

/-- With as many syndromes as values of the unguarded positions, the accepted
grids are counted column by column. -/
theorem card_accepted [Finite T] (independent : L.SpareIndependent)
    (sized : Nat.card T = 2 ^ (Fintype.card ρ - L.guarded.card)) :
    Nat.card {M : Grid ρ κ // L.Accepts M} =
      2 ^ (L.guarded.card * Fintype.card κ) * (Fintype.card ρ + 1) ^ Fintype.card κ := by
  have fits : L.guarded.card ≤ Fintype.card ρ := Finset.card_le_univ _
  have bijective : Function.Bijective L.signature := by
    refine (Nat.bijective_iff_injective_and_card _).mpr ⟨signature_injective independent, ?_⟩
    simp only [Nat.card_prod, Nat.card_fun, Nat.card_zmod, sized, Nat.card_eq_fintype_card (α := ρ),
      Nat.card_eq_fintype_card (α := κ), Nat.card_eq_fintype_card (α := L.guarded), Fintype.card_coe]
    rw [← pow_mul, ← pow_mul, ← pow_mul, ← pow_add, Nat.mul_comm (Fintype.card ρ - _), ← Nat.mul_add,
      Nat.sub_add_cancel fits]
  have split : {M : Grid ρ κ // L.Accepts M} ≃
      {p : (κ → T) × (L.guarded → κ → ZMod 2) // ∀ c, Explained L.colCode (p.1 c)} :=
    (Equiv.ofBijective _ bijective).subtypeEquiv fun M => forall_congr' fun c => correct_explained _ _
  have apart := split.trans
    (Equiv.prodSubtypeFstEquivSubtypeProd (p := fun s : κ → T => ∀ c, Explained L.colCode (s c)))
  rw [Nat.card_congr apart, Nat.card_prod, Nat.card_congr Equiv.subtypePiEquivPi]
  simp only [Nat.card_fun, card_explained, Nat.card_zmod, Nat.card_eq_fintype_card (α := κ),
    Nat.card_eq_fintype_card (α := L.guarded), Fintype.card_coe]
  rw [← pow_mul, Nat.mul_comm, Nat.mul_comm L.guarded.card]

end ProductCode.Layout
